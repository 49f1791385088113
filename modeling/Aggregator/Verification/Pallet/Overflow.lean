import Aggregator.Library.Run
import Aggregator.Verification.Pallet.Authorization

/-! # Arithmetic that does not fit

The validator adds to the block number of any payload that is signed, and a trade multiplies
the amount of any caller with whatever cost is stored. Neither is bounded. The nonce is
bounded by the number of submissions. -/

namespace Aggregator

variable {T : Config}

/-! ## Exact steps -/

/-- The deadline of a signed payload and the target amount of a trade are the exact numbers.
The validator decides by the one, and the event of the trade reports the other. -/
structure BlockStep.Exact (s : ChainState T) (step : BlockStep T) : Prop where
  noOverflow : ∀ call, step = .extrinsic (.unsigned call) →
    Exec.Avoids {.overflow} (validateUnsigned s call)
  deadline : ∀ payload signature,
    step = .extrinsic (.unsigned (.ocwSubmitBestPathsChanges payload signature)) →
    T.verify payload.publicKey payload signature = true →
    ∃ deadline : T.BlockNumber,
      (T.add payload.blockNumber T.maxTxPoolStayTime : Exec InvalidTransaction _) = .ok deadline ∧
      deadline.toNat = payload.blockNumber.toNat + T.maxTxPoolStayTime.toNat
  stale : ∀ payload signature,
    step = .extrinsic (.unsigned (.ocwSubmitBestPathsChanges payload signature)) →
    (validateUnsigned s (.ocwSubmitBestPathsChanges payload signature) = .error (.err .stale) ↔
      T.verify payload.publicKey payload signature = true ∧
        payload.blockNumber.toNat + T.maxTxPoolStayTime.toNat < s.blockNumber.toNat)
  target : ∀ who source target amount (path : T.Path),
    step = .extrinsic (.signed who (.trade source target amount)) →
    s.bestPaths[(⟨source, target⟩ : Pair T.Currency)]? = some path →
    ∃ targetAmount : T.Amount, targetAmount.toNat = amount.toNat * path.totalCost.toNat ∧
      trade (.signed who) source target amount s = .ok (s.depositEvent
        (.tradePerformed who source target path.totalCost amount targetAmount))

/-- A signed payload is not from the last blocks of the block number type, and the amount of a
trade times the stored cost fits an amount. -/
def BlockStep.InRange (s : ChainState T) : BlockStep T → Prop
  | .extrinsic (.unsigned (.ocwSubmitBestPathsChanges payload signature)) =>
      T.verify payload.publicKey payload signature = true →
        payload.blockNumber.toNat + T.maxTxPoolStayTime.toNat < 2 ^ T.blockNumberBits
  | .extrinsic (.signed _ (.trade source target amount)) =>
      ∀ path : T.Path, s.bestPaths[(⟨source, target⟩ : Pair T.Currency)]? = some path →
        amount.toNat * path.totalCost.toNat < 2 ^ T.amountBits
  | _ => True

/-- The nonce after a submission is the exact successor. -/
structure BlockStep.ExactNonce (s : ChainState T) (step : BlockStep T) : Prop where
  noOverflow : ∀ payload signature,
    step = .extrinsic (.unsigned (.ocwSubmitBestPathsChanges payload signature)) →
    Exec.Avoids {.overflow} (ocwSubmitBestPathsChanges .none payload signature s)
  nonce : ∀ payload signature s',
    step = .extrinsic (.unsigned (.ocwSubmitBestPathsChanges payload signature)) →
    ocwSubmitBestPathsChanges .none payload signature s = .ok s' →
    s'.unsignedTxNonce.toNat = s.unsignedTxNonce.toNat + 1

/-- The successful submissions of a step. -/
def BlockStep.submissions (s : ChainState T) : BlockStep T → ℕ
  | .extrinsic (.unsigned (.ocwSubmitBestPathsChanges payload signature)) =>
      if ((Extrinsic.unsigned (.ocwSubmitBestPathsChanges payload signature)).execute s).isSome
      then 1 else 0
  | _ => 0

/-- The successful submissions of a run. -/
def ChainState.submissions (s : ChainState T) : List (BlockStep T) → ℕ
  | [] => 0
  | step :: steps => step.submissions s + (step.apply s).submissions steps

/-! ## The validator and the trade -/

section Step

variable {s s' : ChainState T} {payload : T.Payload} {signature : T.Signature}

theorem validateUnsigned_avoids
    (hfits : T.verify payload.publicKey payload signature = true →
      payload.blockNumber.toNat + T.maxTxPoolStayTime.toNat < 2 ^ T.blockNumberBits) :
    Exec.Avoids {.overflow}
      (validateUnsigned s (.ocwSubmitBestPathsChanges payload signature)) := by
  refine Exec.Avoids.bind (Exec.Avoids.ensure _ _) fun _ hverify => ?_
  rw [Config.add_of_lt (hfits (Exec.ensure_eq_ok_iff.mp hverify)), Exec.ok_bind]
  refine Exec.Avoids.bind (Exec.Avoids.ensure _ _) fun _ _ => ?_
  exact Exec.Avoids.bind (Exec.Avoids.ensure _ _) fun _ _ => Exec.Avoids.ok _

/-- With a deadline that fits, a payload is stale by the exact deadline. -/
theorem validateUnsigned_eq_stale_iff
    (hfits : T.verify payload.publicKey payload signature = true →
      payload.blockNumber.toNat + T.maxTxPoolStayTime.toNat < 2 ^ T.blockNumberBits) :
    validateUnsigned s (.ocwSubmitBestPathsChanges payload signature) = .error (.err .stale) ↔
      T.verify payload.publicKey payload signature = true ∧
        payload.blockNumber.toNat + T.maxTxPoolStayTime.toNat < s.blockNumber.toNat := by
  unfold validateUnsigned
  dsimp only
  by_cases hverify : T.verify payload.publicKey payload signature = true
  swap
  · rw [Exec.ensure_neg hverify, Exec.error_bind]
    simp [hverify]
  have hlt : payload.blockNumber + T.maxTxPoolStayTime < s.blockNumber ↔
      payload.blockNumber.toNat + T.maxTxPoolStayTime.toNat < s.blockNumber.toNat := by
    rw [BitVec.lt_def, BitVec.toNat_add, Nat.mod_eq_of_lt (hfits hverify)]
  rw [Exec.ensure_pos hverify, Exec.ok_bind, Config.add_of_lt (hfits hverify), Exec.ok_bind,
    ← hlt]
  by_cases hstale : payload.blockNumber + T.maxTxPoolStayTime < s.blockNumber
  · rw [Exec.ensure_neg (not_not.mpr hstale), Exec.error_bind]
    simp [hverify, hstale]
  · rw [Exec.ensure_pos hstale, Exec.ok_bind]
    by_cases hlisted : T.intoAccount payload.publicKey ∈ s.whitelistedOffchainAuthorities
    · simp [Exec.ensure_pos hlisted, hstale]
    · simp [Exec.ensure_neg hlisted, hstale]

/-- With a target amount that fits, a trade reports the exact one. -/
theorem trade_eq_ok_of_lt {who : T.AccountId} {source target : T.Currency} {amount : T.Amount}
    {path : T.Path} (hpath : s.bestPaths[(⟨source, target⟩ : Pair T.Currency)]? = some path)
    (hfits : amount.toNat * path.totalCost.toNat < 2 ^ T.amountBits) :
    trade (.signed who) source target amount s = .ok (s.depositEvent
      (.tradePerformed who source target path.totalCost amount (amount * path.totalCost))) := by
  unfold trade
  simp only [ensureSigned, Exec.ok_bind, hpath, Config.mul_of_lt hfits]
  rfl

/-- A step is exact exactly when its sum and its product fit. -/
theorem BlockStep.exact_iff {step : BlockStep T} : step.Exact s ↔ step.InRange s := by
  constructor
  · intro h
    unfold InRange
    split
    · rename_i payload signature
      intro hverify
      obtain ⟨deadline, -, hdeadline⟩ := h.deadline payload signature rfl hverify
      exact hdeadline ▸ deadline.isLt
    · rename_i who source target amount
      intro path hpath
      obtain ⟨targetAmount, htarget, -⟩ := h.target who source target amount path rfl hpath
      exact htarget ▸ targetAmount.isLt
    · trivial
  · intro h
    constructor
    case noOverflow =>
      rintro call rfl
      cases call with
      | ocwSubmitBestPathsChanges payload signature => exact validateUnsigned_avoids h
      | _ => exact Exec.Avoids.fail _
    case deadline =>
      rintro payload signature rfl hverify
      refine ⟨_, Config.add_of_lt (h hverify), ?_⟩
      rw [BitVec.toNat_add, Nat.mod_eq_of_lt (h hverify)]
    case stale =>
      rintro payload signature rfl
      exact validateUnsigned_eq_stale_iff h
    case target =>
      rintro who source target amount path rfl hpath
      refine ⟨_, ?_, trade_eq_ok_of_lt hpath (h path hpath)⟩
      rw [BitVec.toNat_mul, Nat.mod_eq_of_lt (h path hpath)]

/-! ## The nonce -/

theorem ensureNone_avoids {bad : Set Panic} {AccountId : Type} (origin : Origin AccountId) :
    Exec.Avoids bad (ensureNone origin) := by
  cases origin with
  | none => exact Exec.Avoids.ok _
  | _ => exact Exec.Avoids.fail _

theorem applyChange_avoids {bad : Set Panic} (hbad : .unwrap ∉ bad)
    (acc : T.BestPaths × List (BestPricesEntry T)) (change : T.Change) :
    Exec.Avoids bad (applyChange acc change) := by
  obtain ⟨source, target, newPath⟩ := change
  unfold applyChange
  cases newPath with
  | some path => exact Exec.Avoids.bind (Config.log_avoids hbad _ _) fun _ _ => Exec.Avoids.ok _
  | none =>
      dsimp only
      split
      · exact Exec.Avoids.bind (Config.log_avoids hbad _ _) fun _ _ => Exec.Avoids.ok _
      · exact Exec.Avoids.ok _

theorem BlockStep.exactNonce_of_lt {step : BlockStep T}
    (hmax : s.unsignedTxNonce.toNat + 1 < 2 ^ 64) : step.ExactNonce s := by
  constructor
  case noOverflow =>
    intro payload signature _
    refine Exec.Avoids.bind (ensureNone_avoids _) fun _ _ => ?_
    refine Exec.Avoids.bind (Exec.Avoids.ensure _ _) fun _ _ => ?_
    refine Exec.Avoids.bind (Exec.Avoids.foldlM (applyChange_avoids (by simp)) _) fun _ _ => ?_
    rw [Config.add_of_checked fun _ => hmax]
    exact Exec.Avoids.ok _
  case nonce =>
    intro payload signature s' _ hok
    obtain ⟨-, -, events, rfl⟩ := ocwSubmitBestPathsChanges_eq_ok hok
    exact toNat_add_one hmax

/-- The nonce counts the submissions. -/
theorem BlockStep.toNat_nonce_apply (step : BlockStep T)
    (hmax : s.unsignedTxNonce.toNat + 1 < 2 ^ 64) :
    (step.apply s).unsignedTxNonce.toNat = s.unsignedTxNonce.toNat + step.submissions s := by
  by_cases hsubmit : ∃ payload signature,
      step = .extrinsic (.unsigned (.ocwSubmitBestPathsChanges payload signature))
  · obtain ⟨payload, signature, rfl⟩ := hsubmit
    cases hexec : (Extrinsic.unsigned (.ocwSubmitBestPathsChanges payload signature)).execute s with
    | none => simp [BlockStep.apply, BlockStep.submissions, hexec]
    | some s' =>
        have hnonce := (exactNonce_of_lt hmax).nonce payload signature s' rfl
          (Extrinsic.dispatch_call hexec)
        simp [BlockStep.apply, BlockStep.submissions, hexec, hnonce]
  · have hsame : (step.apply s).unsignedTxNonce = s.unsignedTxNonce := by
      by_contra hne
      obtain ⟨payload, signature, hstep, -⟩ := BlockStep.authorized (.inr hne)
      exact hsubmit ⟨payload, signature, hstep⟩
    rw [hsame]
    unfold submissions
    split
    · exact (hsubmit ⟨_, _, rfl⟩).elim
    · rfl

end Step

/-! ## Runs -/

theorem ChainState.along_exactNonce (steps : List (BlockStep T)) {s : ChainState T}
    (hmax : s.unsignedTxNonce.toNat + s.submissions steps < 2 ^ 64 - 1) :
    Run.Along BlockStep.apply BlockStep.ExactNonce s steps ∧
      (s.run steps).unsignedTxNonce.toNat = s.unsignedTxNonce.toNat + s.submissions steps := by
  induction steps generalizing s with
  | nil => exact ⟨trivial, rfl⟩
  | cons step steps ih =>
      rw [submissions] at hmax
      have hfits : s.unsignedTxNonce.toNat + 1 < 2 ^ 64 := by omega
      have hcount := step.toNat_nonce_apply hfits
      obtain ⟨halong, hlast⟩ := ih (s := step.apply s) (by omega)
      refine ⟨⟨BlockStep.exactNonce_of_lt hfits, halong⟩, ?_⟩
      rw [submissions, ← Nat.add_assoc, ← hcount]
      exact hlast

/-- In every run, the deadlines and the target amounts are exact exactly when they fit. The
nonces are exact until there are `2 ^ 64 - 1` submissions. -/
theorem ChainState.run_exact_iff (steps : List (BlockStep T)) :
    (Run.Along BlockStep.apply BlockStep.Exact (genesis T) steps ↔
      Run.Along BlockStep.apply BlockStep.InRange (genesis T) steps) ∧
    ((genesis T).submissions steps < 2 ^ 64 - 1 →
      Run.Along BlockStep.apply BlockStep.ExactNonce (genesis T) steps ∧
        ((genesis T).run steps).unsignedTxNonce.toNat = (genesis T).submissions steps) := by
  refine ⟨⟨Run.Along.imp fun _ _ => BlockStep.exact_iff.mp,
    Run.Along.imp fun _ _ => BlockStep.exact_iff.mpr⟩, fun hmax => ?_⟩
  have hzero : (genesis T).unsignedTxNonce.toNat = 0 := rfl
  simpa only [hzero, Nat.zero_add] using
    along_exactNonce steps (s := genesis T) (by omega)

/-! ## Runs of the node's runtime -/

/-- Anyone trades at the price that was submitted. -/
def sampleTrade (amount : BitVec 128) : BlockStep (nodeRuntime Algo.Log2.rational) :=
  .extrinsic (.signed 1 (.trade btc usdt amount))

theorem ChainState.run_exact_iff_sampleTrade :
    Run.Along BlockStep.apply BlockStep.ExactNonce (genesis _)
        (sampleSteps ++ [sampleSubmission, sampleTrade 2]) ∧
      ((genesis _).run (sampleSteps ++ [sampleSubmission, sampleTrade 2])).unsignedTxNonce.toNat =
        (genesis _).submissions (sampleSteps ++ [sampleSubmission, sampleTrade 2]) :=
  (run_exact_iff _).2 (by decide +kernel)

/-- A payload of the last block number, signed by a key that is not whitelisted. -/
def lastBlockPayload : (nodeRuntime Algo.Log2.rational).Payload where
  changes := []
  nonce := 0
  blockNumber := .allOnes 32
  publicKey := 8

def lastBlockSubmission : BlockStep (nodeRuntime Algo.Log2.rational) :=
  .extrinsic (.unsigned (.ocwSubmitBestPathsChanges lastBlockPayload 8))

/-- The target amount of a large trade wraps to zero, and the deadline of the last block
number wraps to the second block. -/
theorem ChainState.not_run_exact_sampleTrade :
    trade (T := nodeRuntime Algo.Log2.rational) (.signed 1) btc usdt (.twoPow 128 127)
        ((genesis _).run (sampleSteps ++ [sampleSubmission])) =
        .ok (((genesis _).run (sampleSteps ++ [sampleSubmission])).depositEvent
          (.tradePerformed 1 btc usdt 50000 (.twoPow 128 127) 0)) ∧
      ¬ Run.Along BlockStep.apply BlockStep.Exact (genesis _)
        (sampleSteps ++ [sampleSubmission, sampleTrade (.twoPow 128 127)]) ∧
      validateUnsigned ((genesis _).run [.advance, .advance, .advance])
        (.ocwSubmitBestPathsChanges lastBlockPayload 8) = .error (.err .stale) ∧
      ¬ Run.Along BlockStep.apply BlockStep.Exact (genesis _)
        [.advance, .advance, .advance, lastBlockSubmission] := by
  have hpath : ((genesis _).run (sampleSteps ++ [sampleSubmission])).bestPaths[
      (⟨btc, usdt⟩ : Pair (List UInt8))]? = some ⟨50000, []⟩ := by
    decide +kernel
  have hmul : ((nodeRuntime Algo.Log2.rational).mul (.twoPow 128 127) (50000 : BitVec 128) :
      Exec DispatchError (BitVec 128)) = .ok 0 := by
    decide +kernel
  refine ⟨?_, ?_, by decide +kernel, ?_⟩
  · unfold trade
    simp only [ensureSigned, Exec.ok_bind, hpath, hmul]
    rfl
  · rintro ⟨-, -, -, hexact, -⟩
    have hfits := BlockStep.exact_iff.mp hexact _ hpath
    exact absurd hfits (by decide +kernel)
  · rintro ⟨-, -, -, hexact, -⟩
    have hfits := BlockStep.exact_iff.mp hexact rfl
    exact absurd hfits (by decide +kernel)

end Aggregator
