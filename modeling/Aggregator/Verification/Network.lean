import Aggregator.Library.Optimistic
import Aggregator.Model.Runtime
import Aggregator.Verification.LongestPaths.Logarithm
import Aggregator.Verification.OffchainWorker.Round
import Aggregator.Verification.Pallet.Authorization

/-! # Submissions over all interleavings

The nonce is the version of the stored best paths: every successful submission raises it
and nothing else writes the paths. -/

namespace Aggregator

variable {T : Config}

/-! ## Steps -/

theorem Call.submitted_eq_nil (call : Call T)
    (h : ∀ payload signature, call ≠ .ocwSubmitBestPathsChanges payload signature) :
    call.submitted = [] := by
  cases call with
  | ocwSubmitBestPathsChanges payload signature => exact (h payload signature rfl).elim
  | _ => rfl

namespace Network

variable {σ : Network T}

/-- What one action can have done to the network. -/
theorem step_cases (σ : Network T) (a : Action T) :
    ((σ.step a).chain.bestPaths = σ.chain.bestPaths ∧
      (σ.step a).chain.unsignedTxNonce = σ.chain.unsignedTxNonce ∧
      (σ.step a).applied = σ.applied) ∨
    ∃ payload signature, a = .dispatch .none (.ocwSubmitBestPathsChanges payload signature) ∧
      σ.chain.unsignedTxNonce = payload.nonce ∧
      (σ.step a).chain.bestPaths = applyChanges payload.changes σ.chain.bestPaths ∧
      (σ.step a).chain.unsignedTxNonce = σ.chain.unsignedTxNonce + 1 ∧
      (σ.step a).applied = σ.applied ++ [payload] := by
  cases a with
  | round env blockNumber =>
      left
      dsimp only [step, round]
      split <;> exact ⟨rfl, rfl, rfl⟩
  | advance => exact .inl ⟨rfl, rfl, rfl⟩
  | dispatch origin call =>
      dsimp only [step, dispatch]
      cases hcall : call.dispatch origin σ.chain with
      | error fault => exact .inl ⟨rfl, rfl, rfl⟩
      | ok chain =>
          rcases Call.dispatch_eq_ok hcall with
            ⟨payload, signature, rfl, rfl, hnonce, events, rfl⟩ |
            ⟨_, rfl, -, events, rfl⟩ | ⟨hother, _, events, rfl⟩
          · exact .inr ⟨payload, signature, rfl, hnonce, rfl, rfl, rfl⟩
          · exact .inl ⟨rfl, rfl, List.append_nil _⟩
          · refine .inl ⟨rfl, rfl, ?_⟩
            rw [call.submitted_eq_nil hother, List.append_nil]

theorem mem_inFlight_step {a : Action T} {r : InFlight T} (hr : r ∈ (σ.step a).inFlight) :
    r ∈ σ.inFlight ∨ (r.payload.nonce = σ.chain.unsignedTxNonce ∧
      r.seenBestPaths = σ.chain.bestPaths ∧
      ∃ order, selectChanges order r.seenBestPaths r.newBestPaths = .ok r.payload.changes) := by
  cases a with
  | advance => exact .inl hr
  | dispatch origin call =>
      dsimp only [step, dispatch] at hr
      split at hr <;> exact .inl hr
  | round env blockNumber =>
      dsimp only [step, round] at hr
      split at hr
      · rename_i newBestPaths payload hcalc hround
        rcases List.mem_cons.mp hr with rfl | hr
        · right
          obtain ⟨newBestPaths', hcalc', hchanges, hnonce⟩ :=
            fetchPricesAndUpdateBestPaths_eq_ok hround
          rw [hcalc] at hcalc'
          cases hcalc'
          exact ⟨hnonce, rfl, _, hchanges⟩
        · exact .inl hr
      · exact .inl hr

/-! ## Runs -/

/-- The number of successful submissions versions the stored best paths. -/
theorem versioned : Optimistic.Versioned (fun σ τ : Network T => ∃ a, τ = σ.step a)
    (fun σ => σ.applied.length) (fun σ => σ.chain.bestPaths) := by
  rintro σ - ⟨a, rfl⟩
  rcases step_cases σ a with ⟨hbest, -, happlied⟩ | ⟨payload, -, -, -, -, -, happlied⟩
  · exact .inl ⟨congrArg List.length happlied, hbest⟩
  · right
    dsimp only
    rw [happlied, List.length_append]
    exact Nat.lt_add_one _

theorem reflTransGen_run (σ : Network T) (actions : List (Action T)) :
    Relation.ReflTransGen (fun σ τ : Network T => ∃ a, τ = σ.step a) σ (σ.run actions) := by
  induction actions generalizing σ with
  | nil => exact .refl
  | cons a actions ih => exact .head ⟨a, rfl⟩ (ih (σ.step a))

/-- The applied payloads carry the nonces from zero on, and the next one is expected. -/
structure InOrder (σ : Network T) : Prop where
  expected : σ.chain.unsignedTxNonce = BitVec.ofNat 64 σ.applied.length
  applied : σ.applied.map (·.nonce) = (List.range σ.applied.length).map (BitVec.ofNat 64)

theorem InOrder.step (h : InOrder σ) (a : Action T) : InOrder (σ.step a) := by
  rcases step_cases σ a with ⟨-, hnonce, happlied⟩ | ⟨payload, -, -, heq, -, hnonce, happlied⟩
  · exact ⟨by rw [hnonce, happlied, h.expected], by rw [happlied, h.applied]⟩
  · constructor
    · rw [hnonce, happlied, h.expected]
      simp [BitVec.ofNat_add]
    · rw [happlied]
      simp [List.range_succ, h.applied, ← heq, h.expected]

/-- The network is reached by a run from genesis. -/
def Reachable (σ : Network T) : Prop :=
  Relation.ReflTransGen (fun σ τ : Network T => ∃ a, τ = σ.step a) (genesis T) σ

theorem Reachable.inOrder (h : Reachable σ) : InOrder σ := by
  induction h with
  | refl => exact ⟨rfl, rfl⟩
  | tail _ hstep ih =>
      obtain ⟨a, rfl⟩ := hstep
      exact ih.step a

theorem reachable_run (actions : List (Action T)) : Reachable ((genesis T).run actions) :=
  reflTransGen_run _ actions

/-- Nonces below `2 ^ 64` are told apart. -/
theorem eq_of_ofNat_eq {a b : ℕ} (ha : a < 2 ^ 64) (hb : b < 2 ^ 64)
    (h : BitVec.ofNat 64 a = BitVec.ofNat 64 b) : a = b := by
  have hnat := congrArg BitVec.toNat h
  rwa [BitVec.toNat_ofNat, BitVec.toNat_ofNat, Nat.mod_eq_of_lt ha, Nat.mod_eq_of_lt hb] at hnat

/-- An applied payload does not carry the expected nonce again. -/
theorem InOrder.nonce_ne (h : InOrder σ) (hcount : σ.applied.length + 1 < 2 ^ 64)
    {payload : T.Payload} (hmem : payload ∈ σ.applied) :
    payload.nonce ≠ σ.chain.unsignedTxNonce := by
  intro heq
  have hin : payload.nonce ∈ σ.applied.map (·.nonce) := List.mem_map_of_mem hmem
  rw [h.applied, heq, h.expected] at hin
  obtain ⟨i, hi, hnonce⟩ := List.mem_map.mp hin
  have hlt := List.mem_range.mp hi
  have hi' := eq_of_ofNat_eq (by omega) (by omega) hnonce
  omega

theorem Reachable.nodup_applied (h : Reachable σ) (hcount : σ.applied.length < 2 ^ 64) :
    σ.applied.Nodup := by
  refine List.Nodup.of_map (·.nonce) ?_
  rw [h.inOrder.applied]
  refine List.Nodup.map_on (fun a ha b hb heq => ?_) List.nodup_range
  exact eq_of_ofNat_eq ((List.mem_range.mp ha).trans hcount)
    ((List.mem_range.mp hb).trans hcount) heq

/-- A round's payload with the expected nonce selects the changes of the best paths that are
still stored. -/
theorem Reachable.snapshot (h : Reachable σ) (hcount : σ.applied.length < 2 ^ 64)
    {r : InFlight T} (hr : r ∈ σ.inFlight) (hnonce : σ.chain.unsignedTxNonce = r.payload.nonce) :
    σ.chain.bestPaths = r.seenBestPaths ∧
      ∃ order, selectChanges order r.seenBestPaths r.newBestPaths = .ok r.payload.changes := by
  obtain ⟨τ, hτ, hrun, htaken, hseen, hchanges⟩ := Optimistic.exists_snapshot rfl
    (fun _ _ hstep _ hr => by
      obtain ⟨a, rfl⟩ := hstep
      exact mem_inFlight_step hr) h hr
  have hle := versioned.version_le hrun
  have heq : BitVec.ofNat 64 σ.applied.length = BitVec.ofNat 64 τ.applied.length := by
    rw [← h.inOrder.expected, ← (Reachable.inOrder hτ).expected, hnonce, htaken]
  have hversion := eq_of_ofNat_eq hcount (hle.trans_lt hcount) heq
  exact ⟨(versioned.value_eq hrun hversion).trans hseen.symm, hchanges⟩

/-- Submissions succeed with consecutive nonces, and a round's payload is applied only to the
best paths it was computed from, each new path being stored unless the stored one is within
tolerance of it. -/
theorem run_submissions (actions : List (Action T))
    (hcount : ((genesis T).run actions).applied.length < 2 ^ 64) :
    ((genesis T).run actions).applied.map (·.nonce) =
        (List.range ((genesis T).run actions).applied.length).map (BitVec.ofNat 64) ∧
      ((genesis T).run actions).applied.Nodup ∧
      ∀ r ∈ ((genesis T).run actions).inFlight, ∀ origin signature chain,
        ocwSubmitBestPathsChanges origin r.payload signature ((genesis T).run actions).chain =
            .ok chain →
          ((genesis T).run actions).chain.bestPaths = r.seenBestPaths ∧
          ∀ (pair : Pair T.Currency) (path : T.Path), r.newBestPaths[pair]? = some path →
            chain.bestPaths[pair]? = some path ∨
            ∃ old : T.Path, r.seenBestPaths[pair]? = some old ∧
              chain.bestPaths[pair]? = some old ∧
              (breachesTolerance old.totalCost.toNat path.totalCost.toNat
                T.priceChangeTolerance.toNat : Exec String Bool) = .ok false := by
  have h := reachable_run actions
  refine ⟨h.inOrder.applied, h.nodup_applied hcount, ?_⟩
  intro r hr origin signature chain hok
  obtain ⟨-, hnonce, events, rfl⟩ := ocwSubmitBestPathsChanges_eq_ok hok
  obtain ⟨hseen, order, hchanges⟩ := h.snapshot hcount hr hnonce
  refine ⟨hseen, fun pair path hpath => ?_⟩
  dsimp only
  rw [hseen]
  rcases getElem?_applyChanges_selectChanges hchanges pair with
    ⟨path', hnew, happlied, -⟩ | ⟨hold, hkept⟩
  · exact .inl (happlied.trans (hnew.symm.trans hpath))
  · obtain ⟨old, hstored, hwithin⟩ := hkept path hpath
    exact .inr ⟨old, hstored, hold.trans hstored, hwithin⟩

/-- The validator looks at the signature, the deadline and the whitelist, not at the nonce. The
dispatchable looks at the nonce alone, whether the payload is accepted or not: a payload with
the expected nonce is applied, any other and every applied one is stale. -/
theorem run_validated (actions : List (Action T))
    (hcount : ((genesis T).run actions).applied.length + 1 < 2 ^ 64) (payload : T.Payload)
    (signature : T.Signature) :
    ((∃ v, validateUnsigned ((genesis T).run actions).chain
          (.ocwSubmitBestPathsChanges payload signature) = .ok v) ↔
        T.verify payload.publicKey payload signature = true ∧
        (T.build.overflowChecks = true →
          payload.blockNumber.toNat + T.maxTxPoolStayTime.toNat < 2 ^ T.blockNumberBits) ∧
        ((genesis T).run actions).chain.blockNumber ≤
          payload.blockNumber + T.maxTxPoolStayTime ∧
        T.intoAccount payload.publicKey ∈
          ((genesis T).run actions).chain.whitelistedOffchainAuthorities) ∧
      (Printable payload.changes →
        ((∃ chain, ocwSubmitBestPathsChanges .none payload signature
            ((genesis T).run actions).chain = .ok chain) ↔
          payload.nonce = ((genesis T).run actions).chain.unsignedTxNonce)) ∧
      (payload.nonce ≠ ((genesis T).run actions).chain.unsignedTxNonce ∨
          payload ∈ ((genesis T).run actions).applied →
        ocwSubmitBestPathsChanges .none payload signature ((genesis T).run actions).chain =
          .error (.err .staleUnsignedTxError)) := by
  have h := (reachable_run actions).inOrder
  refine ⟨?_, fun hprint => ⟨?_, fun hnonce => ?_⟩, fun hstale => ?_⟩
  · simp only [validateUnsigned_eq_ok_iff, exists_and_left, exists_eq, and_true]
  · rintro ⟨chain, hok⟩
    exact (ocwSubmitBestPathsChanges_eq_ok hok).2.1.symm
  · refine exists_ocwSubmitBestPathsChanges_eq_ok hnonce.symm hprint ?_
    rw [h.expected, BitVec.toNat_ofNat, Nat.mod_eq_of_lt (by omega)]
    exact hcount
  · refine ocwSubmitBestPathsChanges_stale fun heq => ?_
    rcases hstale with hne | hmem
    · exact hne heq.symm
    · exact h.nonce_ne hcount hmem heq.symm

/-! ## A run of the node's runtime -/

/-- Root adds a pair, two workers fetch its price, and the payload of the second lands twice. -/
def sampleRun : List (Action (nodeRuntime Algo.Log2.rational)) :=
  let rounds : List (Action (nodeRuntime Algo.Log2.rational)) :=
    [.dispatch .root (.addWhitelistedOffchainAuthority 7),
      .dispatch .root (.submitMonitoredPairs [⟨⟨⟨btc, usdt⟩, .cryptoCompare⟩, .add⟩]),
      .round (mockEnvironment _ 50000) 1, .advance, .round (mockEnvironment _ 60000) 2]
  rounds ++ submitNewest ((genesis _).run rounds) ++ submitNewest ((genesis _).run rounds)

/-- A second payload is applied after it, and a third one can be. -/
def followedRun : List (Action (nodeRuntime Algo.Log2.rational)) :=
  let next := sampleRun ++ [.round (mockEnvironment _ 70000) 2]
  next ++ submitNewest ((genesis _).run next) ++ [.round (mockEnvironment _ 80000) 2]

theorem run_submissions_followedRun :
    (((genesis _).run followedRun).applied.length = 2 ∧
      ∃ r ∈ ((genesis _).run followedRun).inFlight,
        (ocwSubmitBestPathsChanges .none r.payload 7
          ((genesis _).run followedRun).chain).isOk = true) ∧
    ((genesis _).run followedRun).applied.map (·.nonce) =
        (List.range ((genesis _).run followedRun).applied.length).map (BitVec.ofNat 64) ∧
      ((genesis _).run followedRun).applied.Nodup ∧
      ∀ r ∈ ((genesis _).run followedRun).inFlight, ∀ origin signature chain,
        ocwSubmitBestPathsChanges origin r.payload signature
            ((genesis _).run followedRun).chain = .ok chain →
          ((genesis _).run followedRun).chain.bestPaths = r.seenBestPaths ∧
          ∀ (pair : Pair (List UInt8)) (path : PricePath (List UInt8) Provider (Amount 128)),
            r.newBestPaths[pair]? = some path →
            chain.bestPaths[pair]? = some path ∨
            ∃ old : PricePath (List UInt8) Provider (Amount 128),
              r.seenBestPaths[pair]? = some old ∧ chain.bestPaths[pair]? = some old ∧
              (breachesTolerance old.totalCost.toNat path.totalCost.toNat 1 :
                Exec String Bool) = .ok false :=
  ⟨⟨by decide +kernel, by decide +kernel⟩, run_submissions followedRun (by decide +kernel)⟩

/-! ## A replayed payload -/

def replayedPayload : (nodeRuntime Algo.Log2.rational).Payload where
  changes := [(btc, usdt, some ⟨50000, []⟩)]
  nonce := 0
  blockNumber := 1
  publicKey := 7

/-- Root whitelists an authority, and its payload is applied. -/
def replayRun : List (Action (nodeRuntime Algo.Log2.rational)) :=
  [.dispatch .root (.addWhitelistedOffchainAuthority 7), .advance,
    .dispatch .none (.ocwSubmitBestPathsChanges replayedPayload 7)]

theorem run_validated_replayRun :
    ((∃ v, validateUnsigned ((genesis _).run replayRun).chain
          (.ocwSubmitBestPathsChanges replayedPayload 7) = .ok v) ↔
        (nodeRuntime Algo.Log2.rational).verify replayedPayload.publicKey replayedPayload 7 =
          true ∧
        ((nodeRuntime Algo.Log2.rational).build.overflowChecks = true →
          replayedPayload.blockNumber.toNat +
            (nodeRuntime Algo.Log2.rational).maxTxPoolStayTime.toNat < 2 ^ 32) ∧
        ((genesis _).run replayRun).chain.blockNumber ≤
          replayedPayload.blockNumber + (nodeRuntime Algo.Log2.rational).maxTxPoolStayTime ∧
        (nodeRuntime Algo.Log2.rational).intoAccount replayedPayload.publicKey ∈
          ((genesis _).run replayRun).chain.whitelistedOffchainAuthorities) ∧
      ((∃ chain, ocwSubmitBestPathsChanges .none replayedPayload 7
          ((genesis _).run replayRun).chain = .ok chain) ↔
        replayedPayload.nonce = ((genesis _).run replayRun).chain.unsignedTxNonce) ∧
      (replayedPayload.nonce ≠ ((genesis _).run replayRun).chain.unsignedTxNonce ∨
          replayedPayload ∈ ((genesis _).run replayRun).applied →
        ocwSubmitBestPathsChanges .none replayedPayload 7 ((genesis _).run replayRun).chain =
          .error (.err .staleUnsignedTxError)) := by
  have hprint : Printable replayedPayload.changes := fun _ => by decide +kernel
  have h := run_validated replayRun (by decide +kernel) replayedPayload 7
  exact ⟨h.1, h.2.1 hprint, h.2.2⟩

/-- The validator accepts a payload that has been applied, and its dispatch fails. -/
theorem validateUnsigned_replayRun :
    replayedPayload ∈ ((genesis _).run replayRun).applied ∧
      (validateUnsigned ((genesis _).run replayRun).chain
        (.ocwSubmitBestPathsChanges replayedPayload 7)).isOk = true ∧
      ¬ ∃ chain, ocwSubmitBestPathsChanges .none replayedPayload 7
        ((genesis _).run replayRun).chain = .ok chain := by
  refine ⟨by decide +kernel, by decide +kernel, ?_⟩
  rintro ⟨chain, hok⟩
  have hnonce := (ocwSubmitBestPathsChanges_eq_ok hok).2.1
  revert hnonce
  decide +kernel

end Network

end Aggregator
