import Aggregator.Model.Block
import Aggregator.Model.Runtime
import Aggregator.Verification.LongestPaths.Logarithm
import Aggregator.Verification.Pallet.Dispatch

/-! # Who can change the best paths

The dispatchable checks origin and nonce, the validator signature, age and whitelist;
together they leave one way to write the best paths. -/

namespace Aggregator

variable {T : Config} {s s' : ChainState T}

/-! ## The validator -/

/-- A payload is accepted exactly when its signature verifies, its deadline, which may wrap
where overflow is not checked, is not over, and its signer is whitelisted. -/
theorem validateUnsigned_eq_ok_iff {payload : T.Payload} {signature : T.Signature}
    {v : ValidTransaction T.BlockNumber} :
    validateUnsigned s (.ocwSubmitBestPathsChanges payload signature) = .ok v ↔
      T.verify payload.publicKey payload signature = true ∧
      (T.build.overflowChecks = true →
        payload.blockNumber.toNat + T.maxTxPoolStayTime.toNat < 2 ^ T.blockNumberBits) ∧
      s.blockNumber ≤ payload.blockNumber + T.maxTxPoolStayTime ∧
      T.intoAccount payload.publicKey ∈ s.whitelistedOffchainAuthorities ∧
      v = ⟨T.unsignedPriority, [("AggregatorWorker", txTag, s.blockNumber)], 5, true⟩ := by
  simp only [validateUnsigned, Exec.bind_eq_ok_iff, Exec.ensure_eq_ok_iff, Config.add_eq_ok_iff,
    BitVec.not_lt]
  constructor
  · rintro ⟨⟨⟩, hverify, deadline, ⟨hfits, rfl⟩, ⟨⟩, hrecent, ⟨⟩, hlisted, ⟨⟩⟩
    exact ⟨hverify, hfits, hrecent, hlisted, rfl⟩
  · rintro ⟨hverify, hfits, hrecent, hlisted, rfl⟩
    exact ⟨⟨⟩, hverify, _, ⟨hfits, rfl⟩, ⟨⟩, hrecent, ⟨⟩, hlisted, rfl⟩

/-- An accepted payload is recent also when the sum of block numbers wraps. -/
theorem validateUnsigned_eq_ok {payload : T.Payload} {signature : T.Signature}
    {v : ValidTransaction T.BlockNumber}
    (h : validateUnsigned s (.ocwSubmitBestPathsChanges payload signature) = .ok v) :
    T.verify payload.publicKey payload signature = true ∧
      s.blockNumber.toNat ≤ payload.blockNumber.toNat + T.maxTxPoolStayTime.toNat ∧
      T.intoAccount payload.publicKey ∈ s.whitelistedOffchainAuthorities := by
  obtain ⟨hverify, -, hrecent, hlisted, -⟩ := validateUnsigned_eq_ok_iff.mp h
  rw [BitVec.le_def, BitVec.toNat_add] at hrecent
  exact ⟨hverify, hrecent.trans (Nat.mod_le _ _), hlisted⟩

/-! ## One step -/

/-- An executed extrinsic is a successful call. -/
theorem Extrinsic.dispatch_call {x : Extrinsic T}
    (h : x.execute s = some s') : x.call.dispatch x.origin s = .ok s' := by
  cases x with
  | root call => exact Exec.toOption_eq_some_iff.mp h
  | signed who call => exact Exec.toOption_eq_some_iff.mp h
  | unsigned call =>
      dsimp only [execute] at h
      split at h
      · exact Exec.toOption_eq_some_iff.mp h
      · cases h

/-- What an executed extrinsic can have done. -/
theorem Extrinsic.execute_cases {x : Extrinsic T} (h : x.execute s = some s') :
    (∃ payload signature v, x = .unsigned (.ocwSubmitBestPathsChanges payload signature) ∧
      validateUnsigned s (.ocwSubmitBestPathsChanges payload signature) = .ok v ∧
      s'.whitelistedOffchainAuthorities = s.whitelistedOffchainAuthorities) ∨
    (∃ offchainAuthority, x = .root (.addWhitelistedOffchainAuthority offchainAuthority) ∧
      s'.bestPaths = s.bestPaths ∧ s'.unsignedTxNonce = s.unsignedTxNonce ∧
      s'.whitelistedOffchainAuthorities =
        s.whitelistedOffchainAuthorities.insert offchainAuthority ⟨⟩) ∨
    (s'.bestPaths = s.bestPaths ∧ s'.unsignedTxNonce = s.unsignedTxNonce ∧
      s'.whitelistedOffchainAuthorities = s.whitelistedOffchainAuthorities) := by
  have hother : ∀ {origin : Origin T.AccountId} {call : Call T},
      call.dispatch origin s = .ok s' → origin ≠ .none →
      (∃ offchainAuthority, call = .addWhitelistedOffchainAuthority offchainAuthority ∧
        origin = .root ∧ s'.bestPaths = s.bestPaths ∧ s'.unsignedTxNonce = s.unsignedTxNonce ∧
        s'.whitelistedOffchainAuthorities =
          s.whitelistedOffchainAuthorities.insert offchainAuthority ⟨⟩) ∨
      (s'.bestPaths = s.bestPaths ∧ s'.unsignedTxNonce = s.unsignedTxNonce ∧
        s'.whitelistedOffchainAuthorities = s.whitelistedOffchainAuthorities) := by
    intro origin call hok hne
    rcases Call.dispatch_eq_ok hok with ⟨-, -, -, hnone, -⟩ | ⟨who, rfl, rfl, events, rfl⟩ |
      ⟨-, _, events, rfl⟩
    · exact (hne hnone).elim
    · exact .inl ⟨who, rfl, rfl, rfl, rfl, rfl⟩
    · exact .inr ⟨rfl, rfl, rfl⟩
  cases x with
  | root call =>
      have hok : call.dispatch .root s = .ok s' := Exec.toOption_eq_some_iff.mp h
      rcases hother hok (by simp) with ⟨who, rfl, -, hwrite⟩ | hsame
      · exact .inr (.inl ⟨who, rfl, hwrite⟩)
      · exact .inr (.inr hsame)
  | signed who call =>
      have hok : call.dispatch (.signed who) s = .ok s' := Exec.toOption_eq_some_iff.mp h
      rcases hother hok (by simp) with ⟨_, -, hroot, -⟩ | hsame
      · cases hroot
      · exact .inr (.inr hsame)
  | unsigned call =>
      dsimp only [execute] at h
      split at h
      · rename_i v hvalid
        rcases Call.dispatch_eq_ok (Exec.toOption_eq_some_iff.mp h) with
          ⟨payload, signature, rfl, -, -, events, rfl⟩ | ⟨_, rfl, -⟩ | ⟨-, _, events, rfl⟩
        · exact .inl ⟨payload, signature, v, rfl, hvalid, rfl⟩
        · cases hvalid
        · exact .inr (.inr ⟨rfl, rfl, rfl⟩)
      · cases h

/-- A step that changes the best paths or the nonce is an accepted, successful submission. -/
theorem BlockStep.authorized {step : BlockStep T}
    (h : (step.apply s).bestPaths ≠ s.bestPaths ∨
      (step.apply s).unsignedTxNonce ≠ s.unsignedTxNonce) :
    ∃ payload signature,
      step = .extrinsic (.unsigned (.ocwSubmitBestPathsChanges payload signature)) ∧
      ocwSubmitBestPathsChanges .none payload signature s = .ok (step.apply s) ∧
      T.verify payload.publicKey payload signature = true ∧
      T.intoAccount payload.publicKey ∈ s.whitelistedOffchainAuthorities ∧
      s.blockNumber.toNat ≤ payload.blockNumber.toNat + T.maxTxPoolStayTime.toNat := by
  cases step with
  | advance => exact (h.elim (· rfl) (· rfl)).elim
  | extrinsic x =>
      dsimp only [apply] at h ⊢
      cases hx : x.execute s with
      | none =>
          rw [hx] at h
          exact (h.elim (· rfl) (· rfl)).elim
      | some s' =>
          rw [hx] at h
          rcases Extrinsic.execute_cases hx with
            ⟨payload, signature, v, rfl, hvalid, -⟩ | ⟨_, -, hbest, hnonce, -⟩ | ⟨hbest, hnonce, -⟩
          · obtain ⟨hverify, hrecent, hlisted⟩ := validateUnsigned_eq_ok hvalid
            refine ⟨payload, signature, rfl, ?_, hverify, hlisted, hrecent⟩
            simp only [Extrinsic.execute, hvalid] at hx
            exact Exec.toOption_eq_some_iff.mp hx
          · exact (h.elim (· hbest) (· hnonce)).elim
          · exact (h.elim (· hbest) (· hnonce)).elim

/-- A whitelisted account was whitelisted before the step or is added by root in it. -/
theorem BlockStep.mem_whitelisted {step : BlockStep T} {who : T.AccountId}
    (h : who ∈ (step.apply s).whitelistedOffchainAuthorities) :
    who ∈ s.whitelistedOffchainAuthorities ∨
      step = .extrinsic (.root (.addWhitelistedOffchainAuthority who)) := by
  cases step with
  | advance => exact .inl h
  | extrinsic x =>
      dsimp only [apply] at h
      cases hx : x.execute s with
      | none =>
          rw [hx] at h
          exact .inl h
      | some s' =>
          rw [hx, Option.getD_some] at h
          rcases Extrinsic.execute_cases hx with
            ⟨-, -, -, -, -, hsame⟩ | ⟨added, rfl, -, -, hinsert⟩ | ⟨-, -, hsame⟩
          · exact .inl (hsame ▸ h)
          · rw [hinsert, Std.ExtTreeMap.mem_insert, compare_eq_iff_eq] at h
            rcases h with rfl | h
            · exact .inr rfl
            · exact .inl h
          · exact .inl (hsame ▸ h)

/-! ## Runs -/

theorem ChainState.run_append_singleton (steps : List (BlockStep T)) (step : BlockStep T) :
    s.run (steps ++ [step]) = step.apply (s.run steps) := by
  simp [run]

/-- Every whitelisted account was added by a root extrinsic of the run. -/
theorem ChainState.mem_whitelisted_run {steps : List (BlockStep T)} {who : T.AccountId}
    (h : who ∈ ((ChainState.genesis T).run steps).whitelistedOffchainAuthorities) :
    .extrinsic (.root (.addWhitelistedOffchainAuthority who)) ∈ steps := by
  induction steps using List.reverseRecOn with
  | nil => exact (Std.ExtTreeMap.not_mem_empty h).elim
  | append_singleton steps step ih =>
      rw [run_append_singleton] at h
      rcases BlockStep.mem_whitelisted h with h | rfl
      · exact List.mem_append_left _ (ih h)
      · exact List.mem_append_right _ (by simp)

/-- Along every run from genesis, the best paths and the nonce change only in submissions that
are signed, recent, and by an account whitelisted at that moment, and every whitelisted
account was added by root before. -/
theorem ChainState.run_authorized (steps : List (BlockStep T)) :
    (∀ step : BlockStep T,
      ((genesis T).run (steps ++ [step])).bestPaths ≠ ((genesis T).run steps).bestPaths ∨
        ((genesis T).run (steps ++ [step])).unsignedTxNonce ≠
          ((genesis T).run steps).unsignedTxNonce →
      ∃ payload signature,
        step = .extrinsic (.unsigned (.ocwSubmitBestPathsChanges payload signature)) ∧
        ocwSubmitBestPathsChanges .none payload signature ((genesis T).run steps) =
          .ok ((genesis T).run (steps ++ [step])) ∧
        T.verify payload.publicKey payload signature = true ∧
        T.intoAccount payload.publicKey ∈
          ((genesis T).run steps).whitelistedOffchainAuthorities ∧
        ((genesis T).run steps).blockNumber.toNat ≤
          payload.blockNumber.toNat + T.maxTxPoolStayTime.toNat) ∧
    ∀ who ∈ ((genesis T).run steps).whitelistedOffchainAuthorities,
      .extrinsic (.root (.addWhitelistedOffchainAuthority who)) ∈ steps := by
  refine ⟨fun step h => ?_, fun who hwho => mem_whitelisted_run hwho⟩
  rw [run_append_singleton] at h ⊢
  exact BlockStep.authorized h

/-! ## A run of the node's runtime -/

def samplePayload : (nodeRuntime Algo.Log2.rational).Payload where
  changes := [(btc, usdt, some ⟨50000, []⟩)]
  nonce := 0
  blockNumber := 1
  publicKey := 7

def sampleSteps : List (BlockStep (nodeRuntime Algo.Log2.rational)) :=
  [.extrinsic (.root (.addWhitelistedOffchainAuthority 7)), .advance]

def sampleSubmission : BlockStep (nodeRuntime Algo.Log2.rational) :=
  .extrinsic (.unsigned (.ocwSubmitBestPathsChanges samplePayload 7))

theorem ChainState.run_authorized_sampleSteps :
    ∃ payload signature, sampleSubmission =
        .extrinsic (.unsigned (.ocwSubmitBestPathsChanges payload signature)) ∧
      ocwSubmitBestPathsChanges .none payload signature ((genesis _).run sampleSteps) =
        .ok ((genesis _).run (sampleSteps ++ [sampleSubmission])) ∧
      (nodeRuntime Algo.Log2.rational).verify payload.publicKey payload signature = true ∧
      (nodeRuntime Algo.Log2.rational).intoAccount payload.publicKey ∈
        ((genesis _).run sampleSteps).whitelistedOffchainAuthorities ∧
      ((genesis _).run sampleSteps).blockNumber.toNat ≤
        payload.blockNumber.toNat + (nodeRuntime Algo.Log2.rational).maxTxPoolStayTime.toNat :=
  (ChainState.run_authorized sampleSteps).1 sampleSubmission (.inr (by decide +kernel))

end Aggregator
