import Aggregator.Verification.Pallet.Authorization

/-! # How long a payload is accepted

Authorities are never removed, so only time ends the validity of a payload. -/

namespace Aggregator

variable {T : Config} {s : ChainState T}

/-! ## What a step keeps -/

theorem BlockStep.mem_whitelisted_apply (step : BlockStep T) {who : T.AccountId}
    (h : who ∈ s.whitelistedOffchainAuthorities) :
    who ∈ (step.apply s).whitelistedOffchainAuthorities := by
  cases step with
  | advance => exact h
  | extrinsic x =>
      dsimp only [apply]
      cases hx : x.execute s with
      | none => exact h
      | some s' =>
          rw [Option.getD_some]
          rcases Extrinsic.execute_cases hx with
            ⟨-, -, -, -, -, hsame⟩ | ⟨added, -, -, -, hinsert⟩ | ⟨-, -, hsame⟩
          · exact hsame ▸ h
          · rw [hinsert, Std.ExtTreeMap.mem_insert]
            exact .inr h
          · exact hsame ▸ h

theorem BlockStep.blockNumber_apply_extrinsic (x : Extrinsic T) :
    ((BlockStep.extrinsic x).apply s).blockNumber = s.blockNumber := by
  dsimp only [apply]
  cases hx : x.execute s with
  | none => rfl
  | some s' =>
      rw [Option.getD_some]
      rcases Call.dispatch_eq_ok (Extrinsic.dispatch_call hx) with
        ⟨payload, signature, -, -, -, events, rfl⟩ | ⟨_, -, -, events, rfl⟩ | ⟨-, _, events, rfl⟩
      all_goals rfl

/-- The blocks that start in the run. -/
def advances : List (BlockStep T) → ℕ
  | [] => 0
  | .advance :: steps => advances steps + 1
  | .extrinsic _ :: steps => advances steps

theorem ChainState.mem_whitelisted_run_of_mem (steps : List (BlockStep T)) {who : T.AccountId}
    (h : who ∈ s.whitelistedOffchainAuthorities) :
    who ∈ (s.run steps).whitelistedOffchainAuthorities := by
  induction steps generalizing s with
  | nil => exact h
  | cons step steps ih => exact ih (step.mem_whitelisted_apply h)

theorem ChainState.blockNumber_run (steps : List (BlockStep T))
    (hfits : s.blockNumber.toNat + advances steps < 2 ^ T.blockNumberBits) :
    (s.run steps).blockNumber.toNat = s.blockNumber.toNat + advances steps := by
  induction steps generalizing s with
  | nil => rfl
  | cons step steps ih =>
      change ((step.apply s).run steps).blockNumber.toNat = _
      cases step with
      | extrinsic x =>
          have hsame := BlockStep.blockNumber_apply_extrinsic (s := s) x
          rw [ih (by rw [hsame]; exact hfits), hsame]
          rfl
      | advance =>
          have hnext : (BlockStep.advance.apply s).blockNumber.toNat = s.blockNumber.toNat + 1 := by
            rw [advances] at hfits
            have hlt : 1 < 2 ^ T.blockNumberBits := by omega
            have hone : (1 : T.BlockNumber).toNat = 1 := Nat.mod_eq_of_lt hlt
            change (s.blockNumber + 1).toNat = _
            rw [BitVec.toNat_add, hone]
            exact Nat.mod_eq_of_lt (by omega)
          rw [advances] at hfits ⊢
          rw [ih (by omega), hnext]
          omega

/-! ## The window -/

/-- An accepted payload is decided by the block number alone from then on. -/
theorem validateUnsigned_run_of_eq_ok {payload : T.Payload} {signature : T.Signature}
    {v : ValidTransaction T.BlockNumber}
    (h : validateUnsigned s (.ocwSubmitBestPathsChanges payload signature) = .ok v)
    (steps : List (BlockStep T)) :
    validateUnsigned (s.run steps) (.ocwSubmitBestPathsChanges payload signature) =
      if (s.run steps).blockNumber ≤ payload.blockNumber + T.maxTxPoolStayTime then
        .ok {
          priority := T.unsignedPriority
          provides := [("AggregatorWorker", txTag, (s.run steps).blockNumber)]
          longevity := 5
          propagate := true }
      else .error (.err .stale) := by
  obtain ⟨hverify, hfits, -, hlisted, -⟩ := validateUnsigned_eq_ok_iff.mp h
  split
  · rename_i hle
    exact validateUnsigned_eq_ok_iff.mpr
      ⟨hverify, hfits, hle, ChainState.mem_whitelisted_run_of_mem steps hlisted, rfl⟩
  · rename_i hlt
    have hadd : (T.add payload.blockNumber T.maxTxPoolStayTime : Exec InvalidTransaction _) =
        .ok (payload.blockNumber + T.maxTxPoolStayTime) := Config.add_eq_ok_iff.mpr ⟨hfits, rfl⟩
    simp only [validateUnsigned, Exec.ensure_pos hverify, Exec.ok_bind, hadd]
    rw [Exec.ensure_neg (not_not.mpr (BitVec.not_le.mp hlt)), Exec.error_bind]

/-- A payload that is accepted once is accepted, whatever is executed, until the last block
of its stay in the pool, a sum that can wrap, and stale from the next block on. -/
theorem ChainState.run_accepted {payload : T.Payload} {signature : T.Signature}
    (haccepted : (validateUnsigned s (.ocwSubmitBestPathsChanges payload signature)).isOk = true)
    (steps : List (BlockStep T))
    (hfits : s.blockNumber.toNat + advances steps < 2 ^ T.blockNumberBits) :
    validateUnsigned (s.run steps) (.ocwSubmitBestPathsChanges payload signature) =
      if s.blockNumber.toNat + advances steps ≤
          (payload.blockNumber + T.maxTxPoolStayTime).toNat then
        .ok {
          priority := T.unsignedPriority
          provides := [("AggregatorWorker", txTag, (s.run steps).blockNumber)]
          longevity := 5
          propagate := true }
      else .error (.err .stale) := by
  cases hv : validateUnsigned s (.ocwSubmitBestPathsChanges payload signature) with
  | error fault =>
      rw [hv] at haccepted
      cases haccepted
  | ok v =>
      rw [validateUnsigned_run_of_eq_ok hv]
      simp only [BitVec.le_def, blockNumber_run steps hfits]

/-- The payload of the sample steps stays for three blocks. -/
theorem ChainState.run_accepted_sampleSteps :
    validateUnsigned ((((genesis _).run sampleSteps)).run [sampleSubmission, .advance, .advance])
        (.ocwSubmitBestPathsChanges samplePayload 7) =
      if ((genesis (nodeRuntime Algo.Log2.rational)).run sampleSteps).blockNumber.toNat +
            advances [sampleSubmission, .advance, .advance] ≤
          (samplePayload.blockNumber +
            (nodeRuntime Algo.Log2.rational).maxTxPoolStayTime).toNat then
        .ok {
          priority := (nodeRuntime Algo.Log2.rational).unsignedPriority
          provides := [("AggregatorWorker", txTag,
            (((genesis _).run sampleSteps).run [sampleSubmission, .advance, .advance]).blockNumber)]
          longevity := 5
          propagate := true }
      else .error (.err .stale) :=
  ChainState.run_accepted (by decide +kernel) [sampleSubmission, .advance, .advance]
    (by decide +kernel)

end Aggregator
