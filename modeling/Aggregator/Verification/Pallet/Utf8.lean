import Aggregator.Verification.Pallet.Authorization
import Aggregator.Verification.Pallet.BestPricesEvent

/-! # Currencies that are not UTF-8

A change that has an effect is logged, and the log unwraps the UTF-8 of its currencies. What
is stored was logged before, so a payload panics exactly when it adds such a currency. -/

namespace Aggregator

open KeyedFold

variable {T : Config}

/-- Both currencies are valid UTF-8. -/
def Pair.Utf8 (pair : Pair T.Currency) : Prop :=
  (Conversions.toStr pair.source).isSome = true ∧ (Conversions.toStr pair.target).isSome = true

instance Pair.decidableUtf8 (pair : Pair T.Currency) : Decidable pair.Utf8 :=
  inferInstanceAs (Decidable (_ ∧ _))

/-- The pairs that the changes add are valid UTF-8. -/
def Utf8Additions (changes : List T.Change) : Prop :=
  ∀ change ∈ changes, change.path.isSome = true → change.pair.Utf8

/-- The stored pairs are valid UTF-8. -/
def Utf8Paths (bestPaths : T.BestPaths) : Prop :=
  ∀ pair : Pair T.Currency, pair ∈ bestPaths → pair.Utf8

/-! ## One change -/

theorem Config.log_eq_panic {ε : Type} {on : Bool} {currencies : List T.Currency} (hon : on = true)
    (h : ¬ ∀ c ∈ currencies, (Conversions.toStr c).isSome = true) :
    (T.log on currencies : Exec ε _) = .error (.panic .unwrap) := by
  rw [log, if_pos hon]
  refine Exec.forM_eq_error (fun c _ => ?_) ?_
  · cases Conversions.toStr c with
    | none => exact .inr rfl
    | some s => exact .inl rfl
  · simp only [not_forall] at h
    obtain ⟨c, hc, hnone⟩ := h
    refine ⟨c, hc, ?_⟩
    rw [Bool.not_eq_true, Option.isSome_eq_false_iff, Option.isNone_iff_eq_none] at hnone
    rw [hnone]
    rfl

section Change

variable {bestPaths : T.BestPaths} {change : T.Change}

/-- What has no effect is not logged. -/
theorem applyChange_of_not_effective
    (acc : T.BestPaths × List (BestPricesEntry T))
    (h : ¬ Effective BestPathChange.pair BestPathChange.path acc.1 change) :
    applyChange acc change = .ok (recordChange acc change) := by
  have hsame : recordChange acc change = acc := by
    rw [recordChange, changeEntries_eq, if_neg h, List.append_nil]
    exact congrArg (·, acc.2) (alter_of_not_effective h)
  rw [hsame]
  obtain ⟨source, target, newPath⟩ := change
  cases newPath with
  | some path => exact (h (.inl rfl)).elim
  | none => exact if_neg fun hmem => h (.inr hmem)

/-- What has an effect is logged. -/
theorem applyChange_eq_panic (hlog : T.build.logInfo = true)
    (acc : T.BestPaths × List (BestPricesEntry T))
    (heff : Effective BestPathChange.pair BestPathChange.path acc.1 change)
    (hutf8 : ¬ change.pair.Utf8) : applyChange acc change = .error (.panic .unwrap) := by
  obtain ⟨source, target, newPath⟩ := change
  have hpanic : (T.log T.build.logInfo [source, target] : Exec DispatchError _) =
      .error (.panic .unwrap) :=
    Config.log_eq_panic hlog fun h => hutf8 ⟨h source (by simp), h target (by simp)⟩
  unfold applyChange
  cases newPath with
  | some path =>
      dsimp only
      rw [hpanic]
      rfl
  | none =>
      have hmem : (⟨source, target⟩ : Pair T.Currency) ∈ acc.1 := heff.mem rfl
      dsimp only
      rw [if_pos hmem, hpanic]
      rfl

end Change

/-! ## All changes -/

/-- The changes panic exactly when one of those that have an effect is not valid UTF-8. -/
theorem foldlM_applyChange_cases (hlog : T.build.logInfo = true) (changes : List T.Change)
    (acc : T.BestPaths × List (BestPricesEntry T)) :
    ((∀ change ∈ listedChanges changes acc.1, change.pair.Utf8) ∧
      changes.foldlM applyChange acc =
        (.ok (changes.foldl recordChange acc) : Exec DispatchError _)) ∨
    (¬ (∀ change ∈ listedChanges changes acc.1, change.pair.Utf8) ∧
      changes.foldlM applyChange acc = (.error (.panic .unwrap) : Exec DispatchError _)) := by
  induction changes generalizing acc with
  | nil => exact .inl ⟨by simp [listedChanges, effects], rfl⟩
  | cons change changes ih =>
      have hrec : (recordChange acc change).1 =
          acc.1.alter change.pair fun _ => change.path := rfl
      have ih := ih (recordChange acc change)
      rw [hrec] at ih
      rw [List.foldlM_cons, List.foldl_cons]
      by_cases heff : Effective BestPathChange.pair BestPathChange.path acc.1 change
      swap
      · rw [applyChange_of_not_effective acc heff, Exec.ok_bind, listedChanges, effects,
          if_neg heff]
        exact ih
      rw [listedChanges, effects_cons_of_effective heff, List.forall_mem_cons]
      by_cases hutf8 : change.pair.Utf8
      · have hok : applyChange acc change = .ok (recordChange acc change) :=
          applyChange_eq_recordChange hutf8.1 hutf8.2 acc
        rw [hok, Exec.ok_bind]
        simpa only [hutf8, true_and] using ih
      · rw [applyChange_eq_panic hlog acc heff hutf8]
        exact .inr ⟨fun h => hutf8 h.1, rfl⟩

theorem Utf8Paths.alter {bestPaths : T.BestPaths} (h : Utf8Paths bestPaths)
    {change : T.Change} (hchange : change.path.isSome = true → change.pair.Utf8) :
    Utf8Paths (bestPaths.alter change.pair fun _ => change.path) := by
  intro pair hpair
  rw [mem_alter_iff] at hpair
  split at hpair
  · rename_i heq
    exact heq ▸ hchange hpair
  · exact h pair hpair

/-- Where the stored pairs are valid, only additions are to be checked. -/
theorem utf8_listedChanges_iff {changes : List T.Change} {bestPaths : T.BestPaths}
    (h : Utf8Paths bestPaths) :
    (∀ change ∈ listedChanges changes bestPaths, change.pair.Utf8) ↔ Utf8Additions changes := by
  refine ⟨fun hall change hchange hsome => hall change (mem_effects_of_isSome hchange hsome), ?_⟩
  intro hadd
  induction changes generalizing bestPaths with
  | nil => simp [listedChanges, effects]
  | cons change changes ih =>
      obtain ⟨hchange, hchanges⟩ := List.forall_mem_cons.mp hadd
      have hrest := ih (h.alter hchange) hchanges
      rw [listedChanges, effects]
      split
      · rename_i heff
        refine List.forall_mem_cons.mpr ⟨?_, hrest⟩
        exact heff.elim hchange (h change.pair)
      · exact hrest

theorem Utf8Paths.applyChanges {changes : List T.Change} {bestPaths : T.BestPaths}
    (h : Utf8Paths bestPaths) (hadd : Utf8Additions changes) :
    Utf8Paths (applyChanges changes bestPaths) := by
  induction changes generalizing bestPaths with
  | nil => exact h
  | cons change changes ih =>
      obtain ⟨hchange, hchanges⟩ := List.forall_mem_cons.mp hadd
      exact ih (h.alter hchange) hchanges

/-! ## The call -/

/-- With the expected nonce, a call panics on its changes or goes on to the nonce. -/
theorem ocwSubmitBestPathsChanges_cases (hlog : T.build.logInfo = true) {payload : T.Payload}
    {s : ChainState T} (hpaths : Utf8Paths s.bestPaths) (hnonce : s.unsignedTxNonce = payload.nonce)
    (signature : T.Signature) :
    (Utf8Additions payload.changes ∧ ∃ f : BitVec 64 → ChainState T,
      ocwSubmitBestPathsChanges .none payload signature s =
        T.add s.unsignedTxNonce 1 >>= fun nonce => .ok (f nonce)) ∨
    (¬ Utf8Additions payload.changes ∧
      ocwSubmitBestPathsChanges .none payload signature s = .error (.panic .unwrap)) := by
  have hadd : (∀ change ∈ listedChanges payload.changes s.bestPaths, change.pair.Utf8) ↔
      Utf8Additions payload.changes := utf8_listedChanges_iff hpaths
  unfold ocwSubmitBestPathsChanges
  simp only [ensureNone, Exec.ensure_pos hnonce, Exec.ok_bind]
  rcases foldlM_applyChange_cases hlog payload.changes (s.bestPaths, []) with
    ⟨hutf8, hfold⟩ | ⟨hutf8, hfold⟩
  · rw [hfold]
    exact .inl ⟨hadd.mp hutf8, _, rfl⟩
  · rw [hfold]
    exact .inr ⟨mt hadd.mpr hutf8, rfl⟩

/-- Logged pairs are valid, so in every run the stored pairs are. -/
theorem ChainState.utf8Paths_run (hlog : T.build.logInfo = true) (steps : List (BlockStep T)) :
    Utf8Paths ((genesis T).run steps).bestPaths := by
  induction steps using List.reverseRecOn with
  | nil => exact fun pair hpair => (Std.ExtTreeMap.not_mem_empty hpair).elim
  | append_singleton steps step ih =>
      rw [run_append_singleton]
      by_cases hsame : (step.apply ((genesis T).run steps)).bestPaths =
          ((genesis T).run steps).bestPaths
      · rwa [hsame]
      obtain ⟨payload, signature, -, hok, -⟩ := BlockStep.authorized (.inl hsame)
      obtain ⟨-, hnonce, events, hnext⟩ := ocwSubmitBestPathsChanges_eq_ok hok
      rcases ocwSubmitBestPathsChanges_cases hlog ih hnonce signature with ⟨hadd, -⟩ | ⟨-, hpanic⟩
      · rw [hnext]
        exact ih.applyChanges hadd
      · cases hok.symm.trans hpanic

/-- In every reachable state, a payload with the expected nonce is applied without a panic
exactly when every pair that it adds is valid UTF-8. What remains is the overflow of the
last nonce. -/
theorem ChainState.ocwSubmitBestPathsChanges_noPanic_iff (hlog : T.build.logInfo = true)
    (steps : List (BlockStep T)) {payload : T.Payload}
    (hnonce : ((genesis T).run steps).unsignedTxNonce = payload.nonce) (signature : T.Signature) :
    (Exec.Avoids {p | p ≠ .overflow}
        (ocwSubmitBestPathsChanges .none payload signature ((genesis T).run steps)) ↔
      Utf8Additions payload.changes) ∧
    ((T.build.overflowChecks = true →
        ((genesis T).run steps).unsignedTxNonce.toNat < 2 ^ 64 - 1) →
      (Exec.NoPanic
          (ocwSubmitBestPathsChanges .none payload signature ((genesis T).run steps)) ↔
        Utf8Additions payload.changes)) := by
  rcases ocwSubmitBestPathsChanges_cases hlog (utf8Paths_run hlog steps) hnonce signature with
    ⟨hadd, f, hcall⟩ | ⟨hadd, hcall⟩
  · rw [hcall]
    refine ⟨iff_of_true ?_ hadd, fun hmax => iff_of_true ?_ hadd⟩
    · exact Exec.Avoids.bind (Config.add_avoids (by simp) _ _) fun nonce _ => Exec.Avoids.ok _
    · have hfits : T.build.overflowChecks = true →
          ((genesis T).run steps).unsignedTxNonce.toNat + 1 < 2 ^ 64 := by
        intro hchecks
        have hlt := hmax hchecks
        omega
      rw [Config.add_of_checked hfits]
      exact Exec.Avoids.ok _
  · rw [hcall]
    refine ⟨iff_of_false (fun h => h .unwrap (by decide) rfl) hadd, fun _ => ?_⟩
    exact iff_of_false (fun h => h .unwrap (Set.mem_univ _) rfl) hadd

theorem ChainState.ocwSubmitBestPathsChanges_noPanic_iff_sampleSteps :
    Exec.NoPanic (ocwSubmitBestPathsChanges .none samplePayload 7 ((genesis _).run sampleSteps)) ↔
      Utf8Additions samplePayload.changes :=
  (ocwSubmitBestPathsChanges_noPanic_iff rfl sampleSteps (by decide +kernel) 7).2 (by simp)

/-- A payload that removes a pair that is not stored and adds one, neither of them UTF-8. -/
def nonUtf8Payload : (nodeRuntime Algo.Log2.rational).Payload where
  changes := [([254], [255], none), (btc, [255], some ⟨50000, []⟩)]
  nonce := 0
  blockNumber := 1
  publicKey := 7

/-- It is accepted, it has the expected nonce, and its addition panics. -/
theorem ChainState.ocwSubmitBestPathsChanges_nonUtf8Payload :
    (validateUnsigned ((genesis _).run sampleSteps)
        (.ocwSubmitBestPathsChanges nonUtf8Payload 7)).isOk = true ∧
      ((genesis (nodeRuntime Algo.Log2.rational)).run sampleSteps).unsignedTxNonce =
        nonUtf8Payload.nonce ∧
      ocwSubmitBestPathsChanges .none nonUtf8Payload 7 ((genesis _).run sampleSteps) =
        .error (.panic .unwrap) :=
  ⟨by decide +kernel, by decide +kernel, Exec.panicked_eq_some_iff.mp (by decide +kernel)⟩

end Aggregator
