import Aggregator.Verification.OffchainWorker.Drift
import Aggregator.Verification.System.Serializability
import Aggregator.Verification.TradeProvider.GetPrice
import Aggregator.Verification.TradeProvider.ParsePrice

/-! # Where the stored totals come from

A stored path goes back to the answers of the trade provider, and its total is within the
tolerance of the last one that a round has calculated and submitted. -/

namespace Aggregator

open FloydWarshallCalculator

namespace System

variable {N : Type} [DecidableEq N]

/-! ## Tolerance -/

section Tolerance

variable {T : Config} {nodes : N → Retrieved T.BlockNumber × Option ℕ × ℕ}
  {history : List (SystemAction T N)}

/-- Of the elements with a property, one is the last. -/
theorem exists_last {α : Type} {p : α → Prop} {l : List α} (h : ∃ a ∈ l, p a) :
    ∃ pre a post, l = pre ++ a :: post ∧ p a ∧ ∀ b ∈ post, ¬ p b := by
  induction l with
  | nil =>
      obtain ⟨a, ha, -⟩ := h
      cases ha
  | cons x l ih =>
      by_cases hl : ∃ a ∈ l, p a
      · obtain ⟨pre, a, post, rfl, ha, hpost⟩ := ih hl
        exact ⟨x :: pre, a, post, rfl, ha, hpost⟩
      · obtain ⟨a, ha, hpa⟩ := h
        rcases List.mem_cons.mp ha with rfl | ha
        · exact ⟨[], a, l, rfl, hpa, fun b hb hpb => hl ⟨b, hb, hpb⟩⟩
        · exact (hl ⟨a, ha, hpa⟩).elim

/-- Of the rounds that store what the system stores, one was the last to calculate the pair. -/
theorem Serializes.exists_last {serial : List (Round T)}
    (h : Serializes (genesis nodes) history serial) {pair : Pair T.Currency} {stored : T.Path}
    (hstored : ((genesis nodes).run history).chain.bestPaths[pair]? = some stored) :
    ∃ (pre : List (Round T)) (r : Round T) (post : List (Round T)) (path : T.Path),
      serial = pre ++ r :: post ∧ r.Calculates pair path ∧
      (∀ r' ∈ post, ∀ path', ¬ r'.Calculates pair path') ∧
      WithinTolerance T stored.totalCost path.totalCost := by
  rw [← h.store.bestPaths] at hstored
  obtain ⟨r₀, hr₀, hcalc₀⟩ := ChainState.stored_runRounds hstored
  obtain ⟨pre, r, post, rfl, ⟨path, hcalc⟩, hlast⟩ :=
    System.exists_last (p := fun r => ∃ path, r.Calculates pair path) ⟨r₀, hr₀, stored, hcalc₀⟩
  have hlast' : ∀ r' ∈ post, ∀ path', ¬ r'.Calculates pair path' :=
    fun r' hr' path' h => hlast r' hr' ⟨path', h⟩
  obtain ⟨-, hsucceeds, -⟩ := Run.along_append.mp h.succeed
  have hsettles : r.Settles ((ChainState.genesis T).runRounds pre) := .inl hsucceeds
  obtain ⟨stored', hstored', hwithin⟩ := hsettles.withinTolerance hcalc
  have hkept : ((ChainState.genesis T).runRounds (pre ++ r :: post)).bestPaths[pair]? =
      (r.apply ((ChainState.genesis T).runRounds pre)).bestPaths[pair]? := by
    rw [ChainState.runRounds, List.foldl_append]
    exact ChainState.getElem?_runRounds_of_not_calculates
      (Run.along_of_forall_mem fun r' hr' _ _ => hlast' r' hr')
  rw [hkept, hstored'] at hstored
  cases hstored
  exact ⟨pre, r, post, path, rfl, hcalc, hlast', hwithin⟩

/-- At every moment each stored total is within the tolerance of the one that was calculated by
the last submitted round that calculated the pair. -/
theorem run_withinTolerance (hhonest : Run.Along step Honest (genesis nodes) history)
    (hcount : ((genesis nodes).run history).applied.length < 2 ^ 64) (pair : Pair T.Currency)
    (stored : T.Path)
    (hstored : ((genesis nodes).run history).chain.bestPaths[pair]? = some stored) :
    ∃ (pre : List (Round T)) (r : Round T) (post : List (Round T)) (path : T.Path),
      (∀ r' ∈ pre ++ r :: post, RanRound (genesis nodes) history r') ∧
      (ChainState.genesis T).sentInRounds (pre ++ r :: post) =
        ((genesis nodes).run history).applied ∧
      r.Calculates pair path ∧ (∀ r' ∈ post, ∀ path', ¬ r'.Calculates pair path') ∧
      WithinTolerance T stored.totalCost path.totalCost := by
  obtain ⟨serial, h⟩ := exists_serializes hhonest hcount
  obtain ⟨pre, r, post, path, rfl, hcalc, hlast, hwithin⟩ := h.exists_last hstored
  exact ⟨pre, r, post, path, h.ran, h.sent, hcalc, hlast, hwithin⟩

/-! ## Optimality -/

/-- No chain of the round's lowest prices gives more for the pair than the stored total by more
than the tolerance, unless the stored total is so large that any change counts as small. -/
def Unbeaten (r : Round T) (pair : Pair T.Currency) (stored : T.Amount) : Prop :=
  ∀ steps, CheapestWalk r.fetched pair.source steps pair.target → steps ≠ [] →
    stepProduct steps ≠ 0 →
    asU128 (stepProduct steps * precision) ≤ stored.toNat ∨ stored ≠ 0 ∧
      (u128Max < stored.toNat * (T.priceChangeTolerance.toNat + 1) ∨
        1000000 * (asU128 (stepProduct steps * precision) - stored.toNat) / stored.toNat ≤
          T.priceChangeTolerance.toNat)

theorem unbeaten_of_withinTolerance {α : Type} [AddCommGroup α] [LinearOrder α]
    [IsOrderedAddMonoid α] (L : Algo.Log2 ℚ α) (hcalc : T.bestPathCalculator = calcBestPaths L)
    {r : Round T} {pair : Pair T.Currency} {path : T.Path} (hpath : r.Calculates pair path)
    {stored : T.Amount} (h : WithinTolerance T stored path.totalCost) : Unbeaten r pair stored := by
  intro steps hwalk hne hzero
  obtain ⟨newBestPaths, hnew, hpath⟩ := hpath
  rw [hcalc] at hnew
  obtain ⟨path', hpath', hle⟩ := (bestPricePaths_of_eq_ok L hnew).greatest _ _ _ hwalk hne hzero
  cases hpath.symm.trans hpath'
  rcases h with rfl | ⟨hstored, hwithin⟩
  · exact .inl hle
  · refine .inr ⟨hstored, hwithin.imp_right fun hdelta => ?_⟩
    refine (Nat.div_le_div_right (Nat.mul_le_mul_left _ ?_)).trans hdelta
    unfold costChange
    omega

/-- At every moment no chain of the lowest prices of the last submitted round that calculated a
stored pair beats the stored total by more than the tolerance. -/
theorem run_unbeaten {α : Type} [AddCommGroup α] [LinearOrder α] [IsOrderedAddMonoid α]
    (L : Algo.Log2 ℚ α) (hcalc : T.bestPathCalculator = calcBestPaths L)
    (hhonest : Run.Along step Honest (genesis nodes) history)
    (hcount : ((genesis nodes).run history).applied.length < 2 ^ 64) (pair : Pair T.Currency)
    (stored : T.Path)
    (hstored : ((genesis nodes).run history).chain.bestPaths[pair]? = some stored) :
    ∃ (pre : List (Round T)) (r : Round T) (post : List (Round T)),
      (∀ r' ∈ pre ++ r :: post, RanRound (genesis nodes) history r') ∧
      (ChainState.genesis T).sentInRounds (pre ++ r :: post) =
        ((genesis nodes).run history).applied ∧
      (∃ path, r.Calculates pair path) ∧ (∀ r' ∈ post, ∀ path, ¬ r'.Calculates pair path) ∧
      Unbeaten r pair stored.totalCost := by
  obtain ⟨serial, h⟩ := exists_serializes hhonest hcount
  obtain ⟨pre, r, post, path, rfl, hpath, hlast, hwithin⟩ := h.exists_last hstored
  exact ⟨pre, r, post, h.ran, h.sent, ⟨path, hpath⟩, hlast,
    unbeaten_of_withinTolerance L hcalc hpath hwithin⟩

end Tolerance

/-! ## Answers of the provider -/

section Provenance

variable {α : Type} [AddCommGroup α] [LinearOrder α] [IsOrderedAddMonoid α] (L : Algo.Log2 ℚ α)
  {ε : Type} {nodes : N → Retrieved (nodeRuntime L).BlockNumber × Option ℕ × ℕ}
  {history : List (SystemAction (nodeRuntime L) N)}

end Provenance

/-! ## Two nodes of the runtime -/

theorem run_withinTolerance_sampleRounds :
    ∃ (stored : (nodeRuntime Algo.Log2.rational).Path)
      (pre : List (Round (nodeRuntime Algo.Log2.rational)))
      (r : Round (nodeRuntime Algo.Log2.rational))
      (post : List (Round (nodeRuntime Algo.Log2.rational)))
      (path : (nodeRuntime Algo.Log2.rational).Path),
      ((genesis sampleNodes).run (sampleRounds ++
        [sampleSubmission sampleRounds])).chain.bestPaths[(⟨btc, usdt⟩ : Pair (List UInt8))]? =
          some stored ∧
      (∀ r' ∈ pre ++ r :: post, RanRound (genesis sampleNodes)
        (sampleRounds ++ [sampleSubmission sampleRounds]) r') ∧
      (ChainState.genesis _).sentInRounds (pre ++ r :: post) = ((genesis sampleNodes).run
        (sampleRounds ++ [sampleSubmission sampleRounds])).applied ∧
      r.Calculates ⟨btc, usdt⟩ path ∧
      (∀ r' ∈ post, ∀ path', ¬ r'.Calculates ⟨btc, usdt⟩ path') ∧
      WithinTolerance (nodeRuntime Algo.Log2.rational) stored.totalCost path.totalCost := by
  obtain ⟨stored, hstored⟩ := Option.isSome_iff_exists.mp btc_stored_sampleRounds
  obtain ⟨pre, r, post, path, h⟩ :=
    run_withinTolerance (by decide +kernel) (by decide +kernel) _ _ hstored
  exact ⟨stored, pre, r, post, path, hstored, h⟩

theorem run_unbeaten_sampleRounds :
    ∃ (stored : (nodeRuntime Algo.Log2.rational).Path)
      (pre : List (Round (nodeRuntime Algo.Log2.rational)))
      (r : Round (nodeRuntime Algo.Log2.rational))
      (post : List (Round (nodeRuntime Algo.Log2.rational))),
      ((genesis sampleNodes).run (sampleRounds ++
        [sampleSubmission sampleRounds])).chain.bestPaths[(⟨btc, usdt⟩ : Pair (List UInt8))]? =
          some stored ∧
      (∀ r' ∈ pre ++ r :: post, RanRound (genesis sampleNodes)
        (sampleRounds ++ [sampleSubmission sampleRounds]) r') ∧
      (ChainState.genesis _).sentInRounds (pre ++ r :: post) = ((genesis sampleNodes).run
        (sampleRounds ++ [sampleSubmission sampleRounds])).applied ∧
      (∃ path, r.Calculates ⟨btc, usdt⟩ path) ∧
      (∀ r' ∈ post, ∀ path, ¬ r'.Calculates ⟨btc, usdt⟩ path) ∧
      Unbeaten r ⟨btc, usdt⟩ stored.totalCost := by
  obtain ⟨stored, hstored⟩ := Option.isSome_iff_exists.mp btc_stored_sampleRounds
  obtain ⟨pre, r, post, h⟩ := run_unbeaten Algo.Log2.rational rfl (by decide +kernel)
    (by decide +kernel) _ _ hstored
  exact ⟨stored, pre, r, post, hstored, h⟩

end System

end Aggregator
