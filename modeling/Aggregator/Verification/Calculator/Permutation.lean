import Aggregator.Model.OffchainWorker
import Aggregator.Verification.Calculator.Connected
import Aggregator.Verification.Calculator.Conversions
import Aggregator.Verification.LongestPaths.Permutation

/-! # The order of the fetched prices

A round fetches the prices in the order in which the storage iterates the monitored pairs,
which follows the hashes of its keys. The best prices are the same in every order. -/

namespace Aggregator

namespace FloydWarshallCalculator

open Algo EdgeWalk

variable {C P : Type} {w : ℕ} {quotes quotes' : List (PairAndPrice C P w)}

/-! ## What depends on the set of prices only -/

theorem CheapestWalk.of_perm (hperm : quotes.Perm quotes') {s t : C}
    {steps : List (PathStep C P (Amount w))} (h : CheapestWalk quotes s steps t) :
    CheapestWalk quotes' s steps t := by
  refine ⟨h.1, fun step hstep => ?_⟩
  obtain ⟨hmem, hmin⟩ := h.2 step hstep
  exact ⟨hperm.mem_iff.mp hmem, fun q hq => hmin q (hperm.mem_iff.mpr hq)⟩

theorem Convertible.of_perm (hperm : quotes.Perm quotes') (h : Convertible quotes) :
    Convertible quotes' :=
  fun q hq => h q (hperm.mem_iff.mpr hq)

theorem NoPriceArbitrage.of_perm (hperm : quotes.Perm quotes') (h : NoPriceArbitrage quotes) :
    NoPriceArbitrage quotes' :=
  fun c steps hw => h c steps (hw.of_perm hperm.symm)

theorem AmountsFit.of_perm (hperm : quotes.Perm quotes') (h : AmountsFit quotes) :
    AmountsFit quotes' where
  chain s steps t hw := h.chain s steps t (hw.of_perm hperm.symm)
  identity q hq c hc hno := h.identity q (hperm.mem_iff.mpr hq) c hc fun q' hq' =>
    hno q' (hperm.mem_iff.mp hq')

theorem Connected.of_perm (hperm : quotes.Perm quotes') {pair : Pair C}
    (h : Connected quotes pair) : Connected quotes' pair := by
  rcases h with ⟨hst, q, hq, hocc⟩ | ⟨q, hq, hpair⟩ | ⟨steps, hne, hw, hcost⟩
  · exact .inl ⟨hst, q, hperm.mem_iff.mp hq, hocc⟩
  · exact .inr (.inl ⟨q, hperm.mem_iff.mp hq, hpair⟩)
  · exact .inr (.inr ⟨steps, hne, hw.of_perm hperm, hcost⟩)

/-! ## The run -/

section Run

variable [LinearOrder C] [LinearOrder P] {α : Type} [AddCommGroup α] [LinearOrder α]
  [IsOrderedAddMonoid α] (L : Log2 ℚ α) {res res' : BestPathMap C P w}

/-- An entry of the one run has its match in the other, at no smaller total. -/
theorem exists_bestPrice_le_of_perm (hperm : quotes.Perm quotes')
    (hres : calcBestPaths L quotes = .ok res) (hres' : calcBestPaths L quotes' = .ok res')
    (pair : Pair C) (path : PricePath C P (Amount w)) (hpath : res[pair]? = some path) :
    ∃ path', res'[pair]? = some path' ∧ path.totalCost ≤ path'.totalCost := by
  have hbest := bestPricePaths_of_eq_ok L hres
  have hbest' := bestPricePaths_of_eq_ok L hres'
  obtain ⟨⟨q, hq, hocc⟩, hw, htotal⟩ := hbest.sound pair path hpath
  by_cases hne : path.steps = []
  · obtain ⟨source, target⟩ := pair
    obtain rfl : source = target := by simpa [hne] using hw.1
    obtain ⟨path₁, hpath₁, hid, hself⟩ :=
      calcBestPaths_diagonal L hres (mem_currencies.mpr ⟨q, hq, hocc⟩)
    cases hpath.symm.trans hpath₁
    have hno : ∀ q' ∈ quotes, q'.1.pair ≠ ⟨source, source⟩ := fun q' hq' hpair =>
      hself q' hq' hpair hne
    obtain ⟨path', hpath', hid', -⟩ := calcBestPaths_diagonal L hres'
      (mem_currencies.mpr ⟨q, hperm.mem_iff.mp hq, hocc⟩)
    refine ⟨path', hpath', BitVec.le_def.mpr ?_⟩
    rw [(hid hno).1, (hid' fun q' hq' => hno q' (hperm.mem_iff.mpr hq')).1]
  · by_cases hzero : stepProduct path.steps = 0
    · have hconnected :=
        (hbest.mem_iff_connected.mp (KeyedFold.mem_of_getElem? hpath)).of_perm hperm
      obtain ⟨path', hpath'⟩ :=
        KeyedFold.mem_iff_exists.mp (hbest'.mem_iff_connected.mpr hconnected)
      refine ⟨path', hpath', BitVec.le_def.mpr ?_⟩
      rw [htotal, hzero, zero_mul, asU128_zero]
      exact Nat.zero_le _
    · obtain ⟨path', hpath', hle⟩ := hbest'.greatest _ _ _ (hw.of_perm hperm) hne hzero
      exact ⟨path', hpath', BitVec.le_def.mpr (htotal.trans_le hle)⟩

/-- In every order of the fetched prices the calculator fails alike or finds the same totals. -/
theorem sameTotals_calcBestPaths (hperm : quotes.Perm quotes') :
    SameTotals PricePath.totalCost (calcBestPaths L quotes) (calcBestPaths L quotes') := by
  rcases calcBestPaths_cases L quotes with ⟨hconv, hrun⟩ | ⟨hconv, harb, hrun⟩ |
    ⟨hconv, harb, hfit, hrun⟩ | ⟨hconv, harb, hfit, res, hrun⟩
  · have hconv := mt (Convertible.of_perm hperm.symm) hconv
    rcases calcBestPaths_cases L quotes' with ⟨-, hrun'⟩ | ⟨h, -⟩ | ⟨h, -⟩ | ⟨h, -⟩
    · exact .inl ⟨_, hrun, hrun'⟩
    all_goals exact (hconv h).elim
  · have harb := mt (NoPriceArbitrage.of_perm hperm.symm) harb
    rcases calcBestPaths_cases L quotes' with ⟨h, -⟩ | ⟨-, -, hrun'⟩ | ⟨-, h, -⟩ | ⟨-, h, -⟩
    · exact (h (hconv.of_perm hperm)).elim
    · exact .inl ⟨_, hrun, hrun'⟩
    all_goals exact (harb h).elim
  · have hfit := mt (AmountsFit.of_perm hperm.symm) hfit
    rcases calcBestPaths_cases L quotes' with ⟨h, -⟩ | ⟨-, h, -⟩ | ⟨-, -, -, hrun'⟩ | ⟨-, -, h, -⟩
    · exact (h (hconv.of_perm hperm)).elim
    · exact (h (harb.of_perm hperm)).elim
    · exact .inl ⟨_, hrun, hrun'⟩
    · exact (hfit h).elim
  · rcases calcBestPaths_cases L quotes' with ⟨h, -⟩ | ⟨-, h, -⟩ | ⟨-, -, h, -⟩ |
      ⟨-, -, -, res', hrun'⟩
    · exact (h (hconv.of_perm hperm)).elim
    · exact (h (harb.of_perm hperm)).elim
    · exact (h (hfit.of_perm hperm)).elim
    · exact .inr ⟨res, res', hrun, hrun', KeyedFold.map_getElem?_eq_of_le
        (fun _ _ => BitVec.le_antisymm) (exists_bestPrice_le_of_perm L hperm hrun hrun')
        (exists_bestPrice_le_of_perm L hperm.symm hrun' hrun)⟩

end Run

end FloydWarshallCalculator

open FloydWarshallCalculator Algo

theorem fetchedPairs_perm {T : Config} (env : Environment T)
    (order : IterOrder (ProviderPair T.Currency Provider) Unit) (s : ChainState T) :
    (fetchedPairs env s).Perm (fetchedPairs { env with monitoredPairsOrder := order } s) :=
  ((env.monitoredPairsOrder.perm s.monitoredPairs).trans
    (order.perm s.monitoredPairs).symm).filterMap _

universe u

/-- The order of the edges makes no difference to failure, pairs and totals, and none at all
where edges of equal cost on one pair are the same edge. So the best prices of a round do not
depend on the order in which the monitored pairs are iterated. -/
theorem bestPrices_perm {K α : Type u} [Field K] [LinearOrder K] [IsStrictOrderedRing K]
    [AddCommGroup α] [LinearOrder α] [IsOrderedAddMonoid α] (L : Log2 K α)
    {edges edges' : List (Edge K)} (hperm : edges.Perm edges') (hpos : ∀ e ∈ edges, 0 < e.cost) :
    SameTotals Path.totalCost (longestPathsMult L edges) (longestPathsMult L edges') ∧
    ((∀ e ∈ edges, ∀ e' ∈ edges, e.pair = e'.pair → e.cost = e'.cost → e = e') →
      longestPathsMult L edges = longestPathsMult L edges') ∧
    ∀ {β : Type} [AddCommGroup β] [LinearOrder β] [IsOrderedAddMonoid β] (M : Log2 ℚ β)
      {T : Config} (env : Environment T)
      (order : IterOrder (ProviderPair T.Currency Provider) Unit) (s : ChainState T),
      SameTotals PricePath.totalCost (calcBestPaths M (fetchedPairs env s))
        (calcBestPaths M (fetchedPairs { env with monitoredPairsOrder := order } s)) :=
  ⟨sameTotals_longestPathsMult L hperm hpos, longestPathsMult_eq_of_perm L hperm,
    fun M _ env order s => sameTotals_calcBestPaths M (fetchedPairs_perm env order s)⟩

/-- Two providers quote one pair at the same cost. -/
def equalQuotes : List (Edge ℚ) := [⟨⟨0, 1⟩, 0, 2⟩, ⟨⟨0, 1⟩, 1, 2⟩, ⟨⟨1, 2⟩, 0, 1 / 2⟩]

theorem bestPrices_perm_equalQuotes :
    SameTotals Path.totalCost (longestPathsMult Log2.rational equalQuotes)
      (longestPathsMult Log2.rational equalQuotes.reverse) :=
  (bestPrices_perm Log2.rational (List.reverse_perm equalQuotes).symm
    (by decide +kernel)).1

end Aggregator
