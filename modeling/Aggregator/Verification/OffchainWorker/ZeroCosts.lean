import Aggregator.Library.Run
import Aggregator.Verification.OffchainWorker.Staleness

/-! # Stored costs of zero

A round that meets a stored cost of zero divides by it. Such a cost is stored when the
lowest prices between two currencies multiply to less than one unit of precision. -/

namespace Aggregator

namespace FloydWarshallCalculator

variable {C P : Type} {w : ℕ}

/-! ## The cost of a returned path -/

/-- A chain of lowest prices is worth at least one unit of precision. -/
def Representable (quotes : List (PairAndPrice C P w)) (pair : Pair C) : Prop :=
  ∃ steps, steps ≠ [] ∧ CheapestWalk quotes pair.source steps pair.target ∧
    1 ≤ stepProduct steps * precision

theorem asU128_pos {x : ℚ} (h : 1 ≤ x) : 0 < asU128 x :=
  lt_min (Nat.floor_pos.mpr h) (by decide)

theorem BestPricePaths.totalCost_ne_zero [LinearOrder C] {quotes : List (PairAndPrice C P w)}
    {res : BestPathMap C P w} (h : BestPricePaths quotes res) {pair : Pair C}
    {path : PricePath C P (Amount w)} (hpath : res[pair]? = some path)
    (hrep : (pair.source = pair.target → ∃ q ∈ quotes, q.1.pair = pair) →
      Representable quotes pair) : path.totalCost ≠ 0 := by
  have hpos : 0 < path.totalCost.toNat := by
    by_cases hquoted : pair.source = pair.target → ∃ q ∈ quotes, q.1.pair = pair
    · obtain ⟨steps, hne, hw, hone⟩ := hrep hquoted
      obtain ⟨path', hpath', hle⟩ := h.greatest _ steps _ hw hne fun hzero => by
        rw [hzero, zero_mul] at hone
        exact absurd hone (by norm_num)
      rw [hpath] at hpath'
      cases hpath'
      exact (asU128_pos hone).trans_le hle
    · obtain ⟨source, target⟩ := pair
      rw [Classical.not_imp] at hquoted
      obtain ⟨rfl, hnone⟩ : source = target ∧ _ := hquoted
      refine lt_of_lt_of_le (asU128_pos (by norm_num [precision])) (h.identity source path ?_ hpath)
      exact fun q hq hpair => hnone ⟨q, hq, hpair⟩
  rintro hzero
  rw [hzero] at hpos
  exact absurd hpos (lt_irrefl _)

/-! ## Lowest prices -/

theorem one_le_stepProduct {steps : List (PathStep C P (Amount w))}
    (h : ∀ step ∈ steps, 1 ≤ price step) : 1 ≤ stepProduct steps :=
  List.prod_induction (1 ≤ ·) (fun _ _ => one_le_mul_of_one_le_of_one_le) le_rfl (by simpa using h)

/-- With prices of at least one, every quoted pair and every chain is representable. -/
theorem representable_of_one_le {quotes : List (PairAndPrice C P w)}
    (hone : ∀ q ∈ quotes, 1000000000000 ≤ q.2.toNat) {pair : Pair C}
    (hpair : Connected quotes pair)
    (hquoted : pair.source = pair.target → ∃ q ∈ quotes, q.1.pair = pair) :
    Representable quotes pair := by
  have hworth : ∀ {steps : List (PathStep C P (Amount w))} {s t : C},
      CheapestWalk quotes s steps t → 1 ≤ stepProduct steps * precision := by
    intro steps s t hw
    have hprod : 1 ≤ stepProduct steps := one_le_stepProduct fun step hstep => by
      have hle : 1000000000000 ≤ step.cost.toNat := hone _ (hw.2 step hstep).1
      rw [price, le_div_iff₀ precision_pos, one_mul, precision]
      exact_mod_cast hle
    exact one_le_mul_of_one_le_of_one_le hprod (by norm_num [precision])
  have hquote : (∃ q ∈ quotes, q.1.pair = pair) → Representable quotes pair := by
    rintro ⟨q, hq, rfl⟩
    obtain ⟨step, hstep, heq⟩ := exists_cheapestStep hq
    have hw : CheapestWalk quotes q.1.pair.source [step] q.1.pair.target :=
      ⟨⟨congrArg Pair.source heq, congrArg Pair.target heq⟩, by simpa using hstep⟩
    exact ⟨[step], List.cons_ne_nil _ _, hw, hworth hw⟩
  rcases hpair with ⟨hst, -⟩ | hq | ⟨steps, hne, hw, -⟩
  · exact hquote (hquoted hst)
  · exact hquote hq
  · exact ⟨steps, hne, hw, hworth hw⟩

end FloydWarshallCalculator

open FloydWarshallCalculator

variable {T : Config}

/-! ## Rounds -/

/-- No stored cost is zero. -/
def PositiveCosts (bestPaths : T.BestPaths) : Prop :=
  ∀ (pair : Pair T.Currency) (path : T.Path), bestPaths[pair]? = some path → path.totalCost ≠ 0

/-- Without arbitrage in the lowest prices, each connected pair, when it is quoted or between
distinct currencies, has a representable price, or a stored one from which zero is within
tolerance. -/
def KeepsPositive (bestPaths : T.BestPaths)
    (quotes : List (PairAndPrice T.Currency Provider T.amountBits)) : Prop :=
  (∀ c steps, CheapestWalk quotes c steps c → stepProduct steps ≤ 1) →
    ∀ pair : Pair T.Currency, Connected quotes pair →
      (pair.source = pair.target → ∃ q ∈ quotes, q.1.pair = pair) →
        Representable quotes pair ∨ ∃ old : T.Path, bestPaths[pair]? = some old ∧
          (breachesTolerance old.totalCost.toNat 0 T.priceChangeTolerance.toNat :
            Exec String Bool) = .ok false

theorem Round.positiveCosts_apply {α : Type} [AddCommGroup α] [LinearOrder α]
    [IsOrderedAddMonoid α] (L : Algo.Log2 ℚ α)
    (hcalc : T.bestPathCalculator = FloydWarshallCalculator.calcBestPaths L) {s : ChainState T}
    {r : Round T} (hpos : PositiveCosts s.bestPaths)
    (hkeeps : KeepsPositive s.bestPaths (fetchedPairs r.env (r.read s))) :
    PositiveCosts (r.apply s).bestPaths := by
  unfold Round.apply
  split
  swap
  · exact hpos
  rename_i newBestPaths s' hround
  obtain ⟨hnew, changes, hchanges, hs'⟩ := roundAndApply_eq_some hround
  rw [hcalc] at hnew
  have hbest := bestPricePaths_of_eq_ok L hnew
  intro pair path hpath
  rw [hs'] at hpath
  rcases getElem?_applyChanges_selectChanges hchanges pair with
    ⟨path', hnew', happlied, hbreach⟩ | ⟨hkept, -⟩
  · rw [happlied] at hpath
    cases hpath
    intro hzero
    -- a zero that is stored breaches the tolerance of the path that it replaces
    refine hbest.totalCost_ne_zero hnew' (fun hquoted => ?_) hzero
    have hmem : pair ∈ newBestPaths := KeyedFold.mem_of_getElem? hnew'
    rcases hkeeps hbest.noArbitrage pair (hbest.mem_iff_connected.mp hmem) hquoted with
      hrep | ⟨old, hold, hwithin⟩
    · exact hrep
    · have hbreach' := hbreach old hold
      rw [hzero] at hbreach'
      cases hbreach'.symm.trans hwithin
  · rw [hkept] at hpath
    exact hpos pair path hpath

/-- With positive stored costs, the round divides by no zero. -/
theorem Round.ne_divideByZero {α : Type} [AddCommGroup α] [LinearOrder α] [IsOrderedAddMonoid α]
    (L : Algo.Log2 ℚ α) (hbits : 128 ≤ T.amountBits)
    (hcalc : T.bestPathCalculator = FloydWarshallCalculator.calcBestPaths L) {s : ChainState T}
    (hpos : PositiveCosts s.bestPaths) (r : Round T) :
    fetchPricesAndUpdateBestPaths r.env (r.read s) r.blockNumber ≠
      .error (.panic .divideByZero) := by
  have hcalc' : Exec.Avoids {.divideByZero}
      (T.bestPathCalculator (fetchedPairs r.env (r.read s))) := fun p _ => by
    rw [hcalc]
    exact calcBestPaths_noPanic L hbits _ p trivial
  exact fetchPricesAndUpdateBestPaths_avoids hcalc' hpos _ rfl

/-! ## Runs of rounds -/

/-- When every round of a run keeps the costs positive, no round divides by zero. -/
theorem runRounds_divideByZero {α : Type} [AddCommGroup α] [LinearOrder α] [IsOrderedAddMonoid α]
    (L : Algo.Log2 ℚ α) (hbits : 128 ≤ T.amountBits)
    (hcalc : T.bestPathCalculator = FloydWarshallCalculator.calcBestPaths L) {s : ChainState T}
    (hempty : s.bestPaths = ∅) {rounds : List (Round T)}
    (hkeeps : Run.Along (fun s r => r.apply s)
      (fun s r => KeepsPositive s.bestPaths (fetchedPairs r.env (r.read s))) s rounds) :
    Run.Along (fun s r => r.apply s) (fun s r => PositiveCosts s.bestPaths ∧
        fetchPricesAndUpdateBestPaths r.env (r.read s) r.blockNumber ≠
          .error (.panic .divideByZero)) s rounds ∧
      PositiveCosts (s.runRounds rounds).bestPaths := by
  have hpos : PositiveCosts s.bestPaths := by
    intro pair path hpath
    rw [hempty] at hpath
    cases hpath
  obtain ⟨halong, hlast⟩ := hkeeps.invariant
    (fun _ r hpos hr => r.positiveCosts_apply L hcalc hpos hr) hpos
  exact ⟨halong.imp fun _ r h => ⟨h.1, r.ne_divideByZero L hbits hcalc h.1⟩, hlast⟩

/-! ## Runs of the node's runtime -/

def chainPairs : List (ProviderPair (List UInt8) Provider × Unit) :=
  [(⟨⟨btc, eth⟩, .cryptoCompare⟩, ()), (⟨⟨eth, usdt⟩, .cryptoCompare⟩, ())]

/-- A chain of two pairs is monitored, and both have the same price. -/
def chainRound (price : BitVec 128) : Round (nodeRuntime Algo.Log2.rational) where
  monitoredPairs := Std.ExtTreeMap.ofList chainPairs
  env := mockEnvironment _ price
  blockNumber := 1
  signature := 7

theorem runRounds_divideByZero_chainRound :
    Run.Along (fun s r => r.apply s) (fun s r => PositiveCosts s.bestPaths ∧
        fetchPricesAndUpdateBestPaths r.env (r.read s) r.blockNumber ≠
          .error (.panic .divideByZero)) (ChainState.genesis (nodeRuntime Algo.Log2.rational))
        [chainRound 2000000000000, chainRound 2000000000000] ∧
      PositiveCosts ((ChainState.genesis (nodeRuntime Algo.Log2.rational)).runRounds
        [chainRound 2000000000000, chainRound 2000000000000]).bestPaths := by
  have hprices : ∀ q ∈ fetchedPairs (chainRound 2000000000000).env
      ((chainRound 2000000000000).read (ChainState.genesis _)), 1000000000000 ≤ q.2.toNat := by
    decide +kernel
  have hkeeps : ∀ s : ChainState (nodeRuntime Algo.Log2.rational), KeepsPositive s.bestPaths
      (fetchedPairs (chainRound 2000000000000).env ((chainRound 2000000000000).read s)) :=
    fun s _ pair hpair hquoted => .inl (representable_of_one_le hprices hpair hquoted)
  exact runRounds_divideByZero Algo.Log2.rational le_rfl rfl rfl ⟨hkeeps _, hkeeps _, trivial⟩

/-- Two prices of one unit multiply to a cost of zero, and the second round divides by it. -/
theorem fetchPricesAndUpdateBestPaths_chainRound :
    (ChainState.genesis (nodeRuntime Algo.Log2.rational)).bestPaths = ∅ ∧
      fetchPricesAndUpdateBestPaths (chainRound 1).env
        ((chainRound 1).read ((ChainState.genesis _).runRounds [chainRound 1])) 1 =
          .error (.panic .divideByZero) :=
  ⟨rfl, Exec.panicked_eq_some_iff.mp (by decide +kernel)⟩

end Aggregator
