import Aggregator.Verification.Calculator.Conversions

/-! # Prices that make up for each other

One list of fetched prices covers another when its chains are worth no less. Then it also
has no smaller totals. Dearer prices cover cheaper ones, and the totals that the calculator
returns, read as prices again, cover the prices they were calculated from and are covered by
them. -/

namespace Aggregator.FloydWarshallCalculator

open Algo EdgeWalk

variable {C P : Type} {w : ℕ} {quotes quotes' : List (PairAndPrice C P w)}

/-- A chain of lowest prices that may be returned. The empty one is, at a currency that occurs
and is not quoted against itself. -/
def Routed (quotes : List (PairAndPrice C P w)) (s : C) (steps : List (PathStep C P (Amount w)))
    (t : C) : Prop :=
  CheapestWalk quotes s steps t ∧
    (steps = [] → (∃ q ∈ quotes, q.1.pair.source = s ∨ q.1.pair.target = s) ∧
      ∀ q ∈ quotes, q.1.pair ≠ ⟨s, s⟩)

/-- Each chain of the first list has one of the second that is worth no less. -/
structure Covers (quotes quotes' : List (PairAndPrice C P w)) : Prop where
  step : ∀ step, CheapestStep quotes step → step.cost ≠ 0 →
    ∃ steps, Routed quotes' step.source steps step.target ∧ price step ≤ stepProduct steps
  identity : ∀ c, Routed quotes c [] c →
    ∃ steps, Routed quotes' c steps c ∧ 1 ≤ stepProduct steps

/-! ## Chains -/

theorem stepProduct_nonneg (steps : List (PathStep C P (Amount w))) : 0 ≤ stepProduct steps := by
  refine List.prod_nonneg fun x hx => ?_
  obtain ⟨step, -, rfl⟩ := List.mem_map.mp hx
  exact price_nonneg step

@[simp] theorem stepProduct_cons (step : PathStep C P (Amount w))
    (steps : List (PathStep C P (Amount w))) :
    stepProduct (step :: steps) = price step * stepProduct steps := by
  simp [stepProduct]

@[simp] theorem stepProduct_append (xs ys : List (PathStep C P (Amount w))) :
    stepProduct (xs ++ ys) = stepProduct xs * stepProduct ys := by
  simp [stepProduct]

theorem stepProduct_le_flatten {steps : List (PathStep C P (Amount w))}
    {xss : List (List (PathStep C P (Amount w)))}
    (h : List.Forall₂ (fun step xs => price step ≤ stepProduct xs) steps xss) :
    stepProduct steps ≤ stepProduct xss.flatten := by
  induction h with
  | nil => exact le_rfl
  | @cons step xs steps xss hle _ ih =>
      rw [stepProduct_cons, List.flatten_cons, stepProduct_append]
      exact mul_le_mul hle ih (stepProduct_nonneg _) (stepProduct_nonneg _)

theorem Routed.singleton {step : PathStep C P (Amount w)} (h : CheapestStep quotes step) :
    Routed quotes step.source [step] step.target :=
  ⟨⟨⟨rfl, rfl⟩, by simpa using h⟩, fun hnil => nomatch hnil⟩

/-- The covering chains of the steps join. -/
theorem Covers.exists_routed (h : Covers quotes quotes') {s t : C}
    {steps : List (PathStep C P (Amount w))} (hr : Routed quotes s steps t)
    (hzero : stepProduct steps ≠ 0) :
    ∃ steps', Routed quotes' s steps' t ∧ stepProduct steps ≤ stepProduct steps' := by
  cases steps with
  | nil =>
      obtain rfl : s = t := hr.1.1
      exact h.identity s hr
  | cons step steps =>
      obtain ⟨xss, hall, hw⟩ := hr.1.1.exists_flatten
        (Q := fun x xs => Routed quotes' x.source xs x.target ∧ price x ≤ stepProduct xs)
        fun x hx => by
          obtain ⟨xs, hxs, hle⟩ := h.step x (hr.1.2 x hx) fun hcost =>
            hzero (List.prod_eq_zero (List.mem_map.mpr ⟨x, hx, by simp [price, hcost]⟩))
          exact ⟨xs, hxs.1.1, hxs, hle⟩
      refine ⟨xss.flatten, ⟨⟨hw, fun x hx => ?_⟩, fun hnil => ?_⟩,
        stepProduct_le_flatten (hall.imp fun _ _ hx => hx.2)⟩
      · obtain ⟨xs, hxs, hx⟩ := List.mem_flatten.mp hx
        obtain ⟨y, -, hy⟩ := exists_mem_of_forall₂ hall hxs
        exact hy.1.1.2 x hx
      · -- a chain of empty chains starts with one
        cases hall with
        | cons hx _ =>
            obtain ⟨hxs, -⟩ := List.append_eq_nil_iff.mp hnil
            exact hr.1.1.1 ▸ hx.1.2 hxs

theorem Covers.noPriceArbitrage (h : Covers quotes quotes') (harb : NoPriceArbitrage quotes') :
    NoPriceArbitrage quotes := by
  intro c steps hw
  by_cases hne : steps = []
  · simp [hne, stepProduct]
  · by_cases hzero : stepProduct steps = 0
    · simp [hzero]
    · obtain ⟨steps', hr, hle⟩ := h.exists_routed ⟨hw, fun hnil => (hne hnil).elim⟩ hzero
      exact hle.trans (harb c steps' hr.1)

/-! ## Totals -/

section Totals

variable [LinearOrder C] {res res' : BestPathMap C P w}

theorem BestPricePaths.exists_le_total (h : BestPricePaths quotes res) {s t : C}
    {steps : List (PathStep C P (Amount w))} (hr : Routed quotes s steps t)
    (hzero : stepProduct steps ≠ 0) :
    ∃ path, res[(⟨s, t⟩ : Pair C)]? = some path ∧
      asU128 (stepProduct steps * precision) ≤ path.totalCost.toNat := by
  by_cases hne : steps = []
  · obtain ⟨⟨q, hq, hocc⟩, hself⟩ := hr.2 hne
    obtain rfl : s = t := by simpa [hne] using hr.1.1
    obtain ⟨path, hpath⟩ := KeyedFold.mem_iff_exists.mp (h.currency q hq s hocc)
    refine ⟨path, hpath, ?_⟩
    simpa [hne, stepProduct] using h.identity s path hself hpath
  · exact h.greatest s steps t hr.1 hne hzero

variable [LinearOrder P] {α : Type} [AddCommGroup α] [LinearOrder α] [IsOrderedAddMonoid α]
  (L : Log2 ℚ α)

theorem routed_of_eq_ok (h : calcBestPaths L quotes = .ok res) {pair : Pair C}
    {path : PricePath C P (Amount w)} (hpath : res[pair]? = some path) :
    Routed quotes pair.source path.steps pair.target := by
  obtain ⟨hocc, hw, -⟩ := (bestPricePaths_of_eq_ok L h).sound pair path hpath
  refine ⟨hw, fun hnil => ⟨hocc, fun q hq hself => ?_⟩⟩
  obtain ⟨source, target⟩ := pair
  obtain rfl : source = target := by simpa [hnil] using hw.1
  obtain ⟨path', hpath', -, hloop⟩ := calcBestPaths_diagonal L h (mem_currencies.mpr hocc)
  cases hpath.symm.trans hpath'
  exact hloop q hq hself hnil

/-- The totals over covered prices are no greater. -/
theorem Covers.exists_totalCost_le (h : Covers quotes quotes')
    (hres : calcBestPaths L quotes = .ok res) (hres' : calcBestPaths L quotes' = .ok res')
    (hquoted : ∀ q ∈ quotes, q.1.pair ∈ res') (pair : Pair C) (path : PricePath C P (Amount w))
    (hpath : res[pair]? = some path) :
    ∃ path', res'[pair]? = some path' ∧ path.totalCost ≤ path'.totalCost := by
  have hbest := bestPricePaths_of_eq_ok L hres
  obtain ⟨-, hw, htotal⟩ := hbest.sound pair path hpath
  by_cases hzero : stepProduct path.steps = 0
  · obtain ⟨step, hstep⟩ := hbest.zero pair path hpath hzero
    rw [hstep] at hw
    obtain ⟨⟨hsource, htarget⟩, hcheap⟩ := hw
    have hmem := hquoted step.quote (hcheap step (by simp)).1
    have hpair : step.quote.1.pair = pair := congrArg₂ Pair.mk hsource htarget
    obtain ⟨path', hpath'⟩ := KeyedFold.mem_iff_exists.mp (hpair ▸ hmem)
    refine ⟨path', hpath', BitVec.le_def.mpr ?_⟩
    rw [htotal, hzero, zero_mul, asU128_zero]
    exact Nat.zero_le _
  · obtain ⟨steps', hr, hle⟩ := h.exists_routed (routed_of_eq_ok L hres hpath) hzero
    have hpos : 0 < stepProduct path.steps := (stepProduct_nonneg _).lt_of_ne' hzero
    obtain ⟨path', hpath', hge⟩ :=
      (bestPricePaths_of_eq_ok L hres').exists_le_total hr (hpos.trans_le hle).ne'
    refine ⟨path', hpath', BitVec.le_def.mpr ?_⟩
    calc path.totalCost.toNat = asU128 (stepProduct path.steps * precision) := htotal
      _ ≤ asU128 (stepProduct steps' * precision) :=
          asU128_mono (mul_le_mul_of_nonneg_right hle precision_pos.le)
      _ ≤ path'.totalCost.toNat := hge

end Totals

/-- With amounts of 128 bits every price converts and every total fits. -/
theorem exists_calcBestPaths_eq_ok [LinearOrder C] [LinearOrder P] {α : Type} [AddCommGroup α]
    [LinearOrder α] [IsOrderedAddMonoid α] (L : Log2 ℚ α) {quotes : List (PairAndPrice C P 128)} :
    (∃ res, calcBestPaths L quotes = .ok res) ↔ NoPriceArbitrage quotes := by
  constructor
  · rintro ⟨res, hres⟩
    exact (bestPricePaths_of_eq_ok L hres).noArbitrage
  · intro harb
    rcases calcBestPaths_cases L quotes with ⟨hconv, -⟩ | ⟨-, h, -⟩ | ⟨-, -, hfit, -⟩ |
      ⟨-, -, -, hres⟩
    · exact (hconv fun q _ => Nat.le_sub_one_of_lt q.2.isLt).elim
    · exact (h harb).elim
    · refine (hfit ⟨fun s steps t _ _ => ?_, fun q _ c _ _ => ?_⟩).elim
      all_goals exact (asU128_le _).trans_lt (by decide)
    · exact hres

end Aggregator.FloydWarshallCalculator
