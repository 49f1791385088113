import Aggregator.Verification.Calculator.Connected
import Aggregator.Verification.Calculator.Covering

/-! # The calculator as a closure

Dearer prices give no smaller totals. The totals of a run, read as prices again, give the
same totals, so a chain of returned paths is worth no more than the path between its ends. -/

namespace Aggregator.FloydWarshallCalculator

open Algo EdgeWalk

variable {C P : Type} {w : ℕ}

/-- Each pair of the first list is quoted in the second, nowhere below its lowest price in the
first. A currency that the second list quotes against itself is also quoted in the first. -/
structure PricedBelow (quotes quotes' : List (PairAndPrice C P w)) : Prop where
  quoted : ∀ q ∈ quotes, ∃ q' ∈ quotes', q'.1.pair = q.1.pair
  lowest : ∀ q ∈ quotes, ∀ q' ∈ quotes', q'.1.pair = q.1.pair →
    ∃ q₀ ∈ quotes, q₀.1.pair = q.1.pair ∧ q₀.2 ≤ q'.2
  self : ∀ q' ∈ quotes', q'.1.pair.source = q'.1.pair.target → ∃ q ∈ quotes, q.1.pair = q'.1.pair

/-- The totals of the entries as prices, each from the provider of its pair. -/
def totals [LinearOrder C] (provider : Pair C → P) (res : BestPathMap C P w) :
    List (PairAndPrice C P w) :=
  res.toList.map fun entry => (⟨entry.1, provider entry.1⟩, entry.2.totalCost)

/-! ## Dearer prices -/

theorem PricedBelow.covers {quotes quotes' : List (PairAndPrice C P w)}
    (h : PricedBelow quotes quotes') : Covers quotes quotes' where
  step step hcheap _ := by
    obtain ⟨q', hq', hpair⟩ := h.quoted step.quote hcheap.1
    obtain ⟨step', hcheap', hpair'⟩ := exists_cheapestStep hq'
    have hsame : step'.pair = step.pair := hpair'.trans hpair
    obtain ⟨q₀, hq₀, hpair₀, hle⟩ := h.lowest step.quote hcheap.1 step'.quote hcheap'.1 hsame
    have hr := Routed.singleton hcheap'
    rw [PathStep.source, PathStep.target, hsame] at hr
    refine ⟨[step'], hr, ?_⟩
    simpa [stepProduct] using price_le_iff.mpr (BitVec.le_trans (hcheap.2 q₀ hq₀ hpair₀) hle)
  identity c hr := by
    obtain ⟨⟨q, hq, hocc⟩, hself⟩ := hr.2 rfl
    obtain ⟨q', hq', hpair⟩ := h.quoted q hq
    refine ⟨[], ⟨⟨rfl, by simp⟩, fun _ => ⟨⟨q', hq', hpair ▸ hocc⟩, fun x hx hloop => ?_⟩⟩, le_rfl⟩
    obtain ⟨y, hy, hyx⟩ := h.self x hx (by rw [hloop])
    exact hself y hy (hyx.trans hloop)

section Run

variable [LinearOrder C] [LinearOrder P] {α : Type} [AddCommGroup α] [LinearOrder α]
  [IsOrderedAddMonoid α] (L : Log2 ℚ α)

/-- Where the calculator finds the best paths along some prices, it also finds them along
prices that are nowhere greater, on no more pairs and with no greater totals. -/
theorem calcBestPaths_mono {quotes quotes' : List (PairAndPrice C P 128)}
    (h : PricedBelow quotes quotes') {res' : BestPathMap C P 128}
    (hres' : calcBestPaths L quotes' = .ok res') :
    ∃ res, calcBestPaths L quotes = .ok res ∧
      ∀ (pair : Pair C) (path : PricePath C P (Amount 128)), res[pair]? = some path →
        ∃ path', res'[pair]? = some path' ∧ path.totalCost ≤ path'.totalCost := by
  have harb' := (exists_calcBestPaths_eq_ok L).mp ⟨res', hres'⟩
  obtain ⟨res, hres⟩ := (exists_calcBestPaths_eq_ok L).mpr (h.covers.noPriceArbitrage harb')
  refine ⟨res, hres, h.covers.exists_totalCost_le L hres hres' fun q hq => ?_⟩
  obtain ⟨q', hq', hpair⟩ := h.quoted q hq
  exact hpair ▸ (bestPricePaths_of_eq_ok L hres').quote q' hq'

/-! ## Totals read as prices -/

variable {quotes : List (PairAndPrice C P 128)} {res : BestPathMap C P 128}
  (provider : Pair C → P)

omit [LinearOrder P] in
theorem mem_totals {q : PairAndPrice C P 128} : q ∈ totals provider res ↔
    ∃ path, res[q.1.pair]? = some path ∧ q = (⟨q.1.pair, provider q.1.pair⟩, path.totalCost) := by
  unfold totals
  rw [List.mem_map]
  constructor
  · rintro ⟨⟨pair, path⟩, hentry, rfl⟩
    exact ⟨path, KeyedFold.mem_toList_iff.mp hentry, rfl⟩
  · rintro ⟨path, hpath, hq⟩
    exact ⟨(q.1.pair, path), KeyedFold.mem_toList_iff.mpr hpath, hq.symm⟩

omit [LinearOrder P] in
theorem mem_totals_of_getElem? {pair : Pair C} {path : PricePath C P (Amount 128)}
    (hpath : res[pair]? = some path) :
    (⟨pair, provider pair⟩, path.totalCost) ∈ totals provider res :=
  (mem_totals provider).mpr ⟨path, hpath, rfl⟩

omit [LinearOrder P] in
theorem cheapestStep_totals {pair : Pair C} {path : PricePath C P (Amount 128)}
    (hpath : res[pair]? = some path) :
    CheapestStep (totals provider res) ⟨pair, provider pair, path.totalCost⟩ := by
  refine ⟨mem_totals_of_getElem? provider hpath, fun q hq hpair => ?_⟩
  obtain ⟨path', hpath', heq⟩ := (mem_totals provider).mp hq
  have hsame : q.1.pair = pair := hpair
  rw [hsame, hpath] at hpath'
  cases hpath'
  rw [heq]
  exact BitVec.le_refl _

/-- The total of an entry is worth no more than its steps. -/
theorem covers_totals (hres : calcBestPaths L quotes = .ok res) :
    Covers (totals provider res) quotes where
  step step hcheap _ := by
    obtain ⟨path, hpath, heq⟩ := (mem_totals provider).mp hcheap.1
    have hpair : res[step.pair]? = some path := hpath
    refine ⟨path.steps, routed_of_eq_ok L hres hpair, ?_⟩
    obtain ⟨-, -, htotal⟩ := (bestPricePaths_of_eq_ok L hres).sound _ path hpair
    have hcost : step.cost = path.totalCost := congrArg Prod.snd heq
    rw [price, hcost, htotal, div_le_iff₀ precision_pos]
    calc (asU128 (stepProduct path.steps * precision) : ℚ)
        ≤ (⌊stepProduct path.steps * precision⌋₊ : ℕ) := Nat.cast_le.mpr (min_le_left _ _)
      _ ≤ stepProduct path.steps * precision :=
          Nat.floor_le (mul_nonneg (stepProduct_nonneg _) precision_pos.le)
  identity c hr := by
    obtain ⟨⟨q, hq, hocc⟩, hself⟩ := hr.2 rfl
    obtain ⟨path, hpath, -⟩ := (mem_totals provider).mp hq
    have hbest := bestPricePaths_of_eq_ok L hres
    -- the currency has an entry, which quotes it against itself
    obtain ⟨x, hx, hx'⟩ : ∃ x ∈ quotes, x.1.pair.source = c ∨ x.1.pair.target = c := by
      rcases hocc with rfl | rfl
      · exact (hbest.sound _ path hpath).1
      · exact hbest.target_occurs hpath
    obtain ⟨loop, hloop⟩ := KeyedFold.mem_iff_exists.mp (hbest.currency x hx c hx')
    exact (hself _ (mem_totals_of_getElem? provider hloop) rfl).elim

/-- The total of an entry is worth no less than the price of its pair. -/
theorem covers_quotes (hres : calcBestPaths L quotes = .ok res) :
    Covers quotes (totals provider res) where
  step step hcheap hcost := by
    have hprod : stepProduct [step] = price step := by simp [stepProduct]
    have hzero : stepProduct [step] ≠ 0 := by
      rw [ne_eq, stepProduct_eq_zero_iff]
      rintro ⟨x, hx, hx'⟩
      exact hcost (List.mem_singleton.mp hx ▸ hx')
    obtain ⟨path, hpath, hle⟩ :=
      (bestPricePaths_of_eq_ok L hres).exists_le_total (Routed.singleton hcheap) hzero
    have hr : Routed (totals provider res) step.source
        [⟨step.pair, provider step.pair, path.totalCost⟩] step.target :=
      Routed.singleton (cheapestStep_totals provider hpath)
    refine ⟨_, hr, ?_⟩
    have hcast : asU128 (price step * precision) = step.cost.toNat := by
      rw [price, div_mul_cancel₀ _ precision_pos.ne']
      exact asU128_natCast (Nat.le_sub_one_of_lt step.cost.isLt)
    rw [hprod, hcast] at hle
    have hprice : price step ≤ price ⟨step.pair, provider step.pair, path.totalCost⟩ :=
      price_le_iff.mpr (BitVec.le_def.mpr hle)
    simpa [stepProduct] using hprice
  identity c hr := by
    obtain ⟨path, hpath, hle⟩ :=
      (bestPricePaths_of_eq_ok L hres).exists_le_total hr (by simp [stepProduct])
    refine ⟨[_], Routed.singleton (cheapestStep_totals provider hpath), ?_⟩
    have hone : stepProduct ([] : List (PathStep C P (Amount 128))) * precision =
        (1000000000000 : ℕ) := by
      norm_num [stepProduct, precision]
    rw [hone, asU128_natCast (by decide)] at hle
    have hprice : precision ≤ path.totalCost.toNat := by
      rw [precision]
      exact_mod_cast hle
    simpa [stepProduct, price, one_le_div precision_pos] using hprice

/-- The totals that the calculator returns are the totals along them. -/
theorem calcBestPaths_idempotent (hres : calcBestPaths L quotes = .ok res) :
    ∃ res', calcBestPaths L (totals provider res) = .ok res' ∧
      ∀ pair : Pair C,
        res'[pair]?.map PricePath.totalCost = res[pair]?.map PricePath.totalCost := by
  have harb := (exists_calcBestPaths_eq_ok L).mp ⟨res, hres⟩
  obtain ⟨res', hres'⟩ := (exists_calcBestPaths_eq_ok L).mpr
    ((covers_totals L provider hres).noPriceArbitrage harb)
  have hquoted : ∀ q ∈ totals provider res, q.1.pair ∈ res := by
    intro q hq
    obtain ⟨path, hpath, -⟩ := (mem_totals provider).mp hq
    exact KeyedFold.mem_of_getElem? hpath
  have hquoted' : ∀ q ∈ quotes, q.1.pair ∈ res' := by
    intro q hq
    obtain ⟨path, hpath⟩ :=
      KeyedFold.mem_iff_exists.mp ((bestPricePaths_of_eq_ok L hres).quote q hq)
    exact (bestPricePaths_of_eq_ok L hres').quote
      (⟨q.1.pair, provider q.1.pair⟩, path.totalCost) (mem_totals_of_getElem? provider hpath)
  exact ⟨res', hres', KeyedFold.map_getElem?_eq_of_le (fun _ _ => BitVec.le_antisymm)
    ((covers_totals L provider hres).exists_totalCost_le L hres' hres hquoted)
    ((covers_quotes L provider hres).exists_totalCost_le L hres hres' hquoted')⟩

/-- Returned paths that follow each other are worth no more than the returned path between
their ends, and a round trip along returned paths is worth no more than one. -/
theorem calcBestPaths_chain (hres : calcBestPaths L quotes = .ok res) {s t : C}
    {routes : List (Pair C × PricePath C P (Amount 128))}
    (hw : IsWalk (fun r => r.1.source) (fun r => r.1.target) s routes t)
    (hroutes : ∀ r ∈ routes, res[r.1]? = some r.2) (hne : routes ≠ [])
    (hcosts : ∀ r ∈ routes, r.2.totalCost ≠ 0) :
    (∃ path, res[(⟨s, t⟩ : Pair C)]? = some path ∧
      min ⌊precision * (routes.map fun r => (r.2.totalCost.toNat : ℚ) / precision).prod⌋₊ u128Max ≤
        path.totalCost.toNat) ∧
    (s = t → (routes.map fun r => (r.2.totalCost.toNat : ℚ) / precision).prod ≤ 1) := by
  have hbest := bestPricePaths_of_eq_ok L hres
  obtain ⟨r, hr⟩ := List.exists_mem_of_ne_nil routes hne
  obtain ⟨⟨q, -, -⟩, -⟩ := hbest.sound _ _ (hroutes r hr)
  -- the totals as steps, all of them from one provider
  let step (r : Pair C × PricePath C P (Amount 128)) : PathStep C P (Amount 128) :=
    ⟨r.1, q.1.provider, r.2.totalCost⟩
  have hprod : stepProduct (routes.map step) =
      (routes.map fun r => (r.2.totalCost.toNat : ℚ) / precision).prod := by
    simp [stepProduct, step, price, Function.comp_def]
  have hchain : CheapestWalk (totals (fun _ => q.1.provider) res) s (routes.map step) t := by
    refine ⟨(isWalk_map (fun _ => rfl) fun _ => rfl).mpr hw, fun x hx => ?_⟩
    obtain ⟨r, hr, rfl⟩ := List.mem_map.mp hx
    exact cheapestStep_totals _ (hroutes r hr)
  have hzero : stepProduct (routes.map step) ≠ 0 := by
    rw [ne_eq, stepProduct_eq_zero_iff]
    rintro ⟨x, hx, hcost⟩
    obtain ⟨r, hr, rfl⟩ := List.mem_map.mp hx
    exact hcosts r hr hcost
  obtain ⟨steps, hr, hle⟩ := (covers_totals L _ hres).exists_routed
    ⟨hchain, fun hnil => (hne (List.map_eq_nil_iff.mp hnil)).elim⟩ hzero
  rw [hprod] at hle hzero
  have hpos : 0 < (routes.map fun r => (r.2.totalCost.toNat : ℚ) / precision).prod :=
    (hprod ▸ stepProduct_nonneg _).lt_of_ne' hzero
  constructor
  · obtain ⟨path, hpath, hge⟩ := hbest.exists_le_total hr (hpos.trans_le hle).ne'
    refine ⟨path, hpath, le_trans ?_ hge⟩
    rw [mul_comm]
    exact asU128_mono (mul_le_mul_of_nonneg_right hle precision_pos.le)
  · rintro rfl
    exact hle.trans (hbest.noArbitrage s steps hr.1)

end Run

/-! ## Three currencies -/

theorem exists_calcBestPaths_sampleQuotes :
    ∃ res, calcBestPaths Log2.rational sampleQuotes = .ok res ∧
      res[(⟨10, 20⟩ : Pair ℕ)]? = some ⟨500000000000, [⟨⟨10, 20⟩, 1, 500000000000⟩]⟩ ∧
      res[(⟨20, 30⟩ : Pair ℕ)]? = some ⟨4000000000000, [⟨⟨20, 30⟩, 1, 4000000000000⟩]⟩ := by
  have heval : (calcBestPaths Log2.rational sampleQuotes).toOption.bind (fun res =>
      (res[(⟨10, 20⟩ : Pair ℕ)]?).bind fun first =>
        (res[(⟨20, 30⟩ : Pair ℕ)]?).map fun second => (first, second)) =
      some (⟨500000000000, [⟨⟨10, 20⟩, 1, 500000000000⟩]⟩,
        ⟨4000000000000, [⟨⟨20, 30⟩, 1, 4000000000000⟩]⟩) := by decide +kernel
  obtain ⟨res, hres, hentries⟩ := Option.bind_eq_some_iff.mp heval
  obtain ⟨first, hfirst, hsecond⟩ := Option.bind_eq_some_iff.mp hentries
  obtain ⟨second, hsecond, heq⟩ := Option.map_eq_some_iff.mp hsecond
  cases heq
  exact ⟨res, Exec.toOption_eq_some_iff.mp hres, hfirst, hsecond⟩

/-- The three currencies without the dearer provider, and cheaper between two of them. -/
def cheaperQuotes : List (PairAndPrice ℕ ℕ 128) :=
  [(⟨⟨10, 20⟩, 1⟩, 400000000000), (⟨⟨20, 30⟩, 1⟩, 4000000000000)]

theorem calcBestPaths_mono_cheaperQuotes :
    ∃ res' res, calcBestPaths Log2.rational sampleQuotes = .ok res' ∧
      calcBestPaths Log2.rational cheaperQuotes = .ok res ∧
      ∀ (pair : Pair ℕ) (path : PricePath ℕ ℕ (Amount 128)), res[pair]? = some path →
        ∃ path', res'[pair]? = some path' ∧ path.totalCost ≤ path'.totalCost := by
  obtain ⟨res', hres', -⟩ := exists_calcBestPaths_sampleQuotes
  have hbelow : PricedBelow cheaperQuotes sampleQuotes :=
    ⟨by decide, by decide, by decide⟩
  obtain ⟨res, hres, hle⟩ := calcBestPaths_mono Log2.rational hbelow hres'
  exact ⟨res', res, hres', hres, hle⟩

theorem calcBestPaths_idempotent_sampleQuotes :
    ∃ res res', calcBestPaths Log2.rational sampleQuotes = .ok res ∧
      calcBestPaths Log2.rational (totals (fun _ => 1) res) = .ok res' ∧
      ∀ pair : Pair ℕ,
        res'[pair]?.map PricePath.totalCost = res[pair]?.map PricePath.totalCost := by
  obtain ⟨res, hres, -⟩ := exists_calcBestPaths_sampleQuotes
  obtain ⟨res', hres', hsame⟩ := calcBestPaths_idempotent Log2.rational (fun _ => 1) hres
  exact ⟨res, res', hres, hres', hsame⟩

/-- Two returned paths from 10 to 30. -/
def sampleRoutes : List (Pair ℕ × PricePath ℕ ℕ (Amount 128)) :=
  [(⟨10, 20⟩, ⟨500000000000, [⟨⟨10, 20⟩, 1, 500000000000⟩]⟩),
    (⟨20, 30⟩, ⟨4000000000000, [⟨⟨20, 30⟩, 1, 4000000000000⟩]⟩)]

theorem calcBestPaths_chain_sampleRoutes :
    ∃ res, calcBestPaths Log2.rational sampleQuotes = .ok res ∧
      (∃ path, res[(⟨10, 30⟩ : Pair ℕ)]? = some path ∧
        min ⌊precision *
            (sampleRoutes.map fun r => (r.2.totalCost.toNat : ℚ) / precision).prod⌋₊ u128Max ≤
          path.totalCost.toNat) ∧
      (10 = 30 →
        (sampleRoutes.map fun r => (r.2.totalCost.toNat : ℚ) / precision).prod ≤ 1) := by
  obtain ⟨res, hres, hfirst, hsecond⟩ := exists_calcBestPaths_sampleQuotes
  have hw : IsWalk (fun r => r.1.source) (fun r => r.1.target) 10 sampleRoutes 30 := by
    decide
  exact ⟨res, hres, calcBestPaths_chain Log2.rational hres hw
    (by simp [sampleRoutes, hfirst, hsecond]) (by simp [sampleRoutes]) (by simp [sampleRoutes])⟩

end Aggregator.FloydWarshallCalculator
