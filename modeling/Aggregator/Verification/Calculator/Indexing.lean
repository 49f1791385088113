import Aggregator.Model.Calculator
import Aggregator.Verification.LongestPaths.Correctness

/-! # Indices for currencies and providers

An edge of the graph and a path step encode each other when the positions of the one hold
the currencies and the provider of the other. -/

namespace Aggregator

variable {C P : Type} {w : ℕ}

def PathStep.source {A : Type} (step : PathStep C P A) : C := step.pair.source

def PathStep.target {A : Type} (step : PathStep C P A) : C := step.pair.target

/-- The fetched price that the step repeats. -/
def PathStep.quote {A : Type} (step : PathStep C P A) : ProviderPair C P × A :=
  (⟨step.pair, step.provider⟩, step.cost)

namespace FloydWarshallCalculator

open Algo EdgeWalk

/-- The cost of a step as a number. -/
def price (step : PathStep C P (Amount w)) : ℚ := step.cost.toNat / precision

/-- The product of the prices of the steps. -/
def stepProduct (steps : List (PathStep C P (Amount w))) : ℚ := (steps.map price).prod

structure Encodes (cs : List C) (ps : List P) (step : PathStep C P (Amount w)) (e : Edge ℚ) :
    Prop where
  source : cs[e.source]? = some step.source
  target : cs[e.target]? = some step.target
  provider : ps[e.provider]? = some step.provider
  cost : e.cost = price step
  fits : step.cost.toNat ≤ u128Max

/-! ## Amounts -/

theorem precision_pos : 0 < precision := by norm_num [precision]

theorem price_nonneg (step : PathStep C P (Amount w)) : 0 ≤ price step :=
  div_nonneg (Nat.cast_nonneg _) precision_pos.le

theorem asU128_natCast {n : ℕ} (h : n ≤ u128Max) : asU128 (n : ℚ) = n := by
  rw [asU128, Nat.floor_natCast, min_eq_left h]

theorem asU128_le (x : ℚ) : asU128 x ≤ u128Max := min_le_right _ _

theorem asU128_mono {x y : ℚ} (h : x ≤ y) : asU128 x ≤ asU128 y :=
  min_le_min_right _ (Nat.floor_mono h)

theorem ofU128_cost {step : PathStep C P (Amount w)} (h : step.cost.toNat ≤ u128Max) :
    Amount.ofU128 (asU128 (price step * precision)) = some step.cost := by
  rw [price, div_mul_cancel₀ _ precision_pos.ne', asU128_natCast h,
    Amount.ofU128_of_lt step.cost.isLt, BitVec.ofNat_toNat, BitVec.setWidth_eq]

/-! ## Encoding and decoding -/

section Encoding

variable {cs : List C} {ps : List P} {step : PathStep C P (Amount w)} {e : Edge ℚ}

/-- A decoded edge is the encoded step. -/
theorem Encodes.toPathStep (h : Encodes cs ps step e) : toPathStep cs ps e = .ok step := by
  have hcost : Amount.ofU128 (asU128 (e.cost * precision)) = some step.cost := by
    rw [h.cost, ofU128_cost h.fits]
  have hsource : cs[e.pair.source]? = some step.pair.source := h.source
  have htarget : cs[e.pair.target]? = some step.pair.target := h.target
  rw [FloydWarshallCalculator.toPathStep, hsource, htarget, h.provider, hcost]
  rfl

variable [LinearOrder C] [LinearOrder P] {q : PairAndPrice C P w}

theorem byInd_getElem? {X : Type} [LinearOrder X] {xs : List X} (hxs : xs.Nodup) {x : X} {i : ℕ} :
    (byInd xs)[x]? = some i ↔ xs[i]? = some x :=
  KeyedFold.getElem?_ofList_zipIdx hxs

theorem toEdge_eq_ok_iff (hcs : cs.Nodup) (hps : ps.Nodup) :
    toEdge (byInd cs) (byInd ps) step.quote = .ok e ↔ Encodes cs ps step e := by
  unfold toEdge
  simp only [Exec.bind_eq_ok_iff, Exec.orPanic_eq_ok_iff, Exec.orErr_eq_ok_iff, byInd_getElem? hcs,
    byInd_getElem? hps]
  constructor
  · rintro ⟨s, hs, t, ht, p, hp, n, hn, he⟩
    cases he
    obtain ⟨hfits, rfl⟩ := Amount.toU128_eq_some_iff.mp hn
    exact ⟨hs, ht, hp, rfl, hfits⟩
  · rintro ⟨hs, ht, hp, hcost, hfits⟩
    refine ⟨e.source, hs, e.target, ht, e.provider, hp, step.cost.toNat,
      Amount.toU128_eq_some_iff.mpr ⟨hfits, rfl⟩, ?_⟩
    obtain ⟨⟨s, t⟩, p, c⟩ := e
    cases hcost
    rfl

theorem toEdge_noPanic (hcs : cs.Nodup) (hps : ps.Nodup) (hs : step.source ∈ cs)
    (ht : step.target ∈ cs) (hp : step.provider ∈ ps) :
    Exec.NoPanic (toEdge (byInd cs) (byInd ps) step.quote) := by
  obtain ⟨i, hi⟩ := List.getElem?_of_mem hs
  obtain ⟨j, hj⟩ := List.getElem?_of_mem ht
  obtain ⟨k, hk⟩ := List.getElem?_of_mem hp
  have hsource : (byInd cs)[step.quote.1.pair.source]? = some i := (byInd_getElem? hcs).mpr hi
  have htarget : (byInd cs)[step.quote.1.pair.target]? = some j := (byInd_getElem? hcs).mpr hj
  have hprovider : (byInd ps)[step.quote.1.provider]? = some k := (byInd_getElem? hps).mpr hk
  rw [toEdge, hsource, htarget, hprovider]
  simp only [Exec.orPanic_some, Exec.ok_bind]
  exact Exec.Avoids.bind (Exec.Avoids.orErr _ _) fun n _ => Exec.Avoids.ok _

end Encoding

/-! ## The graph -/

variable {quotes : List (PairAndPrice C P w)} {step : PathStep C P (Amount w)}

section Currencies

variable [LinearOrder C]

theorem nodup_currencies : (currencies quotes).Nodup := KeyedFold.nodup_toList _

theorem mem_currencies {c : C} :
    c ∈ currencies quotes ↔ ∃ q ∈ quotes, q.1.pair.source = c ∨ q.1.pair.target = c := by
  rw [currencies, KeyedFold.mem_toList_ofList]
  simp [eq_comm]

theorem source_mem_currencies (h : step.quote ∈ quotes) : step.source ∈ currencies quotes :=
  mem_currencies.mpr ⟨_, h, .inl rfl⟩

theorem target_mem_currencies (h : step.quote ∈ quotes) : step.target ∈ currencies quotes :=
  mem_currencies.mpr ⟨_, h, .inr rfl⟩

/-- The two loops visit exactly the fetched prices. -/
theorem mem_visited {q : PairAndPrice C P w} :
    (q ∈ (currencies quotes).flatMap fun c => quotes.filter fun x => c = x.1.pair.source) ↔
      q ∈ quotes := by
  simp only [List.mem_flatMap, List.mem_filter, decide_eq_true_eq]
  constructor
  · rintro ⟨c, -, hq, -⟩
    exact hq
  · intro hq
    exact ⟨q.1.pair.source, mem_currencies.mpr ⟨q, hq, .inl rfl⟩, hq, rfl⟩

end Currencies

section Providers

variable [LinearOrder P]

theorem nodup_providers : (providers quotes).Nodup := KeyedFold.nodup_toList _

theorem mem_providers {p : P} : p ∈ providers quotes ↔ ∃ q ∈ quotes, q.1.provider = p := by
  rw [providers, KeyedFold.mem_toList_ofList]
  simp

theorem provider_mem_providers (h : step.quote ∈ quotes) : step.provider ∈ providers quotes :=
  mem_providers.mpr ⟨_, h, rfl⟩

end Providers

variable [LinearOrder C] [LinearOrder P]

theorem graph_noPanic : Exec.NoPanic (graph quotes) := by
  refine Exec.Avoids.mapM fun q hq => ?_
  rw [mem_visited] at hq
  obtain ⟨step, rfl⟩ : ∃ step, PathStep.quote step = q := ⟨⟨q.1.pair, q.1.provider, q.2⟩, rfl⟩
  exact toEdge_noPanic nodup_currencies nodup_providers (source_mem_currencies hq)
    (target_mem_currencies hq) (provider_mem_providers hq)

/-- The edges of the graph encode the fetched prices. -/
theorem mem_graph {edges : List (Edge ℚ)} (h : graph quotes = .ok edges) {e : Edge ℚ} :
    e ∈ edges ↔ ∃ step : PathStep C P (Amount w), step.quote ∈ quotes ∧
      Encodes (currencies quotes) (providers quotes) step e := by
  rw [Exec.mem_iff_of_mapM_eq_ok h]
  constructor
  · rintro ⟨q, hq, he⟩
    exact ⟨⟨q.1.pair, q.1.provider, q.2⟩, mem_visited.mp hq,
      (toEdge_eq_ok_iff nodup_currencies nodup_providers).mp he⟩
  · rintro ⟨step, hq, he⟩
    exact ⟨step.quote, mem_visited.mpr hq,
      (toEdge_eq_ok_iff nodup_currencies nodup_providers).mpr he⟩

/-- Every fetched price has its edge in the graph. -/
theorem exists_mem_graph {edges : List (Edge ℚ)} (h : graph quotes = .ok edges)
    (hq : step.quote ∈ quotes) :
    ∃ e ∈ edges, Encodes (currencies quotes) (providers quotes) step e := by
  obtain ⟨e, he, hok⟩ := Exec.exists_mem_of_mapM_eq_ok h (mem_visited.mpr hq)
  exact ⟨e, he, (toEdge_eq_ok_iff nodup_currencies nodup_providers).mp hok⟩

theorem cost_nonneg_of_mem_graph {edges : List (Edge ℚ)} (h : graph quotes = .ok edges)
    {e : Edge ℚ} (he : e ∈ edges) : 0 ≤ e.cost := by
  obtain ⟨step, -, henc⟩ := (mem_graph h).mp he
  rw [henc.cost]
  exact price_nonneg step

end FloydWarshallCalculator

end Aggregator
