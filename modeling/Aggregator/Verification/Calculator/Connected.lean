import Aggregator.Verification.Calculator.Correctness

/-! # The pairs that get a path -/

namespace Aggregator.FloydWarshallCalculator

open Algo EdgeWalk

variable {C P : Type} {w : ℕ}

/-- The pairs that the fetched prices connect: a currency with itself, a quoted pair, or the
ends of a chain of lowest prices without a zero. -/
def Connected (quotes : List (PairAndPrice C P w)) (pair : Pair C) : Prop :=
  (pair.source = pair.target ∧
    ∃ q ∈ quotes, q.1.pair.source = pair.source ∨ q.1.pair.target = pair.source) ∨
  (∃ q ∈ quotes, q.1.pair = pair) ∨
  ∃ steps, steps ≠ [] ∧ CheapestWalk quotes pair.source steps pair.target ∧
    ∀ step ∈ steps, step.cost ≠ 0

theorem stepProduct_eq_zero_iff {steps : List (PathStep C P (Amount w))} :
    stepProduct steps = 0 ↔ ∃ step ∈ steps, step.cost = 0 := by
  unfold stepProduct price
  simp only [List.prod_eq_zero_iff, List.mem_map, div_eq_zero_iff, precision_pos.ne', or_false,
    Nat.cast_eq_zero]
  refine exists_congr fun step => and_congr_right fun _ => ?_
  rw [← BitVec.toNat_inj]
  rfl

theorem BestPricePaths.mem_iff_connected [LinearOrder C] {quotes : List (PairAndPrice C P w)}
    {res : BestPathMap C P w} (h : BestPricePaths quotes res) {pair : Pair C} :
    pair ∈ res ↔ Connected quotes pair := by
  constructor
  · intro hmem
    obtain ⟨path, hpath⟩ := KeyedFold.mem_iff_exists.mp hmem
    obtain ⟨hs, hw, -⟩ := h.sound pair path hpath
    by_cases hne : path.steps = []
    · exact .inl ⟨by simpa [hne] using hw.1, hs⟩
    · by_cases hzero : stepProduct path.steps = 0
      · obtain ⟨step, hstep⟩ := h.zero pair path hpath hzero
        rw [hstep] at hw
        exact .inr (.inl ⟨step.quote, (hw.2 step (by simp)).1, congrArg₂ Pair.mk hw.1.1 hw.1.2⟩)
      · refine .inr (.inr ⟨path.steps, hne, hw, fun step hstep hcost => ?_⟩)
        exact hzero (stepProduct_eq_zero_iff.mpr ⟨step, hstep, hcost⟩)
  · rintro (⟨hst, q, hq, hc⟩ | ⟨q, hq, rfl⟩ | ⟨steps, hne, hw, hcost⟩)
    · obtain ⟨source, target⟩ := pair
      obtain rfl : source = target := hst
      exact h.currency q hq source hc
    · exact h.quote q hq
    · obtain ⟨path, hpath, -⟩ := h.greatest _ steps _ hw hne fun hzero => by
        obtain ⟨step, hstep, hc⟩ := stepProduct_eq_zero_iff.mp hzero
        exact hcost step hstep hc
      exact KeyedFold.mem_of_getElem? hpath

end Aggregator.FloydWarshallCalculator
