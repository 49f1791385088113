import Aggregator.Model.Algo
import Mathlib.Algebra.Order.Positive.Field
import Mathlib.Analysis.SpecialFunctions.Log.Base

/-! # Exact logarithms

On nonnegative numbers the negated logarithm turns products into sums and reverses the
order; zero becomes the infinite cost. -/

namespace Aggregator.Algo.Log2

universe u

variable {K α : Type u} [Field K] [LinearOrder K] [IsStrictOrderedRing K] [AddCommGroup α]
  [LinearOrder α]

section Monoid

variable (L : Log2 K α) {x y : K}

theorem log2_one : L.log2 1 = 0 := by
  have h : L.log2 (1 * 1) = L.log2 1 + L.log2 1 := L.map_mul one_pos one_pos
  rw [one_mul] at h
  exact left_eq_add.mp h

omit [IsStrictOrderedRing K] in
@[simp] theorem negLog2_zero : L.negLog2 0 = ⊤ := if_pos rfl

omit [IsStrictOrderedRing K] in
theorem negLog2_of_pos (hx : 0 < x) : L.negLog2 x = ((-L.log2 x : α) : F64 α) :=
  if_neg hx.ne'

@[simp] theorem negLog2_one : L.negLog2 1 = 0 := by
  rw [L.negLog2_of_pos one_pos, L.log2_one, neg_zero]
  rfl

omit [IsStrictOrderedRing K] in
theorem negLog2_eq_top_iff : L.negLog2 x = ⊤ ↔ x = 0 := by
  unfold negLog2
  split
  · rename_i h
    simp [h]
  · rename_i h
    exact iff_of_false WithTop.coe_ne_top h

theorem negLog2_mul (hx : 0 ≤ x) (hy : 0 ≤ y) :
    L.negLog2 (x * y) = L.negLog2 x + L.negLog2 y := by
  rcases hx.eq_or_lt with rfl | hx
  · simp
  · rcases hy.eq_or_lt with rfl | hy
    · simp
    · rw [L.negLog2_of_pos (mul_pos hx hy), L.negLog2_of_pos hx, L.negLog2_of_pos hy,
        L.map_mul hx hy, neg_add, WithTop.coe_add]

omit [IsStrictOrderedRing K] in
theorem log2_le_iff (hx : 0 < x) (hy : 0 < y) : L.log2 x ≤ L.log2 y ↔ x ≤ y := by
  refine ⟨fun h => not_lt.mp fun hlt => not_lt.mpr h (L.strictMono hy hlt), fun h => ?_⟩
  rcases h.eq_or_lt with rfl | h
  · exact le_rfl
  · exact (L.strictMono hx h).le

end Monoid

variable [IsOrderedAddMonoid α] (L : Log2 K α) {x y : K}

omit [IsStrictOrderedRing K] in
theorem negLog2_le_iff (hx : 0 ≤ x) (hy : 0 ≤ y) : L.negLog2 x ≤ L.negLog2 y ↔ y ≤ x := by
  rcases hy.eq_or_lt with rfl | hy
  · simp [hx]
  · rcases hx.eq_or_lt with rfl | hx
    · simp [L.negLog2_eq_top_iff, hy.ne', hy.not_ge]
    · rw [L.negLog2_of_pos hx, L.negLog2_of_pos hy, WithTop.coe_le_coe, neg_le_neg_iff,
        L.log2_le_iff hy hx]

theorem negLog2_nonneg_iff (hx : 0 ≤ x) : 0 ≤ L.negLog2 x ↔ x ≤ 1 := by
  rw [← L.negLog2_one, L.negLog2_le_iff zero_le_one hx]

end Aggregator.Algo.Log2

namespace Aggregator.Algo

/-! ## Two readings of `log2` on rational costs -/

noncomputable def Log2.real : Log2 ℚ ℝ where
  log2 x := Real.logb 2 x
  strictMono hx hxy := Real.logb_lt_logb one_lt_two (Rat.cast_pos.mpr hx) (Rat.cast_lt.mpr hxy)
  map_mul hx hy := by
    rw [Rat.cast_mul, Real.logb_mul (Rat.cast_pos.mpr hx).ne' (Rat.cast_pos.mpr hy).ne']

/-- The logarithms of positive rationals, each written as the rational it is the logarithm of.
Sums and comparisons are computed on the rationals. -/
abbrev RationalLog := Additive {x : ℚ // 0 < x}

def Log2.rational : Log2 ℚ RationalLog where
  log2 x := if h : 0 < x then Additive.ofMul ⟨x, h⟩ else 0
  strictMono hx hxy := by
    rw [dif_pos hx, dif_pos (hx.trans hxy)]
    exact hxy
  map_mul hx hy := by
    rw [dif_pos hx, dif_pos hy, dif_pos (mul_pos hx hy)]
    rfl

end Aggregator.Algo
