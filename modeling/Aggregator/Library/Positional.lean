import Mathlib.Algebra.Order.Floor.Semifield
import Mathlib.Tactic.Common
import Mathlib.Tactic.FieldSimp
import Mathlib.Tactic.Linarith
import Mathlib.Tactic.Positivity
import Mathlib.Tactic.Ring

/-! # Numbers with a fraction, cut to whole units

Moving the point of a number changes its whole part, unless nothing is left of it on
either side. -/

namespace Positional

variable {K : Type*} [Field K] [LinearOrder K] [IsStrictOrderedRing K]

/-- The number with `l` fraction digits, which are those of `f`. -/
def fixedPoint (K : Type*) [Field K] (b i f l : ℕ) : K := i + f / (b : K) ^ l

theorem fixedPoint_nonneg (b i f l : ℕ) : 0 ≤ fixedPoint K b i f l := by
  unfold fixedPoint
  positivity

omit [LinearOrder K] [IsStrictOrderedRing K] in
theorem fixedPoint_zero_right (b i l : ℕ) : fixedPoint K b i 0 l = i := by
  simp [fixedPoint]

theorem fixedPoint_eq_div {b : ℕ} (hb : 2 ≤ b) (i f l : ℕ) :
    fixedPoint K b i f l = ((i * b ^ l + f : ℕ) : K) / (b : K) ^ l := by
  have hpos : (0 : K) < (b : K) ^ l := pow_pos (by exact_mod_cast two_pos.trans_le hb) l
  rw [fixedPoint, eq_div_iff hpos.ne', add_mul, div_mul_cancel₀ _ hpos.ne']
  push_cast
  rfl

variable [FloorSemiring K] {b : ℕ}

theorem floor_fixedPoint_mul_pow (i f l s : ℕ) :
    ⌊fixedPoint K b i f l * (b : K) ^ s⌋₊ = i * b ^ s + f * b ^ s / b ^ l := by
  have hsplit : fixedPoint K b i f l * (b : K) ^ s =
      ((f * b ^ s : ℕ) : K) / ((b ^ l : ℕ) : K) + ((i * b ^ s : ℕ) : K) := by
    unfold fixedPoint
    push_cast
    ring
  rw [hsplit, Nat.floor_add_natCast (by positivity), Nat.floor_div_eq_div, add_comm]

theorem floor_mul_pow_eq_iff (hb : 2 ≤ b) {x : K} (hx : 0 ≤ x) {k : ℕ} (hk : k ≠ 0) :
    ⌊x * (b : K) ^ k⌋₊ = ⌊x⌋₊ ↔ x * (b : K) ^ k < 1 := by
  have hbK : (2 : K) ≤ b := by exact_mod_cast hb
  have hpow : (b : K) ≤ (b : K) ^ k := le_self_pow₀ (one_le_two.trans hbK) hk
  constructor
  · intro heq
    by_contra hge
    have hone : 1 ≤ ⌊x⌋₊ := heq ▸ Nat.le_floor (by simpa using not_lt.mp hge)
    -- the whole part is at least multiplied by the base
    have hmul : ⌊x⌋₊ * b ≤ ⌊x * (b : K) ^ k⌋₊ := by
      refine Nat.le_floor ?_
      push_cast
      exact mul_le_mul (Nat.floor_le hx) hpow (by positivity) hx
    nlinarith
  · intro hlt
    have hle : x ≤ x * (b : K) ^ k := le_mul_of_one_le_right hx (one_le_two.trans (hbK.trans hpow))
    rw [Nat.floor_eq_zero.mpr hlt, Nat.floor_eq_zero.mpr (hle.trans_lt hlt)]

/-- Moving the point changes the whole part, unless both numbers are less than one. -/
theorem floor_mul_zpow_eq_iff (hb : 2 ≤ b) {x : K} (hx : 0 ≤ x) (e : ℤ) :
    ⌊x * (b : K) ^ e⌋₊ = ⌊x⌋₊ ↔ e = 0 ∨ x < 1 ∧ x * (b : K) ^ e < 1 := by
  have hbK : (2 : K) ≤ b := by exact_mod_cast hb
  have hb1 : (1 : K) ≤ b := one_le_two.trans hbK
  have hb0 : (b : K) ≠ 0 := (zero_lt_one.trans_le hb1).ne'
  rcases lt_trichotomy e 0 with he | rfl | he
  · -- `x` is the other number with its point moved to the right
    obtain ⟨k, hk⟩ := Int.eq_ofNat_of_zero_le (neg_nonneg.mpr he.le)
    have hk0 : k ≠ 0 := by omega
    have hback : x * (b : K) ^ e * (b : K) ^ k = x := by
      rw [← zpow_natCast, ← hk, mul_assoc, ← zpow_add₀ hb0]
      simp
    have hnonneg : 0 ≤ x * (b : K) ^ e := mul_nonneg hx (zpow_nonneg b.cast_nonneg e)
    have hiff := floor_mul_pow_eq_iff hb hnonneg hk0
    rw [hback] at hiff
    have hle : x * (b : K) ^ e ≤ x :=
      mul_le_of_le_one_right hx (zpow_le_one_of_nonpos₀ hb1 he.le)
    rw [eq_comm, hiff]
    exact ⟨fun h => .inr ⟨h, hle.trans_lt h⟩, fun h => (h.resolve_left he.ne).1⟩
  · simp
  · obtain ⟨k, rfl⟩ := Int.eq_ofNat_of_zero_le he.le
    have hk0 : k ≠ 0 := by omega
    rw [zpow_natCast, floor_mul_pow_eq_iff hb hx hk0]
    have hle : x ≤ x * (b : K) ^ k := le_mul_of_one_le_right hx (one_le_pow₀ hb1)
    exact ⟨fun h => .inr ⟨hle.trans_lt h, h⟩, fun h => (h.resolve_left he.ne').2⟩

/-- A multiple `n` of the unit is reached from a smaller one by appending zeros only. -/
theorem floor_natCast_mul_zpow_eq_iff (hb : 2 ≤ b) {m n c : ℕ} (hn : 0 < n) (hmn : m ≤ n)
    (hc : 0 < c) (t : ℤ) :
    ⌊((m * c : ℕ) : K) * (b : K) ^ t⌋₊ = n * c ↔ 0 ≤ t ∧ m * b ^ t.toNat = n := by
  have hbK : (1 : K) < b := by exact_mod_cast hb
  rcases lt_or_ge t 0 with ht | ht
  · refine ⟨fun h => ?_, fun h => absurd h.1 (not_le.mpr ht)⟩
    have hlt : ((m * c : ℕ) : K) * (b : K) ^ t < ((n * c : ℕ) : K) := by
      calc ((m * c : ℕ) : K) * (b : K) ^ t ≤ ((n * c : ℕ) : K) * (b : K) ^ t := by
            have hle : ((m * c : ℕ) : K) ≤ ((n * c : ℕ) : K) := by
              exact_mod_cast Nat.mul_le_mul_right c hmn
            exact mul_le_mul_of_nonneg_right hle (zpow_nonneg (by positivity) t)
        _ < ((n * c : ℕ) : K) :=
            mul_lt_of_lt_one_right (by exact_mod_cast Nat.mul_pos hn hc)
              (zpow_lt_one_of_neg₀ hbK ht)
    have hfloor := (Nat.floor_lt' (Nat.mul_pos hn hc).ne').mpr hlt
    exact absurd h hfloor.ne
  · obtain ⟨k, rfl⟩ := Int.eq_ofNat_of_zero_le ht
    have hcast : ((m * c : ℕ) : K) * (b : K) ^ ((k : ℕ) : ℤ) = ((m * b ^ k * c : ℕ) : K) := by
      rw [zpow_natCast]
      push_cast
      ring
    rw [hcast, Nat.floor_natCast, Nat.mul_left_inj hc.ne', Int.toNat_natCast]
    simp

end Positional
