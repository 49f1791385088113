import Aggregator.Verification.TradeProvider.Price

/-! # The value of a number and the value that its price is computed from

The price leaves the exponent out and takes a fraction of less than two digits for
hundredths. -/

namespace Aggregator

open Positional

namespace NumberValue

/-- The value that the fields denote. -/
def value (n : NumberValue) : ℚ :=
  (n.integer.toInt + n.fraction.toNat / 10 ^ n.fractionLength.toNat) * 10 ^ n.exponent.toInt

/-- The value without the exponent and with at least two fraction digits. -/
def readValue (n : NumberValue) : ℚ :=
  fixedPoint ℚ 10 n.integer.toInt.toNat n.fraction.toNat (max n.fractionLength.toNat 2)

/-- There is no exponent, and the fraction is zero or has two digits or more. -/
def Plain (n : NumberValue) : Prop :=
  n.exponent = 0 ∧ (2 ≤ n.fractionLength.toNat ∨ n.fraction = 0)

/-- The exponent makes up for the missing digits of the fraction. -/
def Shifted (n : NumberValue) : Prop :=
  n.fraction ≠ 0 ∧ n.fractionLength.toNat < 2 ∧
    (n.integer = 0 ∧ n.exponent.toInt = n.fractionLength.toNat - 2 ∨
      n.fractionLength = 0 ∧ n.exponent = -1 ∧ (n.fraction.toNat : ℤ) = 10 * n.integer.toInt)

/-- Neither value amounts to one unit of the scale. -/
def Negligible (n : NumberValue) (scale : ℕ) : Prop :=
  n.readValue * 10 ^ scale < 1 ∧ n.value * 10 ^ scale < 1

theorem floor_readValue_mul (n : NumberValue) {scale : ℕ} (hscale : 2 ≤ scale) :
    ⌊n.readValue * 10 ^ scale⌋₊ = n.scaled scale := by
  obtain ⟨k, rfl⟩ := Nat.exists_eq_add_of_le' hscale
  obtain ⟨l, hl⟩ := Nat.exists_eq_add_of_le' (le_max_right n.fractionLength.toNat 2)
  have hl' : n.fractionLength.toNat - 2 = l := by omega
  have hcancel : n.fraction.toNat * 10 ^ (k + 2) / 10 ^ (l + 2) =
      n.fraction.toNat * 10 ^ k / 10 ^ l := by
    rw [pow_add, pow_add, ← mul_assoc]
    exact Nat.mul_div_mul_right _ _ (by decide)
  have hfloor := floor_fixedPoint_mul_pow (K := ℚ) (b := 10) n.integer.toInt.toNat
    n.fraction.toNat (l + 2) (k + 2)
  rw [hcancel] at hfloor
  rw [readValue, scaled, hl, hl', Nat.add_sub_cancel]
  exact_mod_cast hfloor

theorem value_eq {n : NumberValue} (hn : 0 ≤ n.integer) :
    n.value = fixedPoint ℚ 10 n.integer.toInt.toNat n.fraction.toNat n.fractionLength.toNat *
      10 ^ n.exponent.toInt := by
  have hnonneg := toInt_nonneg_iff.mpr hn
  have hcast : ((n.integer.toInt.toNat : ℤ) : ℚ) = n.integer.toInt := by
    rw [Int.toNat_of_nonneg hnonneg]
  rw [value, fixedPoint, ← hcast]
  norm_cast

theorem readValue_eq {n : NumberValue} (h : 2 ≤ n.fractionLength.toNat ∨ n.fraction = 0) :
    n.readValue =
      fixedPoint ℚ 10 n.integer.toInt.toNat n.fraction.toNat n.fractionLength.toNat := by
  rcases h with hlen | hzero
  · rw [readValue, max_eq_left hlen]
  · rw [readValue, hzero, UInt64.toNat_zero, fixedPoint_zero_right, fixedPoint_zero_right]

/-- A fraction of at least two digits is read as it is, so only an exponent can spoil it. -/
theorem floor_value_eq_iff_of_read {n : NumberValue} (hn : 0 ≤ n.integer)
    (h : 2 ≤ n.fractionLength.toNat ∨ n.fraction = 0) (scale : ℕ) :
    ⌊n.value * 10 ^ scale⌋₊ = ⌊n.readValue * 10 ^ scale⌋₊ ↔
      n.exponent = 0 ∨ n.Negligible scale := by
  have hvalue : n.value * 10 ^ scale = n.readValue * 10 ^ scale * 10 ^ n.exponent.toInt := by
    rw [value_eq hn, readValue_eq h]
    ring
  have hnonneg : 0 ≤ n.readValue * 10 ^ scale :=
    mul_nonneg (fixedPoint_nonneg _ _ _ _) (by positivity)
  have hiff := floor_mul_zpow_eq_iff (b := 10) (by decide) hnonneg n.exponent.toInt
  have hzero : n.exponent.toInt = 0 ↔ n.exponent = 0 := by
    rw [← Int32.toInt_inj, Int32.toInt_zero]
  rw [hzero] at hiff
  rw [Negligible, hvalue]
  exact_mod_cast hiff

/-- The equation between the digits of a short fraction, solved. -/
theorem shifted_digits_iff {i f l : ℕ} {e : ℤ} (hf : f ≠ 0) (hl : l < 2) :
    0 ≤ (2 - l + e : ℤ) ∧ (i * 10 ^ l + f) * 10 ^ (2 - l + e : ℤ).toNat = i * 100 + f ↔
      i = 0 ∧ e = l - 2 ∨ l = 0 ∧ e = -1 ∧ f = 10 * i := by
  constructor
  · rintro ⟨ht, heq⟩
    obtain ⟨t, ht⟩ := Int.eq_ofNat_of_zero_le ht
    rw [ht, Int.toNat_natCast] at heq
    -- two more zeros, or one after a digit, are more than the hundredths
    have hbound : ∀ k, k ≤ t → (i * 10 ^ l + f) * 10 ^ k ≤ i * 100 + f := by
      intro k hk
      rw [← heq]
      exact Nat.mul_le_mul_left _ (Nat.pow_le_pow_right (by decide) hk)
    have hlt : t < 2 - l := by
      by_contra hge
      have hle := hbound (2 - l) (not_lt.mp hge)
      obtain rfl | rfl : l = 0 ∨ l = 1 := by omega
      · omega
      · omega
    obtain ⟨rfl, rfl⟩ | ⟨rfl, rfl⟩ | ⟨rfl, rfl⟩ :
        l = 0 ∧ t = 0 ∨ l = 0 ∧ t = 1 ∨ l = 1 ∧ t = 0 := by omega
    · omega
    · omega
    · omega
  · rintro (⟨rfl, rfl⟩ | ⟨rfl, rfl, rfl⟩)
    · simp
    · refine ⟨by decide, ?_⟩
      rw [show ((2 : ℤ) - (0 : ℕ) + -1).toNat = 1 by decide]
      ring

theorem scaled_of_short {n : NumberValue} (hlen : n.fractionLength.toNat < 2) (k : ℕ) :
    n.scaled (k + 2) = (n.integer.toInt.toNat * 100 + n.fraction.toNat) * 10 ^ k := by
  rw [scaled, Nat.sub_eq_zero_of_le hlen.le, Nat.add_sub_cancel, pow_zero, Nat.div_one]
  ring

theorem fraction_toNat_ne_zero {n : NumberValue} (hf : n.fraction ≠ 0) : n.fraction.toNat ≠ 0 :=
  fun h => hf (UInt64.toNat_inj.mp h)

/-- A short fraction is read as hundredths, which only a matching exponent puts right. -/
theorem floor_value_eq_iff_of_short {n : NumberValue} (hn : 0 ≤ n.integer)
    (hlen : n.fractionLength.toNat < 2) (hf : n.fraction ≠ 0) {scale : ℕ} (hscale : 2 ≤ scale) :
    ⌊n.value * 10 ^ scale⌋₊ = ⌊n.readValue * 10 ^ scale⌋₊ ↔ n.Shifted := by
  obtain ⟨k, rfl⟩ := Nat.exists_eq_add_of_le' hscale
  have hf' := fraction_toNat_ne_zero hf
  have hvalue : n.value * 10 ^ (k + 2) =
      (((n.integer.toInt.toNat * 10 ^ n.fractionLength.toNat + n.fraction.toNat) * 10 ^ k : ℕ) :
        ℚ) * ((10 : ℕ) : ℚ) ^ (2 - n.fractionLength.toNat + n.exponent.toInt : ℤ) := by
    rw [value_eq hn, fixedPoint_eq_div (by decide), zpow_add₀ (by norm_num),
      zpow_sub₀ (by norm_num), zpow_natCast]
    push_cast
    ring
  have hle : n.integer.toInt.toNat * 10 ^ n.fractionLength.toNat + n.fraction.toNat ≤
      n.integer.toInt.toNat * 100 + n.fraction.toNat :=
    Nat.add_le_add_right (Nat.mul_le_mul_left _ (Nat.pow_le_pow_right (by decide) hlen.le)) _
  rw [floor_readValue_mul n hscale, scaled_of_short hlen, hvalue,
    floor_natCast_mul_zpow_eq_iff (by decide) (by omega) hle (by positivity),
    shifted_digits_iff hf' hlen]
  have hnonneg := toInt_nonneg_iff.mpr hn
  have hinteger : n.integer = 0 ↔ n.integer.toInt.toNat = 0 := by
    rw [← Int64.toInt_inj, Int64.toInt_zero]
    omega
  have hlength : n.fractionLength = 0 ↔ n.fractionLength.toNat = 0 := by
    rw [← UInt32.toNat_inj, UInt32.toNat_zero]
  have hexponent : n.exponent = -1 ↔ n.exponent.toInt = -1 := by
    rw [← Int32.toInt_inj]
    rfl
  simp only [Shifted, ne_eq, hf, hlen, hinteger, hlength, hexponent, not_false_eq_true, true_and]
  omega

/-- The price is that of the denoted value in three cases: nothing is left out, the exponent
makes up for it, or there is nothing to tell apart. -/
theorem floor_value_eq_iff {n : NumberValue} (hn : 0 ≤ n.integer) {scale : ℕ}
    (hscale : 2 ≤ scale) :
    ⌊n.value * 10 ^ scale⌋₊ = ⌊n.readValue * 10 ^ scale⌋₊ ↔
      n.Plain ∨ n.Shifted ∨ n.Negligible scale := by
  by_cases h : 2 ≤ n.fractionLength.toNat ∨ n.fraction = 0
  · have hshifted : ¬ n.Shifted := by
      rintro ⟨hf, hlen, -⟩
      exact h.elim (fun hlen' => absurd hlen (not_lt.mpr hlen')) hf
    rw [floor_value_eq_iff_of_read hn h]
    simp [Plain, h, hshifted]
  · have hlen : n.fractionLength.toNat < 2 := not_le.mp fun hle => h (.inl hle)
    have hf : n.fraction ≠ 0 := fun hzero => h (.inr hzero)
    have hnegligible : ¬ n.Negligible scale := by
      rintro ⟨hread, -⟩
      obtain ⟨k, rfl⟩ := Nat.exists_eq_add_of_le' hscale
      have hzero := Nat.floor_eq_zero.mpr hread
      rw [floor_readValue_mul n hscale, scaled_of_short hlen] at hzero
      have hf' := fraction_toNat_ne_zero hf
      simp at hzero
      omega
    rw [floor_value_eq_iff_of_short hn hlen hf hscale]
    simp [Plain, h, hnegligible]

end NumberValue

end Aggregator
