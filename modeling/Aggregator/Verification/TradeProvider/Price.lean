import Aggregator.Library.Positional
import Aggregator.Model.TradeProvider

/-! # The price of one number

Where the intermediate results fit into a `u128` the price is the sum of its two parts; where
one of them does not, a build that checks for overflow panics. -/

namespace Aggregator

variable {ε : Type} {build : Build}

/-! ## Arithmetic of `u128` -/

theorem ten_pow_le_u128Max_iff {k : ℕ} : 10 ^ k ≤ u128Max ↔ k ≤ 38 := by
  constructor
  · intro h
    by_contra hk
    have hle : 10 ^ 39 ≤ 10 ^ k := Nat.pow_le_pow_right (by decide) (by omega)
    have hmax : u128Max < 10 ^ 39 := by decide
    omega
  · intro h
    calc 10 ^ k ≤ 10 ^ 38 := Nat.pow_le_pow_right (by decide) h
      _ ≤ u128Max := by decide

theorem toInt_nonneg_iff {i : Int64} : 0 ≤ i.toInt ↔ 0 ≤ i := by
  rw [Int64.le_iff_toInt_le, Int64.toInt_zero]

namespace U128

theorem ofExact_of_le {n : ℕ} (h : n ≤ u128Max) : (ofExact build n : Exec ε ℕ) = .ok n := by
  have hlt : n < 2 ^ 128 := Nat.lt_of_le_pred (by decide) h
  rw [ofExact, if_neg (fun hover => absurd h (not_le.mpr hover.2)), Nat.mod_eq_of_lt hlt]

theorem ofExact_eq_ok_iff (hchecks : build.overflowChecks) {n m : ℕ} :
    (ofExact build n : Exec ε ℕ) = .ok m ↔ n ≤ u128Max ∧ m = n := by
  constructor
  · intro h
    by_cases hn : n ≤ u128Max
    · rw [ofExact_of_le hn] at h
      cases h
      exact ⟨hn, rfl⟩
    · rw [ofExact, if_pos ⟨hchecks, not_le.mp hn⟩] at h
      cases h
  · rintro ⟨hn, rfl⟩
    exact ofExact_of_le hn

theorem div_of_ne_zero {a b : ℕ} (hb : b ≠ 0) : (div a b : Exec ε ℕ) = .ok (a / b) := if_neg hb

theorem ofInt64_of_nonneg {i : Int64} (hi : 0 ≤ i) : ofInt64 i = i.toInt.toNat := by
  have hnonneg := toInt_nonneg_iff.mpr hi
  have hlt := i.toInt_lt
  unfold ofInt64
  omega

/-- A negative integer becomes a number that no multiplication leaves in range. -/
theorem ofInt64_mul_le_iff {i : Int64} {c : ℕ} (hc : 2 ≤ c) :
    ofInt64 i * c ≤ u128Max ↔ 0 ≤ i ∧ i.toInt.toNat * c ≤ u128Max := by
  by_cases hi : 0 ≤ i
  · rw [ofInt64_of_nonneg hi]
    exact ⟨fun h => ⟨hi, h⟩, fun h => h.2⟩
  · refine ⟨fun h => ?_, fun h => absurd h.1 hi⟩
    have hneg : i.toInt < 0 := not_le.mp (mt toInt_nonneg_iff.mp hi)
    have hle := i.le_toInt
    have hlarge : 2 ^ 127 ≤ ofInt64 i := by
      unfold ofInt64
      omega
    have hmul : 2 ^ 127 * 2 ≤ ofInt64 i * c := Nat.mul_le_mul hlarge hc
    unfold u128Max at h
    omega

end U128

theorem subU32_of_le {a b : UInt32} (h : b ≤ a) :
    (subU32 build a b : Exec ε UInt32) = .ok (a - b) :=
  if_neg fun hlt => absurd h (UInt32.not_le.mpr hlt.2)

/-! ## The two parts of a price -/

namespace NumberValue

/-- The price in units of the scale: the integer, and the fraction after two digits. -/
def scaled (n : NumberValue) (scale : ℕ) : ℕ :=
  n.integer.toInt.toNat * 10 ^ scale +
    n.fraction.toNat * 10 ^ (scale - 2) / 10 ^ (n.fractionLength.toNat - 2)

/-- The powers of ten and the product with the fraction are numbers of `u128`. -/
structure Fits (n : NumberValue) (scale : ℕ) : Prop where
  integer_nonneg : 0 ≤ n.integer
  scale_le : scale ≤ 38
  fractionLength_le : n.fractionLength ≤ 40
  fraction_le : n.fraction.toNat * 10 ^ (scale - 2) ≤ u128Max

/-- The result is a number of `u128` as well. -/
def InRange (n : NumberValue) (scale : ℕ) : Prop := n.Fits scale ∧ n.scaled scale ≤ u128Max

theorem exponent_le_iff {n : NumberValue} :
    n.fractionLength.toNat - 2 ≤ 38 ↔ n.fractionLength ≤ 40 := by
  rw [UInt32.le_iff_toNat_le]
  simp

end NumberValue

variable {n : NumberValue} {scale : UInt32}

/-- Where everything fits, every build computes the two parts and adds them. -/
theorem scaledPrice_of_inRange (hscale : 2 ≤ scale) (h : n.InRange scale.toNat) :
    (scaledPrice build n scale : Exec ε ℕ) = .ok (n.scaled scale.toNat) := by
  obtain ⟨hfits, hle⟩ := h
  have hscale' : scale.toNat - 2 ≤ 38 := (Nat.sub_le _ _).trans hfits.scale_le
  have hexp := NumberValue.exponent_le_iff.mpr hfits.fractionLength_le
  have hten : (10 : ℕ) ^ (n.fractionLength.toNat - 2) ≠ 0 := by positivity
  have hinteger : n.integer.toInt.toNat * 10 ^ scale.toNat ≤ u128Max :=
    (Nat.le_add_right _ _).trans hle
  simp only [scaledPrice, U128.pow, U128.mul, U128.add, subU32_of_le hscale,
    UInt32.toNat_sub_of_le _ _ hscale, UInt32.reduceToNat,
    U128.ofInt64_of_nonneg hfits.integer_nonneg,
    U128.ofExact_of_le (ten_pow_le_u128Max_iff.mpr hfits.scale_le), U128.ofExact_of_le hinteger,
    U128.ofExact_of_le (ten_pow_le_u128Max_iff.mpr hscale'), U128.ofExact_of_le hfits.fraction_le,
    U128.ofExact_of_le (ten_pow_le_u128Max_iff.mpr hexp), U128.div_of_ne_zero hten, Exec.ok_bind]
  exact U128.ofExact_of_le hle

/-- A build that checks for overflow returns a price only where everything fits. -/
theorem inRange_of_scaledPrice (hchecks : build.overflowChecks) (hscale : 2 ≤ scale) {p : ℕ}
    (h : (scaledPrice build n scale : Exec ε ℕ) = .ok p) : n.InRange scale.toNat := by
  have hten : (10 : ℕ) ^ (n.fractionLength.toNat - 2) ≠ 0 := by positivity
  have hunit : 2 ≤ 10 ^ scale.toNat := by
    have hle : 10 ^ 1 ≤ 10 ^ scale.toNat :=
      Nat.pow_le_pow_right (by decide) (one_le_two.trans (UInt32.le_iff_toNat_le.mp hscale))
    omega
  simp only [scaledPrice, U128.pow, U128.mul, U128.add, Exec.bind_eq_ok_iff,
    U128.ofExact_eq_ok_iff hchecks, subU32_of_le hscale] at h
  obtain ⟨unit, ⟨hpow, rfl⟩, integer, ⟨hinteger, rfl⟩, _, ⟨⟩, hundredth, ⟨-, rfl⟩, fraction,
    ⟨hfraction, rfl⟩, power, ⟨hexp, rfl⟩, quotient, hquotient, hsum, -⟩ := h
  rw [U128.div_of_ne_zero hten] at hquotient
  cases hquotient
  rw [UInt32.toNat_sub_of_le _ _ hscale] at hfraction hsum
  obtain ⟨hnonneg, -⟩ := (U128.ofInt64_mul_le_iff hunit).mp hinteger
  rw [U128.ofInt64_of_nonneg hnonneg] at hsum
  have hfits : n.Fits scale.toNat :=
    ⟨hnonneg, ten_pow_le_u128Max_iff.mp hpow, NumberValue.exponent_le_iff.mp
      (ten_pow_le_u128Max_iff.mp hexp), hfraction⟩
  exact ⟨hfits, hsum⟩

/-- Where overflow is checked or does not occur, the prices are those in range. -/
theorem scaledPrice_eq_ok_iff (hbuild : build.overflowChecks ∨ n.InRange scale.toNat)
    (hscale : 2 ≤ scale) {p : ℕ} :
    (scaledPrice build n scale : Exec ε ℕ) = .ok p ↔
      n.InRange scale.toNat ∧ p = n.scaled scale.toNat := by
  constructor
  · intro h
    have hrange := hbuild.elim (fun hchecks => inRange_of_scaledPrice hchecks hscale h) id
    rw [scaledPrice_of_inRange hscale hrange] at h
    cases h
    exact ⟨hrange, rfl⟩
  · rintro ⟨hrange, rfl⟩
    exact scaledPrice_of_inRange hscale hrange

/-! ## The price of a text -/

variable {ε' : Type} {parseJson : String → Except ε' JsonValue} {text : String}
  {targetCurrency : List UInt8}

theorem parsePrice_of_none (h : findNumber (parseJson text) targetCurrency = none) :
    (parsePrice build parseJson text targetCurrency scale : Exec ε (Option ℕ)) = .ok none := by
  simp [parsePrice, h]

theorem parsePrice_eq_some_iff (h : findNumber (parseJson text) targetCurrency = some n) {p : ℕ} :
    (parsePrice build parseJson text targetCurrency scale : Exec ε (Option ℕ)) = .ok (some p) ↔
      (scaledPrice build n scale : Exec ε ℕ) = .ok p := by
  rw [parsePrice, h, Exec.bind_eq_ok_iff]
  constructor
  · rintro ⟨p, hp, ⟨⟩⟩
    exact hp
  · intro hp
    exact ⟨p, hp, rfl⟩

theorem parsePrice_eq_none_iff :
    (parsePrice build parseJson text targetCurrency scale : Exec ε (Option ℕ)) = .ok none ↔
      findNumber (parseJson text) targetCurrency = none := by
  refine ⟨fun h => ?_, parsePrice_of_none⟩
  cases hfind : findNumber (parseJson text) targetCurrency with
  | none => rfl
  | some n =>
      rw [parsePrice, hfind, Exec.bind_eq_ok_iff] at h
      obtain ⟨p, -, ⟨⟩⟩ := h

end Aggregator
