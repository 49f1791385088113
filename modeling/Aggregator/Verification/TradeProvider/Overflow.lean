import Aggregator.Model.Runtime
import Aggregator.Verification.TradeProvider.Price

/-! # Overflow at the scale of the trade provider

Only a negative integer and a fraction of more than 40 digits leave the range of `u128`. -/

namespace Aggregator

open TradeProviderImpl

variable {ε ε' : Type} {build : Build}

theorem scale_toNat : SCALE.toNat = 12 := rfl

theorem scaled_le (n : NumberValue) : n.scaled 12 ≤ u128Max := by
  have hinteger : n.integer.toInt.toNat < 2 ^ 63 := by
    have hlt := n.integer.toInt_lt
    omega
  have hfraction := n.fraction.toNat_lt
  have hquotient : n.fraction.toNat * 10 ^ (12 - 2) / 10 ^ (n.fractionLength.toNat - 2) ≤
      n.fraction.toNat * 10 ^ (12 - 2) := Nat.div_le_self _ _
  unfold NumberValue.scaled u128Max
  omega

/-- The other fields are too small to overflow at this scale. -/
theorem inRange_scale_iff {n : NumberValue} :
    n.InRange SCALE.toNat ↔ 0 ≤ n.integer ∧ n.fractionLength ≤ 40 := by
  rw [scale_toNat]
  constructor
  · rintro ⟨hfits, -⟩
    exact ⟨hfits.integer_nonneg, hfits.fractionLength_le⟩
  · rintro ⟨hinteger, hlength⟩
    have hfraction := n.fraction.toNat_lt
    have hproduct : n.fraction.toNat * 10 ^ (12 - 2) ≤ u128Max := by
      unfold u128Max
      omega
    exact ⟨⟨hinteger, by decide, hlength, hproduct⟩, scaled_le n⟩

/-- In range, every build computes the price in unbounded integers. -/
theorem parsePrice_of_found {parseJson : String → Except ε' JsonValue} {text : String}
    {targetCurrency : List UInt8}
    (h : ∀ n, findNumber (parseJson text) targetCurrency = some n →
      0 ≤ n.integer ∧ n.fractionLength ≤ 40) (build : Build) :
    (parsePrice build parseJson text targetCurrency SCALE : Exec ε (Option ℕ)) =
      .ok ((findNumber (parseJson text) targetCurrency).map fun n => n.scaled SCALE.toNat) := by
  cases hfind : findNumber (parseJson text) targetCurrency with
  | none => exact parsePrice_of_none hfind
  | some n =>
      apply (parsePrice_eq_some_iff hfind).mpr
      exact scaledPrice_of_inRange (by decide) (inRange_scale_iff.mpr (h n hfind))

/-- Every build computes the price in unbounded integers if and only if the number found, if
any, is not negative and has at most 40 fraction digits. -/
theorem parsePrice_scale_iff (parseJson : String → Except ε' JsonValue) (text : String)
    (targetCurrency : List UInt8) :
    (∀ build, (parsePrice build parseJson text targetCurrency SCALE : Exec ε (Option ℕ)) =
      .ok ((findNumber (parseJson text) targetCurrency).map fun n => n.scaled SCALE.toNat)) ↔
    ∀ n, findNumber (parseJson text) targetCurrency = some n →
      0 ≤ n.integer ∧ n.fractionLength ≤ 40 := by
  refine ⟨fun h n hfind => ?_, parsePrice_of_found⟩
  have hok := h ⟨true, true, true⟩
  rw [hfind] at hok
  have hprice := (parsePrice_eq_some_iff hfind).mp hok
  exact inRange_scale_iff.mp (inRange_of_scaledPrice rfl (by decide) hprice)

/-! ## Numbers out of range -/

/-- A parser that reads the number under the key `USDT`. -/
def parseNumber (n : NumberValue) (_ : String) : Except Unit JsonValue :=
  .ok (.object [(['U', 'S', 'D', 'T'], .number n)])

/-- The price of -1: the cast takes it for a number close to the largest. -/
theorem parsePrice_negative :
    (parsePrice ⟨true, true, true⟩ (parseNumber ⟨-1, 0, 0, 0⟩) "\x7b\"USDT\": -1\x7d" usdt SCALE :
      Exec PEmpty (Option ℕ)) = .error (.panic .overflow) ∧
    (parsePrice ⟨false, true, true⟩ (parseNumber ⟨-1, 0, 0, 0⟩) "\x7b\"USDT\": -1\x7d" usdt SCALE :
      Exec PEmpty (Option ℕ)) = .ok (some (2 ^ 128 - 10 ^ 12)) ∧
    ¬ ∀ build, (parsePrice build (parseNumber ⟨-1, 0, 0, 0⟩) "\x7b\"USDT\": -1\x7d" usdt SCALE :
      Exec PEmpty (Option ℕ)) =
        .ok ((findNumber (parseNumber ⟨-1, 0, 0, 0⟩ "\x7b\"USDT\": -1\x7d") usdt).map
          fun n => n.scaled SCALE.toNat) := by
  refine ⟨by rfl, by rfl, fun h => ?_⟩
  cases h ⟨true, true, true⟩

/-! ## The release build -/

theorem two_pow_dvd_ten_pow_iff {m k : ℕ} : 2 ^ m ∣ 10 ^ k ↔ m ≤ k := by
  have hcoprime : Nat.Coprime (2 ^ m) (5 ^ k) := Nat.Coprime.pow m k (by decide)
  rw [show 10 = 2 * 5 by rfl, mul_pow, ← Nat.pow_dvd_pow_iff_le_right (x := 2) (by decide)]
  exact ⟨hcoprime.dvd_of_dvd_mul_right, fun h => h.mul_right _⟩

theorem U128.ofExact_of_unchecked (hchecks : build.overflowChecks = false) (n : ℕ) :
    (U128.ofExact build n : Exec ε ℕ) = .ok (n % 2 ^ 128) :=
  if_neg (by simp [hchecks])

/-- A wrapped power of ten is zero from the 128th on, and the division by it panics. -/
theorem scaledPrice_noPanic_iff (hchecks : build.overflowChecks = false) {n : NumberValue}
    {scale : UInt32} :
    Exec.NoPanic (scaledPrice build n scale : Exec ε ℕ) ↔ n.fractionLength.toNat < 130 := by
  have hzero : 10 ^ (n.fractionLength.toNat - 2) % 2 ^ 128 = 0 ↔ 130 ≤ n.fractionLength.toNat := by
    rw [← Nat.dvd_iff_mod_eq_zero, two_pow_dvd_ten_pow_iff]
    omega
  have hsub : (subU32 build scale 2 : Exec ε UInt32) = .ok (scale - 2) :=
    if_neg (by simp [hchecks])
  simp only [scaledPrice, U128.pow, U128.mul, U128.add, U128.ofExact_of_unchecked hchecks,
    Exec.ok_bind, hsub]
  by_cases hlength : 130 ≤ n.fractionLength.toNat
  · rw [U128.div, if_pos (hzero.mpr hlength)]
    refine ⟨fun h => absurd rfl (h .divideByZero trivial), fun hlt => ?_⟩
    omega
  · rw [U128.div_of_ne_zero (mt hzero.mp hlength), Exec.ok_bind]
    exact ⟨fun _ => not_le.mp hlength, fun _ => Exec.Avoids.ok _⟩

end Aggregator
