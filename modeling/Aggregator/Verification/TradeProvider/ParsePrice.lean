import Aggregator.Verification.TradeProvider.Lookup

/-! # The price of the value under the target currency

The price is the one of the value for plain numbers under ASCII names; exponents, fractions
of one digit and other names are misread. -/

namespace Aggregator

/-- The price that the value has at the scale, and none where there is no number. Negative
numbers and prices beyond `u128` are left open. -/
def IsPriceOf {ε : Type} (value : Option (Option ℚ)) (scale : ℕ) (result : Exec ε (Option ℕ)) :
    Prop :=
  match value with
  | some (some v) => 0 ≤ v → ⌊v * 10 ^ scale⌋₊ ≤ u128Max →
      result = .ok (some ⌊v * 10 ^ scale⌋₊)
  | _ => result = .ok none

/-- The number at the currency's key fits, and nothing of its value is lost; where there is no
number, none is taken from another key. A name that is not ASCII is never its own key. -/
def Readable {ε : Type} (val : Except ε JsonValue) (doc : Option Document)
    (currency : List Char) (scale : ℕ) : Prop :=
  match valueAt doc currency with
  | some (some v) => 0 ≤ v → ⌊v * 10 ^ scale⌋₊ ≤ u128Max →
      IsAscii currency ∧ ∃ n, NumberAt val currency n ∧ n.Fits scale ∧
        (n.Plain ∨ n.Shifted ∨ n.Negligible scale)
  | _ => IsAscii currency ∨ ∀ v, valueAt doc (misread currency) ≠ some (some v)

theorem isPriceOf_iff_of_not_number {ε : Type} {value : Option (Option ℚ)} {scale : ℕ}
    {result : Exec ε (Option ℕ)} (h : ∀ v, value ≠ some (some v)) :
    IsPriceOf value scale result ↔ result = .ok none := by
  rcases value with _ | _ | v
  · rfl
  · rfl
  · exact absurd rfl (h v)

theorem readable_iff_of_number {ε : Type} {val : Except ε JsonValue} {doc : Option Document}
    {currency : List Char} {scale : ℕ} {v : ℚ} (h : valueAt doc currency = some (some v)) :
    Readable val doc currency scale ↔ (0 ≤ v → ⌊v * 10 ^ scale⌋₊ ≤ u128Max →
      IsAscii currency ∧ ∃ n, NumberAt val currency n ∧ n.Fits scale ∧
        (n.Plain ∨ n.Shifted ∨ n.Negligible scale)) := by
  rw [Readable, h]

theorem readable_iff_of_not_number {ε : Type} {val : Except ε JsonValue} {doc : Option Document}
    {currency : List Char} {scale : ℕ} (h : ∀ v, valueAt doc currency ≠ some (some v)) :
    Readable val doc currency scale ↔
      IsAscii currency ∨ ∀ v, valueAt doc (misread currency) ≠ some (some v) := by
  unfold Readable
  split
  · rename_i v hvalue
    exact (h v hvalue).elim
  · rfl

section Text

variable {ε ε' : Type} {parseJson : String → Except ε' JsonValue}
  {meaning : String → Option Document} {text : String} {currency : List Char} {scale : UInt32}
  {n : NumberValue} {v : ℚ}

/-- In ASCII the number found is the one at the currency's own key. -/
theorem findNumber_utf8_eq_some_iff (hascii : IsAscii currency) :
    findNumber (parseJson text) (utf8 currency) = some n ↔
      NumberAt (parseJson text) currency n := by
  rw [findNumber_eq_some_iff, asChars_utf8 hascii]

/-- In ASCII the number found denotes the value. -/
theorem value_of_isAscii (hparse : Parses parseJson meaning) (hascii : IsAscii currency)
    (hvalue : valueAt (meaning text) currency = some (some v)) (hv : 0 ≤ v)
    (hfind : findNumber (parseJson text) (utf8 currency) = some n) : n.value = v := by
  rw [← asChars_utf8 hascii] at hvalue
  obtain ⟨n', hfind', hn'⟩ := exists_findNumber hparse hvalue
  rw [hfind] at hfind'
  cases hfind'
  exact hn' hv

/-- In ASCII the fields of a number that is not negative decide whether its price is that of
the value. -/
theorem scaled_eq_iff (hparse : Parses parseJson meaning) (hscale : 2 ≤ scale)
    (hascii : IsAscii currency) (hvalue : valueAt (meaning text) currency = some (some v))
    (hv : 0 ≤ v) (hfind : findNumber (parseJson text) (utf8 currency) = some n)
    (hn : 0 ≤ n.integer) :
    n.scaled scale.toNat = ⌊v * 10 ^ scale.toNat⌋₊ ↔
      n.Plain ∨ n.Shifted ∨ n.Negligible scale.toNat := by
  have hscale' : 2 ≤ scale.toNat := UInt32.le_iff_toNat_le.mp hscale
  have hnv := value_of_isAscii hparse hascii hvalue hv hfind
  subst hnv
  rw [← NumberValue.floor_value_eq_iff hn hscale', ← n.floor_readValue_mul hscale', eq_comm]

theorem parsePrice_of_readable (hparse : Parses parseJson meaning) (hscale : 2 ≤ scale)
    (build : Build)
    (h : Readable (parseJson text) (meaning text) currency scale.toNat) :
    IsPriceOf (valueAt (meaning text) currency) scale.toNat
      (parsePrice build parseJson text (utf8 currency) scale : Exec ε (Option ℕ)) := by
  by_cases hnumber : ∃ v, valueAt (meaning text) currency = some (some v)
  · obtain ⟨v, hvalue⟩ := hnumber
    rw [readable_iff_of_number hvalue] at h
    rw [hvalue]
    intro hv hle
    obtain ⟨hascii, n, hat, hfits, hreads⟩ := h hv hle
    have hfind := (findNumber_utf8_eq_some_iff hascii).mpr hat
    have hscaled := (scaled_eq_iff hparse hscale hascii hvalue hv hfind
      hfits.integer_nonneg).mpr hreads
    rw [parsePrice_eq_some_iff hfind, ← hscaled]
    exact scaledPrice_of_inRange hscale ⟨hfits, hscaled ▸ hle⟩
  · have hvalue := not_exists.mp hnumber
    rw [readable_iff_of_not_number hvalue] at h
    rw [isPriceOf_iff_of_not_number hvalue, parsePrice_eq_none_iff]
    refine findNumber_eq_none hparse (h.elim (fun hascii => ?_) id)
    rwa [asChars_utf8 hascii]

/-- Where overflow is checked or does not occur, the price is right by accident only: when the
numbers at the two keys of a name that is not ASCII come to the same. -/
theorem readable_of_parsePrice (hparse : Parses parseJson meaning) (hscale : 2 ≤ scale)
    (hbuild : build.overflowChecks ∨ (∀ n, NumberAt (parseJson text) (misread currency) n →
      n.InRange scale.toNat))
    (hkeys : IsAscii currency ∨ ∀ v w, valueAt (meaning text) currency = some (some v) →
      valueAt (meaning text) (misread currency) ≠ some (some w))
    (h : IsPriceOf (valueAt (meaning text) currency) scale.toNat
      (parsePrice build parseJson text (utf8 currency) scale : Exec ε (Option ℕ))) :
    Readable (parseJson text) (meaning text) currency scale.toNat := by
  by_cases hnumber : ∃ v, valueAt (meaning text) currency = some (some v)
  · obtain ⟨v, hvalue⟩ := hnumber
    rw [readable_iff_of_number hvalue]
    intro hv hle
    rw [hvalue] at h
    have hok := h hv hle
    cases hfind : findNumber (parseJson text) (utf8 currency) with
    | none =>
        rw [parsePrice_of_none hfind] at hok
        cases hok
    | some n =>
        rw [parsePrice_eq_some_iff hfind] at hok
        have hbuild' := hbuild.imp_right fun hrange =>
          hrange n (findNumber_eq_some_iff.mp hfind)
        obtain ⟨hrange, hscaled⟩ := (scaledPrice_eq_ok_iff hbuild' hscale).mp hok
        have hascii : IsAscii currency := by
          refine hkeys.elim id fun hnone => absurd hfind ?_
          rw [findNumber_eq_none hparse fun w => hnone v w hvalue]
          simp
        exact ⟨hascii, n, (findNumber_utf8_eq_some_iff hascii).mp hfind, hrange.1,
          (scaled_eq_iff hparse hscale hascii hvalue hv hfind hrange.1.integer_nonneg).mp
            hscaled.symm⟩
  · have hvalue := not_exists.mp hnumber
    rw [isPriceOf_iff_of_not_number hvalue, parsePrice_eq_none_iff] at h
    rw [readable_iff_of_not_number hvalue]
    refine .inr fun w hw => ?_
    obtain ⟨n, hfind, -⟩ := exists_findNumber hparse hw
    rw [h] at hfind
    cases hfind

/-- A readable number has the price of the value in every build. The other way around where
overflow is checked, or does not occur, and a name that is not ASCII does not have a number
under both of its keys. -/
theorem parsePrice_isPriceOf_iff (hparse : Parses parseJson meaning) (hscale : 2 ≤ scale)
    (build : Build) (text : String) (currency : List Char) :
    (Readable (parseJson text) (meaning text) currency scale.toNat →
      IsPriceOf (valueAt (meaning text) currency) scale.toNat
        (parsePrice build parseJson text (utf8 currency) scale : Exec ε (Option ℕ))) ∧
    (build.overflowChecks ∨ (∀ n, NumberAt (parseJson text) (misread currency) n →
        n.InRange scale.toNat) →
      IsAscii currency ∨ (∀ v w, valueAt (meaning text) currency = some (some v) →
        valueAt (meaning text) (misread currency) ≠ some (some w)) →
      IsPriceOf (valueAt (meaning text) currency) scale.toNat
        (parsePrice build parseJson text (utf8 currency) scale : Exec ε (Option ℕ)) →
      Readable (parseJson text) (meaning text) currency scale.toNat) :=
  ⟨parsePrice_of_readable hparse hscale build,
    fun hbuild hkeys => readable_of_parsePrice hparse hscale hbuild hkeys⟩

end Text

/-! ## A fraction of one digit -/

/-- A response with a price of 12.5. -/
def shortText : String := "\x7b\"USDT\": 12.5\x7d"

def shortNumber : NumberValue := ⟨12, 5, 1, 0⟩

def shortName : List Char := ['U', 'S', 'D', 'T']

def shortMeaning (text : String) : Option Document :=
  if text = shortText then some [(shortName, some (25 / 2))] else none

/-- A parser of the one text. -/
def parseShort (text : String) : Except Unit JsonValue :=
  if text = shortText then .ok (.object [(shortName, .number shortNumber)]) else .error ()

theorem value_shortNumber : shortNumber.value = 25 / 2 := by
  have hinteger : shortNumber.integer.toInt = 12 := by decide
  have hfraction : shortNumber.fraction.toNat = 5 := rfl
  have hlength : shortNumber.fractionLength.toNat = 1 := rfl
  have hexponent : shortNumber.exponent.toInt = 0 := by decide
  rw [NumberValue.value, hinteger, hfraction, hlength, hexponent]
  norm_num

theorem parses_parseShort : Parses parseShort shortMeaning where
  object text doc h := by
    unfold shortMeaning at h
    split at h
    · rename_i htext
      cases h
      exact ⟨_, if_pos htext, .cons ⟨rfl, fun _ => value_shortNumber⟩ .nil⟩
    · cases h
  other text h obj := by
    unfold shortMeaning at h
    split at h
    · cases h
    · rename_i htext
      rw [parseShort, if_neg htext]
      simp

theorem parsePrice_isPriceOf_iff_short :
    (Readable (parseShort shortText) (shortMeaning shortText) shortName
        TradeProviderImpl.SCALE.toNat →
      IsPriceOf (valueAt (shortMeaning shortText) shortName) TradeProviderImpl.SCALE.toNat
        (parsePrice ⟨true, true, true⟩ parseShort shortText (utf8 shortName)
          TradeProviderImpl.SCALE : Exec PEmpty (Option ℕ))) ∧
    ((⟨true, true, true⟩ : Build).overflowChecks ∨
        (∀ n, NumberAt (parseShort shortText) (misread shortName) n →
          n.InRange TradeProviderImpl.SCALE.toNat) →
      IsAscii shortName ∨ (∀ v w, valueAt (shortMeaning shortText) shortName = some (some v) →
        valueAt (shortMeaning shortText) (misread shortName) ≠ some (some w)) →
      IsPriceOf (valueAt (shortMeaning shortText) shortName) TradeProviderImpl.SCALE.toNat
        (parsePrice ⟨true, true, true⟩ parseShort shortText (utf8 shortName)
          TradeProviderImpl.SCALE : Exec PEmpty (Option ℕ)) →
      Readable (parseShort shortText) (shortMeaning shortText) shortName
        TradeProviderImpl.SCALE.toNat) :=
  parsePrice_isPriceOf_iff parses_parseShort (by decide) ⟨true, true, true⟩ shortText shortName

/-- The price is 12.05 in every build. -/
theorem parsePrice_short :
    Parses parseShort shortMeaning ∧
      valueAt (shortMeaning shortText) shortName = some (some (25 / 2)) ∧
      ∀ build, (parsePrice build parseShort shortText (utf8 shortName) 12 :
          Exec PEmpty (Option ℕ)) = .ok (some 12050000000000) ∧
        ¬ IsPriceOf (valueAt (shortMeaning shortText) shortName) 12
          (parsePrice build parseShort shortText (utf8 shortName) 12 :
            Exec PEmpty (Option ℕ)) := by
  have hrange : shortNumber.InRange 12 :=
    ⟨⟨by decide, by decide, by decide, by decide⟩, by decide⟩
  have hfind : findNumber (parseShort shortText) (utf8 shortName) = some shortNumber := rfl
  have hprice (build : Build) : (parsePrice build parseShort shortText (utf8 shortName) 12 :
      Exec PEmpty (Option ℕ)) = .ok (some 12050000000000) := by
    rw [parsePrice_eq_some_iff hfind]
    exact scaledPrice_of_inRange (by decide) hrange
  have hvalue : valueAt (shortMeaning shortText) shortName = some (some (25 / 2)) := by
    simp [valueAt, shortMeaning]
  refine ⟨parses_parseShort, hvalue, fun build => ⟨hprice build, fun h => ?_⟩⟩
  rw [hvalue, hprice] at h
  have hfloor : ⌊(25 / 2 : ℚ) * 10 ^ 12⌋₊ = 12500000000000 := by norm_num
  have hprice' := h (by norm_num) (by rw [hfloor]; decide)
  rw [hfloor] at hprice'
  cases hprice'

end Aggregator
