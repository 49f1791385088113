import Aggregator.Verification.TradeProvider.Decimal

/-! # The number under the target currency

A key is compared with the bytes of the currency taken one by one for characters, which is
the text of the currency only in ASCII. -/

namespace Aggregator

/-! ## Keys -/

def utf8 (text : List Char) : List UInt8 := text.flatMap String.utf8EncodeChar

def IsAscii (text : List Char) : Prop := ∀ c ∈ text, c.utf8Size = 1

theorem asChars_utf8EncodeChar {c : Char} (hc : c.utf8Size = 1) :
    asChars (String.utf8EncodeChar c) = [c] := by
  have hle : c.val.toNat ≤ 127 := UInt32.le_iff_toNat_le.mp (Char.utf8Size_eq_one_iff.mp hc)
  have hmod : c.val.toNat % 2 ^ 8 = c.val.toNat := Nat.mod_eq_of_lt (by omega)
  rw [String.utf8EncodeChar_eq_singleton hc, asChars, List.map_singleton, UInt32.toNat_toUInt8,
    hmod]
  exact congrArg (fun c => [c]) (Char.ofNat_toNat c)

theorem asChars_utf8 {text : List Char} (h : IsAscii text) : asChars (utf8 text) = text := by
  induction text with
  | nil => rfl
  | cons c text ih =>
      have hc := asChars_utf8EncodeChar (h c List.mem_cons_self)
      have htext := ih fun c hc => h c (List.mem_cons_of_mem _ hc)
      rw [utf8, List.flatMap_cons, asChars, List.map_append]
      exact congrArg₂ (· ++ ·) hc htext

theorem length_le_length_utf8 (text : List Char) : text.length ≤ (utf8 text).length := by
  induction text with
  | nil => simp
  | cons c text ih =>
      have hpos := c.utf8Size_pos
      rw [utf8, List.flatMap_cons, List.length_append, String.length_utf8EncodeChar,
        List.length_cons]
      rw [utf8] at ih
      omega

theorem isAscii_of_length_utf8 {text : List Char} (h : (utf8 text).length = text.length) :
    IsAscii text := by
  induction text with
  | nil => exact fun _ hc => absurd hc List.not_mem_nil
  | cons c text ih =>
      have hpos := c.utf8Size_pos
      have hle := length_le_length_utf8 text
      rw [utf8, List.flatMap_cons, List.length_append, String.length_utf8EncodeChar,
        List.length_cons, ← utf8] at h
      intro d hd
      rcases List.mem_cons.mp hd with rfl | hd
      · omega
      · exact ih (by omega) d hd

/-- A currency is found under its own name only in ASCII. -/
theorem asChars_utf8_eq_iff {text : List Char} : asChars (utf8 text) = text ↔ IsAscii text := by
  refine ⟨fun h => isAscii_of_length_utf8 ?_, asChars_utf8⟩
  have hlength := congrArg List.length h
  rwa [asChars, List.length_map] at hlength

/-- The key that the currency is looked for under. -/
def misread (currency : List Char) : List Char := asChars (utf8 currency)

/-! ## What a JSON text says -/

/-- The entries of a JSON object: the value of a number, and `none` for any other value. -/
abbrev Document := List (List Char × Option ℚ)

/-- A value that is not a number is none, and a number that is not negative has the fields of
its value. -/
def Denotes : Option ℚ → JsonValue → Prop
  | some v, .number n => 0 ≤ v → n.value = v
  | some _, _ => False
  | none, .number _ => False
  | none, _ => True

/-- The parser returns the entries of the objects in order, and no object for another text. -/
structure Parses {ε : Type} (parseJson : String → Except ε JsonValue)
    (meaning : String → Option Document) : Prop where
  object : ∀ text doc, meaning text = some doc → ∃ obj, parseJson text = .ok (.object obj) ∧
    List.Forall₂ (fun x y => x.1 = y.1 ∧ Denotes x.2 y.2) doc obj
  other : ∀ text, meaning text = none → ∀ obj, parseJson text ≠ .ok (.object obj)

/-- The first value at the key. -/
def valueAt (doc : Option Document) (key : List Char) : Option (Option ℚ) :=
  doc.bind fun doc => (doc.find? fun x => decide (x.1 = key)).map Prod.snd

/-- The fields that the parser returns for a number at the key. -/
def NumberAt {ε : Type} (val : Except ε JsonValue) (key : List Char) (n : NumberValue) : Prop :=
  ∃ obj key', val = .ok (.object obj) ∧
    (obj.find? fun x => decide (x.1 = key)) = some (key', .number n)

theorem findNumber_eq_some_iff {ε : Type} {val : Except ε JsonValue}
    {targetCurrency : List UInt8} {n : NumberValue} :
    findNumber val targetCurrency = some n ↔ NumberAt val (asChars targetCurrency) n := by
  unfold findNumber NumberAt
  split
  · rename_i obj
    constructor
    · intro h
      split at h
      · rename_i key' number hfind
        cases h
        exact ⟨obj, key', rfl, hfind⟩
      · cases h
    · rintro ⟨_, key', ⟨⟩, hfind⟩
      simp [hfind]
  · rename_i hother
    constructor
    · intro h
      cases h
    · rintro ⟨obj, key', hval, -⟩
      exact (hother obj hval).elim

section FindNumber

variable {ε : Type} {parseJson : String → Except ε JsonValue} {meaning : String → Option Document}
  {text : String} {targetCurrency : List UInt8}

/-- The number that is found is the one at the misread key. -/
theorem exists_findNumber (hparse : Parses parseJson meaning) {v : ℚ}
    (h : valueAt (meaning text) (asChars targetCurrency) = some (some v)) :
    ∃ n, findNumber (parseJson text) targetCurrency = some n ∧ (0 ≤ v → n.value = v) := by
  cases hmeaning : meaning text with
  | none => simp [valueAt, hmeaning] at h
  | some doc =>
      obtain ⟨obj, hobj, hall⟩ := hparse.object text doc hmeaning
      rw [hmeaning] at h
      rcases KeyedFold.find?_of_forall₂ hall (asChars targetCurrency) with
        ⟨hdoc, -⟩ | ⟨a, b, hdoc, hfind, hab⟩
      · simp [valueAt, hdoc] at h
      · obtain rfl : a = some v := by simpa [valueAt, hdoc] using h
        cases b with
        | number n => exact ⟨n, by simp [findNumber, hobj, hfind], hab⟩
        | _ => exact absurd hab id

theorem findNumber_eq_none (hparse : Parses parseJson meaning)
    (h : ∀ v, valueAt (meaning text) (asChars targetCurrency) ≠ some (some v)) :
    findNumber (parseJson text) targetCurrency = none := by
  cases hmeaning : meaning text with
  | none =>
      have hother := hparse.other text hmeaning
      unfold findNumber
      split
      · rename_i obj hobj
        exact absurd hobj (hother obj)
      · rfl
  | some doc =>
      obtain ⟨obj, hobj, hall⟩ := hparse.object text doc hmeaning
      rw [hmeaning] at h
      rcases KeyedFold.find?_of_forall₂ hall (asChars targetCurrency) with
        ⟨-, hfind⟩ | ⟨a, b, hdoc, hfind, hab⟩
      · simp [findNumber, hobj, hfind]
      · cases a with
        | some v => exact absurd (by simp [valueAt, hdoc]) (h v)
        | none =>
            cases b with
            | number n => exact absurd hab id
            | _ => simp [findNumber, hobj, hfind]

end FindNumber

end Aggregator
