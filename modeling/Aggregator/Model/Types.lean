import Aggregator.Library.Exec
import Aggregator.Library.KeyedFold
import Mathlib.Data.Prod.Lex
import Mathlib.Data.Rat.Floor

/-! # Types of the aggregator pallet (`types.rs`)

`Currency` is a type variable `C` with its ordering and its conversion to text;
`Provider` is a type variable `P`. An `Amount` is an unsigned integer of `w` bits. -/

namespace Aggregator

/-- `Conversions::to_str`, with `none` where `str::from_utf8` rejects the bytes. -/
class Conversions (C : Type*) where
  toStr : C → Option String

/-- `impl Conversions for Vec<u8>`. -/
instance : Conversions (List UInt8) where
  toStr bytes := String.fromUTF8? ⟨bytes.toArray⟩

inductive Provider where
  | cryptoCompare
  deriving DecidableEq, Repr

instance : LinearOrder Provider :=
  LinearOrder.lift' (fun _ => (0 : ℕ)) (by rintro ⟨⟩ ⟨⟩ _; rfl)

structure Pair (C : Type*) where
  source : C
  target : C
  deriving DecidableEq, Repr

structure ProviderPair (C P : Type*) where
  pair : Pair C
  provider : P
  deriving DecidableEq, Repr

/-- The derived `Ord`: by source, then by target. -/
instance {C : Type*} [LinearOrder C] : LinearOrder (Pair C) :=
  LinearOrder.lift' (fun p => toLex (p.source, p.target)) (by
    rintro ⟨s, t⟩ ⟨s', t'⟩ h
    simpa using h)

/-- The derived `Ord`: by pair, then by provider. -/
instance {C P : Type*} [LinearOrder C] [LinearOrder P] : LinearOrder (ProviderPair C P) :=
  LinearOrder.lift' (fun p => toLex (p.pair, p.provider)) (by
    rintro ⟨p, v⟩ ⟨p', v'⟩ h
    simpa using h)

instance Pair.transCmp (C : Type*) [LinearOrder C] :
    Std.TransCmp (compare : Pair C → Pair C → Ordering) :=
  inferInstance

inductive Operation where
  | add
  | del
  deriving DecidableEq, Repr

structure ProviderPairOperation (C P : Type*) where
  providerPair : ProviderPair C P
  operation : Operation
  deriving DecidableEq, Repr

/-- A hop between two currencies through a provider. -/
structure PathStep (C P A : Type*) where
  pair : Pair C
  provider : P
  cost : A
  deriving DecidableEq, Repr

structure PricePath (C P A : Type*) where
  totalCost : A
  steps : List (PathStep C P A)
  deriving DecidableEq, Repr

inductive CalculatorError where
  | negativeCyclesError
  | conversionError
  deriving DecidableEq, Repr

/-! ## Unsigned integers -/

/-- An unsigned integer type of `w` bits. -/
abbrev Amount (w : ℕ) := BitVec w

def u128Max : ℕ := 2 ^ 128 - 1

/-- `TryInto::<u128>::try_into`. -/
def Amount.toU128 {w : ℕ} (a : Amount w) : Option ℕ :=
  if a.toNat ≤ u128Max then some a.toNat else none

/-- `TryFrom::<u128>::try_from`. -/
def Amount.ofU128 {w : ℕ} (n : ℕ) : Option (Amount w) :=
  if n < 2 ^ w then some (BitVec.ofNat w n) else none

theorem Amount.toU128_eq_some_iff {w : ℕ} {a : Amount w} {n : ℕ} :
    a.toU128 = some n ↔ a.toNat ≤ u128Max ∧ n = a.toNat := by
  unfold Amount.toU128
  split
  · rename_i h
    simp [h, eq_comm]
  · rename_i h
    simp [h]

theorem Amount.ofU128_eq_some {w n : ℕ} {a : Amount w} (h : Amount.ofU128 n = some a) :
    a.toNat = n := by
  unfold Amount.ofU128 at h
  split at h
  · rename_i hn
    cases h
    rw [BitVec.toNat_ofNat, Nat.mod_eq_of_lt hn]
  · cases h

theorem Amount.ofU128_of_lt {w n : ℕ} (hn : n < 2 ^ w) :
    (Amount.ofU128 n : Option (Amount w)) = some (BitVec.ofNat w n) :=
  if_pos hn

end Aggregator
