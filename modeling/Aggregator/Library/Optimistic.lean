import Mathlib.Logic.Relation
import Mathlib.Order.Nat

/-! # Optimistic concurrency

A shared value carries a version that grows whenever the value may change. A client that
took a snapshot and later finds its version unchanged finds its value unchanged. -/

namespace Optimistic

open Relation

variable {S V R : Type*} {Step : S → S → Prop}

/-- Steps leave version and value alone, or raise the version. -/
def Versioned (Step : S → S → Prop) (version : S → ℕ) (value : S → V) : Prop :=
  ∀ s s', Step s s' → version s' = version s ∧ value s' = value s ∨ version s < version s'

section Versions

variable {version : S → ℕ} {value : S → V} {s s' : S}

theorem Versioned.version_le (h : Versioned Step version value) (hrun : ReflTransGen Step s s') :
    version s ≤ version s' := by
  induction hrun with
  | refl => exact le_rfl
  | tail _ hstep ih =>
      rcases h _ _ hstep with ⟨heq, -⟩ | hlt
      · exact ih.trans_eq heq.symm
      · exact ih.trans hlt.le

/-- An unchanged version witnesses an unchanged value. -/
theorem Versioned.value_eq (h : Versioned Step version value) (hrun : ReflTransGen Step s s')
    (heq : version s' = version s) : value s' = value s := by
  induction hrun with
  | refl => rfl
  | tail hrun hstep ih =>
      have hle := h.version_le hrun
      rcases h _ _ hstep with ⟨hver, hval⟩ | hlt
      · exact hval.trans (ih (hver.symm.trans heq))
      · omega

end Versions

/-- Every pending record was made at some earlier state of the run. -/
theorem exists_snapshot {pending : S → List R} {taken : R → S → Prop} {init s : S}
    (hinit : pending init = [])
    (hstep : ∀ s s', Step s s' → ∀ r ∈ pending s', r ∈ pending s ∨ taken r s)
    (hrun : ReflTransGen Step init s) {r : R} (hr : r ∈ pending s) :
    ∃ s₀, ReflTransGen Step init s₀ ∧ ReflTransGen Step s₀ s ∧ taken r s₀ := by
  induction hrun with
  | refl => simp [hinit] at hr
  | @tail s₁ s₂ hrun hlast ih =>
      rcases hstep _ _ hlast r hr with hold | hnew
      · obtain ⟨s₀, hinit₀, hrun₀, htaken⟩ := ih hold
        exact ⟨s₀, hinit₀, hrun₀.tail hlast, htaken⟩
      · exact ⟨s₁, hrun, .single hlast, hnew⟩

end Optimistic
