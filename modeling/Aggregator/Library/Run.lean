import Mathlib.Tactic.Common

/-! # Runs under a condition on their steps -/

namespace Run

variable {S A : Type*} {step : S → A → S} {holds holds' : S → A → Prop}

/-- The condition holds of every step of the run in the state before it. -/
def Along (step : S → A → S) (holds : S → A → Prop) : S → List A → Prop
  | _, [] => True
  | s, a :: as => holds s a ∧ Along step holds (step s a) as

instance decidableAlong [∀ s a, Decidable (holds s a)] :
    ∀ (s : S) (as : List A), Decidable (Along step holds s as)
  | _, [] => isTrue trivial
  | s, a :: as => @instDecidableAnd _ _ _ (decidableAlong (step s a) as)

/-- An invariant that every step under the condition keeps holds of the state before each
step and of the last one. -/
theorem Along.invariant {inv : S → Prop} (hstep : ∀ s a, inv s → holds s a → inv (step s a))
    {s : S} {as : List A} (h : Along step holds s as) (hs : inv s) :
    Along step (fun s a => inv s ∧ holds s a) s as ∧ inv (as.foldl step s) := by
  induction as generalizing s with
  | nil => exact ⟨trivial, hs⟩
  | cons a as ih =>
      obtain ⟨ha, has⟩ := h
      obtain ⟨halong, hlast⟩ := ih has (hstep s a hs ha)
      exact ⟨⟨⟨hs, ha⟩, halong⟩, hlast⟩

theorem Along.imp (himp : ∀ s a, holds s a → holds' s a) {s : S} {as : List A}
    (h : Along step holds s as) : Along step holds' s as := by
  induction as generalizing s with
  | nil => trivial
  | cons a as ih => exact ⟨himp s a h.1, ih h.2⟩

theorem along_of_forall_mem {s : S} {as : List A} (h : ∀ a ∈ as, ∀ s, holds s a) :
    Along step holds s as := by
  induction as generalizing s with
  | nil => trivial
  | cons a as ih =>
      obtain ⟨ha, has⟩ := List.forall_mem_cons.mp h
      exact ⟨ha s, ih has⟩

theorem along_append {s : S} {as bs : List A} :
    Along step holds s (as ++ bs) ↔
      Along step holds s as ∧ Along step holds (as.foldl step s) bs := by
  induction as generalizing s with
  | nil => simp [Along]
  | cons a as ih => simp [Along, ih, and_assoc]

/-- A relation that related steps keep carries the run and the condition over. -/
theorem Along.transfer {S' : Type*} {step' : S' → A → S'} {holds' : S' → A → Prop}
    {R : S → S' → Prop}
    (hstep : ∀ s s' a, R s s' → holds s a → R (step s a) (step' s' a) ∧ holds' s' a)
    {s : S} {s' : S'} {as : List A} (h : Along step holds s as) (hR : R s s') :
    Along step' holds' s' as ∧ R (as.foldl step s) (as.foldl step' s') := by
  induction as generalizing s s' with
  | nil => exact ⟨trivial, hR⟩
  | cons a as ih =>
      obtain ⟨hnext, ha⟩ := hstep s s' a hR h.1
      obtain ⟨halong, hlast⟩ := ih h.2 hnext
      exact ⟨⟨ha, halong⟩, hlast⟩

end Run
