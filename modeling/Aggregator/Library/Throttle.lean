import Mathlib.Data.List.Pairwise
import Mathlib.Order.Basic

/-! # Throttled tasks

A task starts when no other one runs and its time has reached a bound. When it ends, the
bound moves past its time. -/

namespace Throttle

variable {β : Type*}

structure State (β : Type*) where
  bound : Option β
  ended : List β
  running : Option β

/-- The tasks in the order in which they started. -/
def State.started (s : State β) : List β := s.ended ++ s.running.toList

variable [Preorder β] {after : β → β} {s s' : State β}

inductive Step (after : β → β) : State β → State β → Prop
  | start {bound ended b} (h : ∀ n ∈ bound, n ≤ b) :
      Step after ⟨bound, ended, none⟩ ⟨bound, ended, some b⟩
  | finish {bound ended b} :
      Step after ⟨bound, ended, some b⟩ ⟨some (after b), ended ++ [b], none⟩

/-- The started tasks lie apart, and the bound is past those that ended. -/
structure Spaced (after : β → β) (s : State β) : Prop where
  started : s.started.Pairwise fun a b => after a ≤ b
  ended : ∀ a ∈ s.ended, ∃ n ∈ s.bound, after a ≤ n
  running : ∀ b ∈ s.running, ∀ n ∈ s.bound, n ≤ b

theorem spaced_init (bound : Option β) : Spaced after ⟨bound, [], none⟩ :=
  ⟨List.Pairwise.nil, by simp, by simp⟩

theorem Spaced.step (hafter : ∀ b, b ≤ after b) (h : Spaced after s) (hstep : Step after s s') :
    Spaced after s' := by
  cases hstep with
  | @start bound ended b hb =>
      have hpast : ∀ a ∈ ended, after a ≤ b := fun a ha => by
        obtain ⟨n, hn, hle⟩ := h.ended a ha
        exact hle.trans (hb n hn)
      refine ⟨?_, h.ended, by simpa using hb⟩
      refine List.pairwise_append.mpr ⟨?_, by simp, by simpa using hpast⟩
      simpa [State.started] using h.started
  | @finish bound ended b =>
      refine ⟨by simpa [State.started] using h.started, ?_, by simp⟩
      intro a ha
      refine ⟨after b, rfl, ?_⟩
      rcases List.mem_append.mp ha with ha | ha
      · obtain ⟨n, hn, hle⟩ := h.ended a ha
        exact (hle.trans (h.running b rfl n hn)).trans (hafter b)
      · exact (List.mem_singleton.mp ha) ▸ le_rfl

/-- Of two started tasks, the later one lies past the earlier one. -/
theorem Spaced.le_of_lt (hafter : ∀ b, b ≤ after b) (h : Spaced after s) {a b : β}
    (ha : a ∈ s.started) (hb : b ∈ s.started) (hlt : a < b) : after a ≤ b := by
  have hsooner : s.started.Pairwise fun x y => x < y → after x ≤ y :=
    h.started.imp fun {x y} hxy (_ : x < y) => hxy
  have hlater : s.started.Pairwise fun x y => y < x → after y ≤ x :=
    h.started.imp fun {x y} hxy hyx =>
      (lt_irrefl y (hyx.trans_le ((hafter x).trans hxy))).elim
  exact List.Pairwise.forall_of_forall_of_flip
    (fun x _ hxx => (lt_irrefl x hxx).elim) hsooner hlater ha hb hlt

end Throttle
