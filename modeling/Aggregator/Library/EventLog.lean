import Mathlib.Data.List.Basic

/-! # Event logs

Steps change a state and emit events. Where the events of each step account for what it
changes in a view of the state, the log of a run accounts for the run. -/

namespace EventLog

variable {S A E V : Type*} (step : S → A → S) (emit : S → A → List E)

/-- The events of the run, in order. -/
def log : S → List A → List E
  | _, [] => []
  | s, a :: as => emit s a ++ log (step s a) as

variable (replay : V → E → V) (view : S → V) (audit : V → E → Prop)

/-- Replayed on the view before a step, its events give the view after it, and each of them is
right about the view that it meets. -/
structure Accounts : Prop where
  replayed : ∀ s a, (emit s a).foldl replay (view s) = view (step s a)
  audited : ∀ s a pre e post, emit s a = pre ++ e :: post → audit (pre.foldl replay (view s)) e

variable {step emit replay view audit}

theorem Accounts.replay_log (h : Accounts step emit replay view audit) (s : S) (as : List A) :
    (log step emit s as).foldl replay (view s) = view (as.foldl step s) := by
  induction as generalizing s with
  | nil => rfl
  | cons a as ih => rw [log, List.foldl_append, h.replayed, ih, List.foldl_cons]

theorem Accounts.audit_log (h : Accounts step emit replay view audit) {s : S} {as : List A}
    {pre post : List E} {e : E} (hlog : log step emit s as = pre ++ e :: post) :
    audit (pre.foldl replay (view s)) e := by
  induction as generalizing s pre with
  | nil => simp [log] at hlog
  | cons a as ih =>
      rw [log] at hlog
      rcases List.append_eq_append_iff.mp hlog with ⟨mid, rfl, hrest⟩ | ⟨mid, hfirst, hrest⟩
      · rw [List.foldl_append, h.replayed]
        exact ih hrest
      · -- the event is of this step, unless the step has emitted just `pre`
        cases mid with
        | nil =>
            obtain rfl : emit s a = pre := by simpa using hfirst
            rw [h.replayed]
            have hnext : log step emit (step s a) as = [] ++ e :: post := hrest.symm
            exact ih hnext
        | cons e' mid =>
            obtain ⟨rfl, rfl⟩ := List.cons.inj hrest
            exact h.audited s a pre e mid hfirst

end EventLog
