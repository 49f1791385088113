import Mathlib.Algebra.Order.Group.Multiset
import Mathlib.Data.Finset.Card
import Mathlib.Order.Bounds.Basic
import Mathlib.Tactic.Abel

/-! # Priority queues without repetition

A queue holds a set, tells of each push whether the element is new, and pops the greatest. -/

namespace PriorityQueue

variable {S E : Type*} [LinearOrder E]

/-- What the operations do to the set that a state stands for. -/
structure Lawful (contents : S → Finset E) (push : S → E → Bool × S) (pop : S → Option E × S) :
    Prop where
  push_fst : ∀ s e, (push s e).1 = decide (e ∉ contents s)
  push_snd : ∀ s e, contents (push s e).2 = insert e (contents s)
  pop_some : ∀ s e, (pop s).1 = some e →
    IsGreatest (contents s : Set E) e ∧ contents (pop s).2 = (contents s).erase e
  pop_none : ∀ s, (pop s).1 = none → contents s = ∅ ∧ contents (pop s).2 = ∅

inductive Op (E : Type*) where
  | push (e : E)
  | pop

/-- A state with the elements that were taken in and given out so far. -/
structure Log (S E : Type*) where
  state : S
  pushed : List E
  popped : List E

variable {contents : S → Finset E} {push : S → E → Bool × S} {pop : S → Option E × S}

def Log.step (push : S → E → Bool × S) (pop : S → Option E × S) (σ : Log S E) : Op E → Log S E
  | .push e => ⟨(push σ.state e).2, if (push σ.state e).1 then σ.pushed ++ [e] else σ.pushed,
      σ.popped⟩
  | .pop => ⟨(pop σ.state).2, σ.pushed, σ.popped ++ (pop σ.state).1.toList⟩

def Log.run (push : S → E → Bool × S) (pop : S → Option E × S) (σ : Log S E) (ops : List (Op E)) :
    Log S E :=
  ops.foldl (Log.step push pop) σ

/-- Pop until the queue is empty, at most `n` times. -/
def drain (pop : S → Option E × S) : ℕ → S → List E
  | 0, _ => []
  | n + 1, s =>
      match pop s with
      | (some e, s') => e :: drain pop n s'
      | (none, _) => []

/-- What was taken in was given out or is there. -/
def Log.Balanced (contents : S → Finset E) (σ : Log S E) : Prop :=
  (contents σ.state).val + (σ.popped : Multiset E) = σ.pushed

theorem Lawful.balanced_step (h : Lawful contents push pop) {σ : Log S E}
    (hσ : σ.Balanced contents) (op : Op E) : (σ.step push pop op).Balanced contents := by
  unfold Log.Balanced at hσ
  cases op with
  | push e =>
      simp only [Log.step, Log.Balanced, h.push_snd, h.push_fst, decide_eq_true_eq]
      split
      · rename_i hnew
        rw [Finset.insert_val_of_notMem hnew, Multiset.cons_add, hσ, ← Multiset.coe_add,
          add_comm (σ.pushed : Multiset E)]
        rfl
      · rename_i hold
        rw [Finset.insert_eq_of_mem (not_not.mp hold), hσ]
  | pop =>
      simp only [Log.step, Log.Balanced]
      cases hpop : (pop σ.state).1 with
      | none =>
          obtain ⟨hempty, hnext⟩ := h.pop_none _ hpop
          rw [hempty] at hσ
          rw [hnext, Option.toList_none, List.append_nil, hσ]
      | some e =>
          obtain ⟨hgreatest, hnext⟩ := h.pop_some _ _ hpop
          rw [hnext, Finset.erase_val, Option.toList_some]
          calc (contents σ.state).val.erase e + ((σ.popped ++ [e] : List E) : Multiset E)
              = {e} + (contents σ.state).val.erase e + (σ.popped : Multiset E) := by
                rw [← Multiset.coe_add, Multiset.coe_singleton]
                abel
            _ = (contents σ.state).val + (σ.popped : Multiset E) := by
                rw [Multiset.singleton_add, Multiset.cons_erase hgreatest.1]
            _ = σ.pushed := hσ

theorem Lawful.balanced_run (h : Lawful contents push pop) {σ : Log S E}
    (hσ : σ.Balanced contents) (ops : List (Op E)) : (σ.run push pop ops).Balanced contents := by
  induction ops generalizing σ with
  | nil => exact hσ
  | cons op ops ih => exact ih (h.balanced_step hσ op)

theorem Lawful.pop_eq_some_iff (h : Lawful contents push pop) {s : S} {e : E} :
    (pop s).1 = some e ↔ IsGreatest (contents s : Set E) e := by
  refine ⟨fun hpop => (h.pop_some s e hpop).1, fun hgreatest => ?_⟩
  cases hpop : (pop s).1 with
  | none =>
      have hmem := hgreatest.1
      rw [(h.pop_none s hpop).1] at hmem
      exact (Finset.notMem_empty e hmem).elim
  | some e' => rw [(h.pop_some s e' hpop).1.unique hgreatest]

/-- The elements come out in strictly descending order. -/
theorem Lawful.drain_spec (h : Lawful contents push pop) {n : ℕ} {s : S}
    (hn : (contents s).card ≤ n) :
    (drain pop n s).Pairwise (· > ·) ∧ ∀ e, e ∈ drain pop n s ↔ e ∈ contents s := by
  induction n generalizing s with
  | zero =>
      rw [Nat.le_zero, Finset.card_eq_zero] at hn
      simp [drain, hn]
  | succ n ih =>
      rw [drain]
      split
      · rename_i e s' hpop
        obtain ⟨hgreatest, hnext⟩ : IsGreatest (contents s : Set E) e ∧
            contents s' = (contents s).erase e := by
          have hsome := h.pop_some s e (by rw [hpop])
          rwa [hpop] at hsome
        have hcard : (contents s').card ≤ n := by
          rw [hnext, Finset.card_erase_of_mem hgreatest.1]
          omega
        obtain ⟨hsorted, hmem⟩ := ih hcard
        simp only [hnext, Finset.mem_erase] at hmem
        refine ⟨List.pairwise_cons.mpr ⟨fun x hx => ?_, hsorted⟩, fun x => ?_⟩
        · obtain ⟨hne, hx⟩ := (hmem x).mp hx
          exact (hgreatest.2 hx).lt_of_ne hne
        · rw [List.mem_cons, hmem]
          constructor
          · rintro (rfl | ⟨-, hx⟩)
            · exact hgreatest.1
            · exact hx
          · intro hx
            exact or_iff_not_imp_left.mpr fun hne => ⟨hne, hx⟩
      · rename_i s' hpop
        obtain ⟨hempty, -⟩ := h.pop_none s (by rw [hpop])
        simp [hempty]

end PriorityQueue
