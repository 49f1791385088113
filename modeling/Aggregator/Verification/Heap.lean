import Aggregator.Library.PriorityQueue
import Aggregator.Model.Heap

/-! # The heap is a priority queue

It gives out what it took in, each element once and the greatest first. An element that is in
the heap is not taken in again. -/

namespace Aggregator.BTreeSetHeap

open PriorityQueue

variable {E : Type*} [LinearOrder E]

def contents (h : BTreeSetHeap E) : Finset E := h.set.toList.toFinset

@[simp] theorem mem_contents {h : BTreeSetHeap E} {e : E} : e ∈ h.contents ↔ e ∈ h.set := by
  simp [contents]

theorem lawful : Lawful (contents (E := E)) push pop where
  push_fst h e := by simp [push]
  push_snd h e := by
    ext x
    rw [Finset.mem_insert, mem_contents, mem_contents, push, Std.ExtTreeSet.mem_insert,
      compare_eq_iff_eq, eq_comm]
  pop_some h e hpop := by
    unfold pop at hpop ⊢
    split at hpop
    · rename_i last hlast
      cases hpop
      rw [← Std.ExtTreeSet.max?_eq_getLast?_toList] at hlast
      obtain ⟨hmem, hmax⟩ := Std.ExtTreeSet.max?_eq_some_iff_mem_and_forall.mp hlast
      refine ⟨⟨?_, fun x hx => ?_⟩, ?_⟩
      · simpa using hmem
      · exact compare_le_iff_le.mp (Ordering.isLE_iff_ne_gt.mp (hmax x (by simpa using hx)))
      · ext x
        rw [Finset.mem_erase, mem_contents, mem_contents, Std.ExtTreeSet.mem_erase, ne_eq,
          compare_eq_iff_eq, eq_comm]
    · cases hpop
  pop_none h hpop := by
    unfold pop at hpop ⊢
    split at hpop
    · cases hpop
    · rename_i hnone
      rw [List.getLast?_eq_none_iff] at hnone
      simp [contents, hnone]

/-- Any operations on a new heap, with what it took in and gave out. -/
def run (ops : List (Op E)) : Log (BTreeSetHeap E) E := Log.run push pop ⟨new, [], []⟩ ops

theorem card_contents (h : BTreeSetHeap E) : h.contents.card = h.set.size := by
  rw [contents, List.toFinset_card_of_nodup (KeyedFold.nodup_toList _),
    Std.ExtTreeSet.length_toList]

/-- After any operations the heap holds what it took in and has not given out, gives out the
greatest of it next, and all of it in strictly descending order. -/
theorem run_priorityQueue (ops : List (Op E)) :
    (∀ e, (run ops).pushed.count e =
      (run ops).popped.count e + if e ∈ (run ops).state.set then 1 else 0) ∧
    (∀ e, (run ops).state.pop.1 = some e ↔ IsGreatest {x | x ∈ (run ops).state.set} e) ∧
    (drain pop (run ops).state.set.size (run ops).state).Pairwise (· > ·) ∧
    ∀ e, e ∈ drain pop (run ops).state.set.size (run ops).state ↔ e ∈ (run ops).state.set := by
  have hbalanced : (run ops).Balanced contents := by
    refine lawful.balanced_run ?_ ops
    simp [Log.Balanced, new, contents]
  obtain ⟨hsorted, hdrain⟩ := lawful.drain_spec (card_contents (run ops).state).le
  refine ⟨fun e => ?_, fun e => ?_, hsorted, fun e => (hdrain e).trans mem_contents⟩
  · have hcount := congrArg (Multiset.count e) hbalanced
    rw [Multiset.count_add, Multiset.coe_count, Multiset.coe_count,
      Multiset.count_eq_of_nodup (run ops).state.contents.nodup] at hcount
    rw [← hcount, add_comm]
    simp
  · rw [lawful.pop_eq_some_iff]
    have hset : ((run ops).state.contents : Set E) = {x | x ∈ (run ops).state.set} := by
      ext x
      simp
    rw [hset]

example : (run [.push 2, .push 3, .push 2, .pop, .push (1 : ℕ)]).popped = [3] := by
  decide +kernel

end Aggregator.BTreeSetHeap
