import Aggregator.Library.KeyedFold

/-! # Heap on a sorted set (`heap.rs`) -/

namespace Aggregator

/-- Heap implementation with the use of sp collections. -/
structure BTreeSetHeap (E : Type*) [LinearOrder E] where
  set : BTreeSet E

namespace BTreeSetHeap

variable {E : Type*} [LinearOrder E]

def new : BTreeSetHeap E := ⟨∅⟩

def pop (h : BTreeSetHeap E) : Option E × BTreeSetHeap E :=
  -- `iter().next_back()`
  match h.set.toList.getLast? with
  | some last => (some last, ⟨h.set.erase last⟩)
  | none => (none, h)

/-- `BTreeSet::insert` tells whether the element is new. -/
def push (h : BTreeSetHeap E) (e : E) : Bool × BTreeSetHeap E :=
  (decide (e ∉ h.set), ⟨h.set.insert e⟩)

end BTreeSetHeap

end Aggregator
