import Aggregator.Library.Exec
import Aggregator.Library.KeyedFold
import Aggregator.Model.Types
import Mathlib.Algebra.Order.Monoid.WithTop

/-! # Shortest and longest paths (`best_path_calculator/floyd_warshall/algo.rs`)

`f64` is read exactly. A cost that is added along a path is an element of an ordered
group, or `⊤` for `f64::MAX`, the cost of a missing matrix entry. A cost that is
multiplied along a path is an element of an ordered field. -/

namespace Aggregator.Algo

universe u

/-- An exactly read `f64` that is added and compared. `⊤` also stands for the infinity
`-f64::log2(0.0)`: both absorb every addition and are below no cost. -/
abbrev F64 (α : Type*) := WithTop α

def f64Max {α : Type*} : F64 α := ⊤

structure Edge (F : Type*) where
  pair : Pair ℕ
  provider : ℕ
  cost : F
  deriving DecidableEq, Repr

structure Path (F : Type*) where
  totalCost : F
  edges : List (Edge F)
  deriving DecidableEq, Repr

inductive PathCalculationError where
  | negativeCyclesError
  deriving DecidableEq, Repr

def Edge.source {F : Type*} (e : Edge F) : ℕ := e.pair.source

def Edge.target {F : Type*} (e : Edge F) : ℕ := e.pair.target

/-! ## One edge for each pair -/

/-- The `and_modify` / `or_insert_with` of `unique_cheapest_edges`. -/
def keepEdge {F : Type*} [LinearOrder F] (ordering : Ordering) (e : Edge F) :
    Option (Edge F) → Option (Edge F)
  | some oldCosted => some (if compare oldCosted.cost e.cost = ordering then e else oldCosted)
  | none => some e

def edgesByPair {F : Type*} [LinearOrder F] (edges : List (Edge F)) (ordering : Ordering) :
    BTreeMap (Pair ℕ) (Edge F) :=
  edges.foldl (fun m e => m.alter e.pair (keepEdge ordering e)) ∅

def uniqueCheapestEdges {F : Type*} [LinearOrder F] (edges : List (Edge F))
    (ordering : Ordering) : List (Edge F) :=
  (edgesByPair edges ordering).toList.map Prod.snd

/-! ## Floyd-Warshall -/

def vertices {F : Type*} (edges : List (Edge F)) : BTreeSet ℕ :=
  edges.foldl (fun vs e => (vs.insert e.pair.source).insert e.pair.target) ∅

section FloydWarshall

variable {α : Type*} [AddCommGroup α] [LinearOrder α]

abbrev Matrix (α : Type*) := BTreeMap (Pair ℕ) (Path (F64 α))

/-- The identity entries, overwritten by the edges. -/
def initialMatrix (edges : List (Edge (F64 α))) : Matrix α :=
  edges.foldl (fun m e => m.insert e.pair ⟨e.cost, [e]⟩)
    ((vertices edges).toList.foldl (fun m v => m.insert ⟨v, v⟩ ⟨0, []⟩) ∅)

/-- Cost and edges of an entry; a missing entry suggests infinite cost. -/
def lookup (m : Matrix α) (i j : ℕ) : Path (F64 α) :=
  m[(⟨i, j⟩ : Pair ℕ)]?.getD ⟨f64Max, []⟩

/-- The body of the triple loop. -/
def relax (k i j : ℕ) (m : Matrix α) : Matrix α :=
  let ij := lookup m i j
  let ik := lookup m i k
  let kj := lookup m k j
  if ik.totalCost + kj.totalCost ≠ f64Max ∧ ij.totalCost > ik.totalCost + kj.totalCost then
    m.insert ⟨i, j⟩ ⟨ik.totalCost + kj.totalCost, ik.edges ++ kj.edges⟩
  else m

def stage (vs : List ℕ) (k : ℕ) (m : Matrix α) : Matrix α :=
  vs.foldl (fun m i => vs.foldl (fun m j => relax k i j m) m) m

def tripleLoop (vs : List ℕ) (m : Matrix α) : Matrix α :=
  vs.foldl (fun m k => stage vs k m) m

/-- One iteration of the check for negative cycles. -/
def checkDiagonal (m : Matrix α) (i : ℕ) : Exec PathCalculationError PUnit := do
  let path ← Exec.orPanic .unwrap m[(⟨i, i⟩ : Pair ℕ)]?
  if path.totalCost < 0 then Exec.fail .negativeCyclesError else pure ⟨⟩

def floydWarshallShortestPaths (edges : List (Edge (F64 α))) :
    Exec PathCalculationError (Matrix α) := do
  let vs := (vertices edges).toList
  let matrix := tripleLoop vs (initialMatrix edges)
  forM vs (checkDiagonal matrix)
  return matrix

def shortestPaths (edges : List (Edge (F64 α))) : Exec PathCalculationError (Matrix α) :=
  floydWarshallShortestPaths (uniqueCheapestEdges edges .lt)

end FloydWarshall

/-! ## Longest paths for multiplied costs -/

/-- `f64::log2` read exactly on positive numbers. -/
structure Log2 (K α : Type u) [Field K] [LinearOrder K] [AddCommGroup α] [LinearOrder α] where
  log2 : K → α
  strictMono : ∀ {x y : K}, 0 < x → x < y → log2 x < log2 y
  map_mul : ∀ {x y : K}, 0 < x → 0 < y → log2 (x * y) = log2 x + log2 y

section LongestPaths

variable {K α : Type u} [Field K] [LinearOrder K] [AddCommGroup α] [LinearOrder α]

/-- `-cost.log2()`. The logarithm of zero is the infinity `-f64::INFINITY`. -/
def Log2.negLog2 (L : Log2 K α) (cost : K) : F64 α :=
  if cost = 0 then ⊤ else ((-L.log2 cost : α) : F64 α)

/-- `Edge{cost: -e.cost.log2(), ..*e}`. -/
def Log2.logEdge (L : Log2 K α) (e : Edge K) : Edge (F64 α) :=
  ⟨e.pair, e.provider, L.negLog2 e.cost⟩

def weightMap (edges : List (Edge K)) : BTreeMap (Pair ℕ ×ₗ ℕ) K :=
  Std.ExtTreeMap.ofList (edges.map fun e => (toLex (e.pair, e.provider), e.cost))

/-- `Edge{cost: weight_map[&(e.pair, e.provider)], ..*e}`. -/
def restoreEdge (weights : BTreeMap (Pair ℕ ×ₗ ℕ) K) (e : Edge (F64 α)) :
    Exec PathCalculationError (Edge K) := do
  let cost ← Exec.orPanic .index weights[toLex (e.pair, e.provider)]?
  return ⟨e.pair, e.provider, cost⟩

/-- Map the weights of a path back and recalculate its total cost. -/
def restorePath (weights : BTreeMap (Pair ℕ ×ₗ ℕ) K) (entry : Pair ℕ × Path (F64 α)) :
    Exec PathCalculationError (Pair ℕ × Path K) := do
  let edges ← entry.2.edges.mapM (restoreEdge weights)
  return (entry.1, ⟨edges.foldl (fun acc e => acc * e.cost) 1, edges⟩)

def longestPathsMult (L : Log2 K α) (edges : List (Edge K)) :
    Exec PathCalculationError (BTreeMap (Pair ℕ) (Path K)) := do
  let edges := uniqueCheapestEdges edges .gt
  let weights := weightMap edges
  let edgesWithLogWeights := edges.map L.logEdge
  let res ← shortestPaths edgesWithLogWeights
  let entries ← res.toList.mapM (restorePath weights)
  return Std.ExtTreeMap.ofList entries

end LongestPaths

end Aggregator.Algo
