import Aggregator.Model.Algo

/-! # Best path calculators (`best_path_calculator/floyd_warshall/calculator.rs`,
`best_path_calculator/noop_calculator.rs`) -/

namespace Aggregator

open Algo

/-- A fetched price. -/
abbrev PairAndPrice (C P : Type) (w : ℕ) := ProviderPair C P × Amount w

abbrev BestPathMap (C P : Type) (w : ℕ) [LinearOrder C] :=
  BTreeMap (Pair C) (PricePath C P (Amount w))

/-- `BestPathCalculator::calc_best_paths`. -/
abbrev BestPathCalculator (C P : Type) (w : ℕ) [LinearOrder C] :=
  List (PairAndPrice C P w) → Exec CalculatorError (BestPathMap C P w)

variable {C P : Type} [LinearOrder C] [LinearOrder P] {w : ℕ}

namespace NoBestPathCalculator

omit [LinearOrder P] in
def calcBestPaths : BestPathCalculator C P w := fun pairsAndPrices =>
  .ok (Std.ExtTreeMap.ofList (pairsAndPrices.map fun x => (x.1.pair, PricePath.mk x.2 [])))

end NoBestPathCalculator

namespace FloydWarshallCalculator

/-- `impl From<algo::PathCalculationError> for CalculatorError`. -/
def fromPathCalculationError : PathCalculationError → CalculatorError
  | .negativeCyclesError => .negativeCyclesError

def precision : ℚ := 1000000000000

/-- `x as u128`, for an exactly read `x`. -/
def asU128 (x : ℚ) : ℕ := min ⌊x⌋₊ u128Max

def currencies (pairsAndPrices : List (PairAndPrice C P w)) : List C :=
  (Std.ExtTreeSet.ofList
    (pairsAndPrices.flatMap fun x => [x.1.pair.source, x.1.pair.target]) : BTreeSet C).toList

def providers (pairsAndPrices : List (PairAndPrice C P w)) : List P :=
  (Std.ExtTreeSet.ofList (pairsAndPrices.map fun x => x.1.provider) : BTreeSet P).toList

/-- `xs.iter().enumerate().map(|(i, &x)| (x, i)).collect()`. -/
def byInd {X : Type} [LinearOrder X] (xs : List X) : BTreeMap X ℕ := Std.ExtTreeMap.ofList xs.zipIdx

def toEdge (currenciesByInd : BTreeMap C ℕ) (providersByInd : BTreeMap P ℕ)
    (x : PairAndPrice C P w) : Exec CalculatorError (Edge ℚ) := do
  let source ← Exec.orPanic .index currenciesByInd[x.1.pair.source]?
  let target ← Exec.orPanic .index currenciesByInd[x.1.pair.target]?
  let provider ← Exec.orPanic .index providersByInd[x.1.provider]?
  let cost ← Exec.orErr .conversionError x.2.toU128
  return ⟨⟨source, target⟩, provider, cost / precision⟩

/-- The two loops that construct the graph. -/
def graph (pairsAndPrices : List (PairAndPrice C P w)) : Exec CalculatorError (List (Edge ℚ)) :=
  let cs := currencies pairsAndPrices
  let ps := providers pairsAndPrices
  (cs.flatMap fun c => pairsAndPrices.filter fun x => c = x.1.pair.source).mapM
    (toEdge (byInd cs) (byInd ps))

def toPathStep (cs : List C) (ps : List P) (e : Edge ℚ) :
    Exec CalculatorError (PathStep C P (Amount w)) := do
  let source ← Exec.orPanic .index cs[e.pair.source]?
  let target ← Exec.orPanic .index cs[e.pair.target]?
  let provider ← Exec.orPanic .index ps[e.provider]?
  let cost ← Exec.orPanic .unwrap (Amount.ofU128 (asU128 (e.cost * precision)))
  return ⟨⟨source, target⟩, provider, cost⟩

def toPricePath (cs : List C) (ps : List P) (entry : Pair ℕ × Path ℚ) :
    Exec CalculatorError (Pair C × PricePath C P (Amount w)) := do
  let source ← Exec.orPanic .index cs[entry.1.source]?
  let target ← Exec.orPanic .index cs[entry.1.target]?
  let totalCost ← Exec.orPanic .unwrap (Amount.ofU128 (asU128 (entry.2.totalCost * precision)))
  let steps ← entry.2.edges.mapM (toPathStep cs ps)
  return (⟨source, target⟩, ⟨totalCost, steps⟩)

/-- Wraps the Floyd-Warshall algorithm, with indices in place of currencies and providers. -/
def calcBestPaths {α : Type} [AddCommGroup α] [LinearOrder α] (L : Log2 ℚ α) :
    BestPathCalculator C P w := fun pairsAndPrices => do
  let cs := currencies pairsAndPrices
  let ps := providers pairsAndPrices
  let edges ← graph pairsAndPrices
  let res ← Exec.mapErr fromPathCalculationError (longestPathsMult L edges)
  let entries ← res.toList.mapM (toPricePath cs ps)
  return Std.ExtTreeMap.ofList entries

end FloydWarshallCalculator

end Aggregator
