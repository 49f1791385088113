import Aggregator.Model.Runtime
import Aggregator.Verification.LongestPaths.Logarithm
import Aggregator.Verification.OffchainWorker.Round

/-! # The tolerance in unbounded integers

The product with one million saturates before the division, so a large stored cost hides a
large change. -/

namespace Aggregator

/-- The distance between two costs. -/
def costChange (old new : ℕ) : ℕ := max old new - min old new

/-- The change in parts per million, rounded down. -/
def exactDelta (old new : ℕ) : ℕ := 1000000 * costChange old new / old

theorem saturatingMul_costChange (old new : ℕ) :
    (if old > new then saturatingMul 1000000 (old - new) else saturatingMul 1000000 (new - old)) =
      min (1000000 * costChange old new) u128Max := by
  unfold saturatingMul costChange
  split
  · rename_i h
    rw [max_eq_left h.le, min_eq_right h.le]
  · rename_i h
    rw [max_eq_right (not_lt.mp h), min_eq_left (not_lt.mp h)]

theorem div_le_iff_lt_mul {old tolerance dividend : ℕ} (hold : old ≠ 0) :
    dividend / old ≤ tolerance ↔ dividend < old * (tolerance + 1) := by
  rw [← Nat.lt_add_one_iff, Nat.div_lt_iff_lt_mul (Nat.pos_of_ne_zero hold), mul_comm]

/-- A saturated quotient is within the tolerance when the exact one is, or when the bound is out
of range. -/
theorem min_div_le_iff {old tolerance dividend bound : ℕ} (hold : old ≠ 0) :
    min dividend bound / old ≤ tolerance ↔
      bound < old * (tolerance + 1) ∨ dividend / old ≤ tolerance := by
  rw [div_le_iff_lt_mul hold, div_le_iff_lt_mul hold, min_lt_iff, or_comm]

/-- Saturating the dividend changes the comparison exactly when the bound is out of range
and the change is beyond it. -/
theorem lt_min_div_iff {old tolerance dividend bound : ℕ} (hold : old ≠ 0) :
    (tolerance < min dividend bound / old ↔ tolerance < dividend / old) ↔
      old * (tolerance + 1) ≤ bound ∨ dividend < old * (tolerance + 1) := by
  rw [← not_le, ← not_le, min_div_le_iff hold, div_le_iff_lt_mul hold]
  omega

variable {T : Config}

section SelectChanges

variable {order : IterOrder (Pair T.Currency) T.Path} {bestPaths newBestPaths : T.BestPaths}
  {changes : List T.Change}

/-- A stored pair is selected when its saturated change is beyond the tolerance. -/
theorem exists_mem_selectChanges_iff
    (h : selectChanges order bestPaths newBestPaths = .ok changes) {pair : Pair T.Currency}
    {old path : T.Path} (hold : bestPaths[pair]? = some old)
    (hnew : newBestPaths[pair]? = some path) :
    (∃ change ∈ changes, change.pair = pair) ↔
      T.priceChangeTolerance.toNat <
        min (1000000 * costChange old.totalCost.toNat path.totalCost.toNat) u128Max /
          old.totalCost.toNat := by
  obtain ⟨b, hb⟩ := exists_breachesTolerance h hold hnew
  have heq := (breachesTolerance_eq_ok_iff.mp hb).2
  rw [saturatingMul_costChange] at heq
  have hselected : b = true ↔ T.priceChangeTolerance.toNat <
      min (1000000 * costChange old.totalCost.toNat path.totalCost.toNat) u128Max /
        old.totalCost.toNat := by
    rw [heq, decide_eq_true_iff]
  rw [← hselected]
  constructor
  · rintro ⟨change, hchange, hpair⟩
    obtain ⟨pair', path', rfl, hpath', hbreach⟩ := (mem_selectChanges h).mp hchange
    obtain rfl : pair' = pair := hpair
    obtain rfl := Option.some.inj (hnew.symm.trans hpath')
    exact Except.ok.inj (hb.symm.trans (hbreach old hold))
  · rintro rfl
    refine ⟨(pair.source, pair.target, some path), ?_, rfl⟩
    refine (mem_selectChanges h).mpr ⟨pair, path, rfl, hnew, fun old' hold' => ?_⟩
    obtain rfl := Option.some.inj (hold.symm.trans hold')
    exact hb

/-- A stored pair is selected by its exact change if and only if the stored cost leaves room
for the tolerance below the saturation, or the change is within the tolerance anyway. -/
theorem selectChanges_exact_iff
    (h : selectChanges order bestPaths newBestPaths = .ok changes) {pair : Pair T.Currency}
    {old path : T.Path} (hold : bestPaths[pair]? = some old)
    (hnew : newBestPaths[pair]? = some path) :
    ((∃ change ∈ changes, change.pair = pair) ↔
      T.priceChangeTolerance.toNat < exactDelta old.totalCost.toNat path.totalCost.toNat) ↔
    (old.totalCost.toNat * (T.priceChangeTolerance.toNat + 1) ≤ u128Max ∨
      1000000 * costChange old.totalCost.toNat path.totalCost.toNat <
        old.totalCost.toNat * (T.priceChangeTolerance.toNat + 1)) := by
  obtain ⟨b, hb⟩ := exists_breachesTolerance h hold hnew
  rw [exists_mem_selectChanges_iff h hold hnew]
  exact lt_min_div_iff (breachesTolerance_eq_ok_iff.mp hb).1

end SelectChanges

/-! ## A price that halves from the highest cost -/

def highestPath : (nodeRuntime Algo.Log2.rational).Path := ⟨BitVec.ofNat 128 u128Max, []⟩

def halvedPath : (nodeRuntime Algo.Log2.rational).Path := ⟨BitVec.ofNat 128 (2 ^ 127), []⟩

/-- One pair with the given path. -/
def singlePath (path : (nodeRuntime Algo.Log2.rational).Path) :
    (nodeRuntime Algo.Log2.rational).BestPaths :=
  (∅ : (nodeRuntime Algo.Log2.rational).BestPaths).insert ⟨btc, eth⟩ path

theorem getElem?_singlePath (path : (nodeRuntime Algo.Log2.rational).Path) :
    (singlePath path)[(⟨btc, eth⟩ : Pair (nodeRuntime Algo.Log2.rational).Currency)]? =
      some path := by
  rw [singlePath, KeyedFold.getElem?_insert_eq, if_pos rfl]

theorem selectChanges_eq_nil :
    selectChanges (.byKey _ _) (singlePath highestPath) (singlePath halvedPath) = .ok [] := by
  have heval : (selectChanges (.byKey _ _) (singlePath highestPath)
      (singlePath halvedPath)).toOption.map List.isEmpty = some true := by decide +kernel
  obtain ⟨changes, hchanges, hempty⟩ := Option.map_eq_some_iff.mp heval
  rw [Exec.toOption_eq_some_iff.mp hchanges, List.isEmpty_iff.mp hempty]

theorem selectChanges_exact_iff_halvedPath :
    ∃ changes,
      selectChanges (.byKey _ _) (singlePath highestPath) (singlePath halvedPath) = .ok changes ∧
      (((∃ change ∈ changes, BestPathChange.pair change = ⟨btc, eth⟩) ↔
          (nodeRuntime Algo.Log2.rational).priceChangeTolerance.toNat <
            exactDelta highestPath.totalCost.toNat halvedPath.totalCost.toNat) ↔
        (highestPath.totalCost.toNat *
            ((nodeRuntime Algo.Log2.rational).priceChangeTolerance.toNat + 1) ≤ u128Max ∨
          1000000 * costChange highestPath.totalCost.toNat halvedPath.totalCost.toNat <
            highestPath.totalCost.toNat *
              ((nodeRuntime Algo.Log2.rational).priceChangeTolerance.toNat + 1))) :=
  ⟨[], selectChanges_eq_nil, selectChanges_exact_iff selectChanges_eq_nil
    (getElem?_singlePath highestPath) (getElem?_singlePath halvedPath)⟩

/-- The cost halves, and the round takes the change to be within a tolerance of one. -/
theorem selectChanges_halvedPath :
    ∃ changes,
      selectChanges (.byKey _ _) (singlePath highestPath) (singlePath halvedPath) = .ok changes ∧
      ¬ ((∃ change ∈ changes, BestPathChange.pair change = ⟨btc, eth⟩) ↔
        (nodeRuntime Algo.Log2.rational).priceChangeTolerance.toNat <
          exactDelta highestPath.totalCost.toNat halvedPath.totalCost.toNat) := by
  refine ⟨[], selectChanges_eq_nil, fun hiff => ?_⟩
  obtain ⟨change, hchange, -⟩ := hiff.mpr (by decide +kernel)
  cases hchange

end Aggregator
