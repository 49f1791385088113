import Aggregator.Verification.LongestPaths.UniqueEdges

/-! # The list of unique edges

It is sorted by pair, and each of its edges comes first among the best of its pair. A list
that is already sorted by pair stays as it is. -/

namespace Aggregator.Algo

variable {F G : Type*} [LinearOrder F] [LinearOrder G]

/-- The edge comes first in the list among those of its pair that no edge of the pair is
better than. -/
def FirstBest (better : F → F → Prop) (edges : List (Edge F)) (r : Edge F) : Prop :=
  ∃ xs ys, edges = xs ++ r :: ys ∧
    (∀ x ∈ xs, x.pair = r.pair → better r.cost x.cost) ∧
    ∀ y ∈ ys, y.pair = r.pair → ¬ better y.cost r.cost

/-- One edge for each pair of the input, sorted by pair: the first among the best. -/
structure FirstBestEdges (better : F → F → Prop) (edges res : List (Edge F)) : Prop where
  sorted : (res.map Edge.pair).Pairwise (· < ·)
  one : ∀ p, (∃ e ∈ edges, e.pair = p) ↔ ∃! r, r ∈ res ∧ r.pair = p
  first : ∀ r ∈ res, FirstBest better edges r

/-! ## Sorted by pair -/

section Sorted

variable {edges : List (Edge F)} {ordering : Ordering}

theorem sorted_uniqueCheapestEdges (hord : ordering ≠ .eq) :
    ((uniqueCheapestEdges edges ordering).map Edge.pair).Pairwise (· < ·) := by
  rw [map_pair_uniqueCheapestEdges hord]
  exact KeyedFold.sorted_keys_toList _

/-- A list that is sorted by pair has one edge for each pair, in order. -/
theorem uniqueCheapestEdges_of_sorted (hord : ordering ≠ .eq)
    (hsorted : (edges.map Edge.pair).Pairwise (· < ·)) :
    uniqueCheapestEdges edges ordering = edges := by
  have hone : OneEdgePerPair edges := hsorted.imp fun h => h.ne
  refine KeyedFold.eq_of_sorted_keys (sorted_uniqueCheapestEdges hord) hsorted fun e => ?_
  exact mem_uniqueCheapestEdges_of_oneEdgePerPair hord hone

theorem existsUnique_mem_uniqueCheapestEdges (hord : ordering ≠ .eq) (p : Pair ℕ) :
    (∃ e ∈ edges, e.pair = p) ↔ ∃! r, r ∈ uniqueCheapestEdges edges ordering ∧ r.pair = p := by
  constructor
  · rintro ⟨e, he, rfl⟩
    obtain ⟨r, hr, hpair, -⟩ := exists_mem_uniqueCheapestEdges hord he
    refine ⟨r, ⟨hr, hpair⟩, fun r' hr' => ?_⟩
    exact List.inj_on_of_nodup_map (oneEdgePerPair_uniqueCheapestEdges hord) hr'.1 hr
      (hr'.2.trans hpair.symm)
  · rintro ⟨r, ⟨hr, hpair⟩, -⟩
    exact ⟨r, mem_of_mem_uniqueCheapestEdges hord hr, hpair⟩

end Sorted

/-! ## The first among the best -/

omit [LinearOrder F] in
/-- The split of the edges on a pair at one of them comes from a split of the whole list. -/
theorem exists_split_of_filter {edges xs ys : List (Edge F)} {p : Pair ℕ} {r : Edge F}
    (h : edges.filter (fun e => e.pair = p) = xs ++ r :: ys) :
    ∃ xs' ys', edges = xs' ++ r :: ys' ∧ (∀ x ∈ xs', x.pair = p → x ∈ xs) ∧
      ∀ y ∈ ys', y.pair = p → y ∈ ys := by
  obtain ⟨before, rest, rfl, hbefore, hrest⟩ := List.filter_eq_append_iff.mp h
  obtain ⟨between, after, rfl, hbetween, -, hafter⟩ := List.filter_eq_cons_iff.mp hrest
  refine ⟨before ++ between, after, by simp, fun x hx hpair => ?_, fun y hy hpair => ?_⟩
  · rcases List.mem_append.mp hx with hx | hx
    · exact hbefore ▸ List.mem_filter.mpr ⟨hx, by simpa using hpair⟩
    · exact absurd (by simpa using hpair) (hbetween x hx)
  · exact hafter ▸ List.mem_filter.mpr ⟨hy, by simpa using hpair⟩

theorem firstBest_of_mem {edges : List (Edge F)} {ordering : Ordering} (hord : ordering ≠ .eq)
    {r : Edge F} (hr : r ∈ uniqueCheapestEdges edges ordering) :
    FirstBest (fun a b => compare b a = ordering) edges r := by
  obtain ⟨xs, ys, hsplit, hxs, hys⟩ :=
    edgesByPair_spec hord ((mem_uniqueCheapestEdges hord).mp hr)
  obtain ⟨xs', ys', heq, hxs', hys'⟩ := exists_split_of_filter hsplit
  refine ⟨xs', ys', heq, fun x hx hpair => ?_, fun y hy hpair => ?_⟩
  · exact hxs x (hxs' x hx hpair)
  · exact hys y (hys' y hy hpair)

theorem firstBestEdges_uniqueCheapestEdges {better : F → F → Prop} {ordering : Ordering}
    (hord : ordering ≠ .eq) (hbetter : ∀ a b, compare b a = ordering ↔ better a b)
    (edges : List (Edge F)) : FirstBestEdges better edges (uniqueCheapestEdges edges ordering) := by
  obtain rfl : better = fun a b => compare b a = ordering :=
    funext₂ fun a b => propext (hbetter a b).symm
  exact ⟨sorted_uniqueCheapestEdges hord, existsUnique_mem_uniqueCheapestEdges hord,
    fun r hr => firstBest_of_mem hord hr⟩

/-- `Less` selects the greatest cost of each pair and `Greater` the least, always the first of
its kind; whatever costs the selected edges are given then, a second pass in either ordering
keeps them all, in order. -/
theorem uniqueCheapestEdges_spec (edges : List (Edge F)) :
    FirstBestEdges (· > ·) edges (uniqueCheapestEdges edges .lt) ∧
    FirstBestEdges (· < ·) edges (uniqueCheapestEdges edges .gt) ∧
    ∀ ordering ∈ [Ordering.lt, .gt], ∀ again ∈ [Ordering.lt, .gt], ∀ recosted : List (Edge G),
      recosted.map (fun e => (e.pair, e.provider)) =
        (uniqueCheapestEdges edges ordering).map (fun e => (e.pair, e.provider)) →
      uniqueCheapestEdges recosted again = recosted := by
  refine ⟨firstBestEdges_uniqueCheapestEdges (by decide) (fun _ _ => compare_lt_iff_lt) edges,
    firstBestEdges_uniqueCheapestEdges (by decide) (fun _ _ => compare_gt_iff_gt) edges, ?_⟩
  intro ordering hordering again hagain recosted hsame
  have hne : ∀ o ∈ [Ordering.lt, .gt], o ≠ .eq := by decide
  refine uniqueCheapestEdges_of_sorted (hne again hagain) ?_
  have hpairs : recosted.map Edge.pair = (uniqueCheapestEdges edges ordering).map Edge.pair := by
    simpa [Function.comp_def] using congrArg (List.map Prod.fst) hsame
  rw [hpairs]
  exact sorted_uniqueCheapestEdges (hne ordering hordering)

/-- The case of the source's own test. -/
example : uniqueCheapestEdges
    [⟨⟨1, 2⟩, 3, (1 : ℚ)⟩, ⟨⟨1, 2⟩, 33, 10⟩, ⟨⟨1, 2⟩, 333, 5⟩] .lt = [⟨⟨1, 2⟩, 33, 10⟩] := by
  decide +kernel

end Aggregator.Algo
