import Aggregator.Verification.FloydWarshall.Correctness

/-! # One edge for each pair -/

namespace Aggregator.Algo

variable {F : Type*} [LinearOrder F]

/-- Folding `keepEdge` selects the first edge that no other edge beats. -/
theorem foldl_keepEdge_spec {ordering : Ordering} (hord : ordering ≠ .eq) {l : List (Edge F)}
    (hne : l ≠ []) :
    ∃ xs r ys, l = xs ++ r :: ys ∧
      l.foldl (fun o e => keepEdge ordering e o) none = some r ∧
      (∀ x ∈ xs, compare x.cost r.cost = ordering) ∧
      ∀ y ∈ ys, compare r.cost y.cost ≠ ordering := by
  induction l using List.reverseRecOn with
  | nil => exact (hne rfl).elim
  | append_singleton l e ih =>
      rw [List.foldl_append, List.foldl_cons, List.foldl_nil]
      by_cases hl : l = []
      · subst hl
        exact ⟨[], e, [], rfl, rfl, by simp, by simp⟩
      · obtain ⟨xs, r, ys, hsplit, hfold, hxs, hys⟩ := ih hl
        rw [hfold]
        by_cases hc : compare r.cost e.cost = ordering
        · refine ⟨l, e, [], rfl, by simp [keepEdge, hc], ?_, by simp⟩
          intro x hx
          rw [hsplit, List.mem_append, List.mem_cons] at hx
          cases ordering with
          | eq => exact (hord rfl).elim
          | lt =>
              simp only [compare_lt_iff_lt, ne_eq, not_lt] at hc hxs hys ⊢
              rcases hx with hx | rfl | hx
              · exact (hxs x hx).trans hc
              · exact hc
              · exact (hys x hx).trans_lt hc
          | gt =>
              simp only [compare_gt_iff_gt, ne_eq, not_lt] at hc hxs hys ⊢
              rcases hx with hx | rfl | hx
              · exact hc.trans (hxs x hx)
              · exact hc
              · exact hc.trans_le (hys x hx)
        · refine ⟨xs, r, ys ++ [e], by simp [hsplit], by simp [keepEdge, hc], hxs, ?_⟩
          intro y hy
          rcases List.mem_append.mp hy with hy | hy
          · exact hys y hy
          · rw [List.mem_singleton.mp hy]
            exact hc

theorem edgesByPair_getElem? (edges : List (Edge F)) (ordering : Ordering) (p : Pair ℕ) :
    (edgesByPair edges ordering)[p]? =
      (edges.filter (fun e => e.pair = p)).foldl (fun o e => keepEdge ordering e o) none := by
  rw [edgesByPair, KeyedFold.getElem?_foldl_alter]
  simp

/-- The edge kept for a pair is the first in the input that no other edge on the pair beats. -/
theorem edgesByPair_spec {edges : List (Edge F)} {ordering : Ordering} (hord : ordering ≠ .eq)
    {p : Pair ℕ} {r : Edge F} (h : (edgesByPair edges ordering)[p]? = some r) :
    ∃ xs ys, edges.filter (fun e => e.pair = p) = xs ++ r :: ys ∧
      (∀ x ∈ xs, compare x.cost r.cost = ordering) ∧
      ∀ y ∈ ys, compare r.cost y.cost ≠ ordering := by
  rw [edgesByPair_getElem?] at h
  have hne : edges.filter (fun e => e.pair = p) ≠ [] := by
    intro hnil
    rw [hnil] at h
    cases h
  obtain ⟨xs, r', ys, hsplit, hfold, hxs, hys⟩ := foldl_keepEdge_spec hord hne
  rw [hfold] at h
  cases h
  exact ⟨xs, ys, hsplit, hxs, hys⟩

theorem edgesByPair_mem {edges : List (Edge F)} {ordering : Ordering} (hord : ordering ≠ .eq)
    {p : Pair ℕ} {r : Edge F} (h : (edgesByPair edges ordering)[p]? = some r) :
    r ∈ edges ∧ r.pair = p := by
  obtain ⟨xs, ys, hsplit, -, -⟩ := edgesByPair_spec hord h
  have hmem : r ∈ edges.filter (fun e => e.pair = p) := by simp [hsplit]
  simpa using hmem

/-! ## The returned list -/

variable {edges : List (Edge F)} {ordering : Ordering}

theorem mem_uniqueCheapestEdges (hord : ordering ≠ .eq) {r : Edge F} :
    r ∈ uniqueCheapestEdges edges ordering ↔
      (edgesByPair edges ordering)[r.pair]? = some r := by
  unfold uniqueCheapestEdges
  constructor
  · intro h
    obtain ⟨⟨p, r'⟩, hx, rfl⟩ := List.mem_map.mp h
    have hget := KeyedFold.mem_toList_iff.mp hx
    rw [(edgesByPair_mem hord hget).2]
    exact hget
  · intro h
    exact List.mem_map.mpr ⟨(r.pair, r), KeyedFold.mem_toList_iff.mpr h, rfl⟩

theorem mem_of_mem_uniqueCheapestEdges (hord : ordering ≠ .eq) {r : Edge F}
    (h : r ∈ uniqueCheapestEdges edges ordering) : r ∈ edges :=
  (edgesByPair_mem hord ((mem_uniqueCheapestEdges hord).mp h)).1

theorem map_pair_uniqueCheapestEdges (hord : ordering ≠ .eq) :
    (uniqueCheapestEdges edges ordering).map Edge.pair =
      (edgesByPair edges ordering).toList.map Prod.fst := by
  rw [uniqueCheapestEdges, List.map_map]
  refine List.map_congr_left fun x hx => ?_
  exact (edgesByPair_mem hord (KeyedFold.mem_toList_iff.mp hx)).2

theorem oneEdgePerPair_uniqueCheapestEdges (hord : ordering ≠ .eq) :
    OneEdgePerPair (uniqueCheapestEdges edges ordering) := by
  rw [OneEdgePerPair, map_pair_uniqueCheapestEdges hord]
  exact KeyedFold.nodup_keys_toList _

/-- Every input edge is represented by an edge on its pair that it does not beat. -/
theorem exists_mem_uniqueCheapestEdges (hord : ordering ≠ .eq) {e : Edge F} (he : e ∈ edges) :
    ∃ r ∈ uniqueCheapestEdges edges ordering,
      r.pair = e.pair ∧ compare r.cost e.cost ≠ ordering := by
  have hmem : e ∈ edges.filter (fun x => x.pair = e.pair) := by simpa using he
  obtain ⟨xs, r, ys, hsplit, hfold, hxs, hys⟩ :=
    foldl_keepEdge_spec hord (List.ne_nil_of_mem hmem)
  have hget : (edgesByPair edges ordering)[e.pair]? = some r := by
    rw [edgesByPair_getElem?, hfold]
  have hpair := (edgesByPair_mem hord hget).2
  refine ⟨r, (mem_uniqueCheapestEdges hord).mpr (hpair.symm ▸ hget), hpair, ?_⟩
  rw [hsplit, List.mem_append, List.mem_cons] at hmem
  rcases hmem with hmem | rfl | hmem
  · have hbeaten := hxs e hmem
    cases ordering with
    | eq => exact (hord rfl).elim
    | lt =>
        simp only [compare_lt_iff_lt, ne_eq, not_lt] at hbeaten ⊢
        exact hbeaten.le
    | gt =>
        simp only [compare_gt_iff_gt, ne_eq, not_lt] at hbeaten ⊢
        exact hbeaten.le
  · simpa using hord.symm
  · exact hys e hmem

/-- The edge is in the list and beats or equals every edge on its pair. -/
def Unbeaten (edges : List (Edge F)) (ordering : Ordering) (e : Edge F) : Prop :=
  e ∈ edges ∧ ∀ x ∈ edges, x.pair = e.pair → compare e.cost x.cost ≠ ordering

theorem unbeaten_of_mem_uniqueCheapestEdges (hord : ordering ≠ .eq) {r : Edge F}
    (hr : r ∈ uniqueCheapestEdges edges ordering) : Unbeaten edges ordering r := by
  refine ⟨mem_of_mem_uniqueCheapestEdges hord hr, fun x hx hpair => ?_⟩
  obtain ⟨r', hr', hpair', hbeats⟩ := exists_mem_uniqueCheapestEdges hord hx
  obtain rfl : r' = r := List.inj_on_of_nodup_map
    (oneEdgePerPair_uniqueCheapestEdges hord) hr' hr (hpair'.trans hpair)
  exact hbeats

/-- Unbeaten edges on the same pair cost the same. -/
theorem exists_mem_of_unbeaten (hord : ordering ≠ .eq) {e : Edge F}
    (he : Unbeaten edges ordering e) :
    ∃ r ∈ uniqueCheapestEdges edges ordering, r.pair = e.pair ∧ r.cost = e.cost := by
  obtain ⟨r, hr, hpair, hbeats⟩ := exists_mem_uniqueCheapestEdges hord he.1
  refine ⟨r, hr, hpair, ?_⟩
  have hbeaten := he.2 r (mem_of_mem_uniqueCheapestEdges hord hr) hpair
  cases ordering with
  | eq => exact (hord rfl).elim
  | lt =>
      simp only [ne_eq, compare_lt_iff_lt, not_lt] at hbeats hbeaten
      exact le_antisymm hbeaten hbeats
  | gt =>
      simp only [ne_eq, compare_gt_iff_gt, not_lt] at hbeats hbeaten
      exact le_antisymm hbeats hbeaten

/-- A walk of unbeaten edges is followed by kept edges at the same costs. -/
theorem exists_walkIn_of_unbeaten (hord : ordering ≠ .eq) {es : List (Edge F)} {s t : ℕ}
    (hw : EdgeWalk.IsWalk Edge.source Edge.target s es t)
    (hes : ∀ e ∈ es, Unbeaten edges ordering e) :
    ∃ rs, WalkIn (uniqueCheapestEdges edges ordering) s rs t ∧
      rs.map Edge.cost = es.map Edge.cost := by
  have hedge : ∀ e ∈ es, ∃ r, (r ∈ uniqueCheapestEdges edges ordering ∧ e.cost = r.cost) ∧
      e.source = r.source ∧ e.target = r.target := by
    intro e he
    obtain ⟨r, hr, hpair, hcost⟩ := exists_mem_of_unbeaten hord (hes e he)
    exact ⟨r, ⟨hr, hcost.symm⟩, congrArg Pair.source hpair.symm, congrArg Pair.target hpair.symm⟩
  obtain ⟨rs, hwr, hrs⟩ := hw.exists_forall₂ (r := Eq) (by simp) hedge rfl rfl
  refine ⟨rs, ⟨hwr, fun r hr => ?_⟩, ?_⟩
  · obtain ⟨e, -, hre⟩ := EdgeWalk.exists_mem_of_forall₂ hrs hr
    exact hre.1
  · exact (EdgeWalk.map_eq_map_of_forall₂ hrs fun _ _ h => h.2).symm

/-- A list with one edge on each pair keeps all its edges. -/
theorem mem_uniqueCheapestEdges_of_oneEdgePerPair (hord : ordering ≠ .eq)
    (hone : OneEdgePerPair edges) {e : Edge F} :
    e ∈ uniqueCheapestEdges edges ordering ↔ e ∈ edges := by
  refine ⟨mem_of_mem_uniqueCheapestEdges hord, fun he => ?_⟩
  obtain ⟨r, hr, hpair, -⟩ := exists_mem_uniqueCheapestEdges hord he
  have hre : r = e :=
    List.inj_on_of_nodup_map hone (mem_of_mem_uniqueCheapestEdges hord hr) he hpair
  exact hre ▸ hr

end Aggregator.Algo
