import Aggregator.Verification.LongestPaths.UniqueEdges

/-! # Shortest paths with parallel edges

The run keeps one edge of greatest cost for each pair. Its entries are the shortest walks
over the whole input exactly when walks of such edges make up for every other edge. -/

namespace Aggregator.Algo

open EdgeWalk

variable {α : Type*} [AddCommGroup α] [LinearOrder α] {edges : List (Edge (F64 α))}

/-- The edge is in the list and no edge on the same pair costs more. -/
def Dearest (edges : List (Edge (F64 α))) (e : Edge (F64 α)) : Prop :=
  e ∈ edges ∧ ∀ x ∈ edges, x.pair = e.pair → x.cost ≤ e.cost

/-- The entries between distinct vertices are the shortest walks over the edges. -/
def ShortestOverAllWalks (edges : List (Edge (F64 α))) (m : Matrix α) : Prop :=
  ∀ s t, s ≠ t →
    ((⟨s, t⟩ : Pair ℕ) ∈ m ↔ ∃ es, WalkIn edges s es t) ∧
    ∀ path, m[(⟨s, t⟩ : Pair ℕ)]? = some path →
      IsLeast {c | ∃ es, WalkIn edges s es t ∧ cost Edge.cost es = c} path.totalCost

/-- Every edge between distinct vertices is matched by a walk of greatest-cost edges. -/
def DearestSuffice (edges : List (Edge (F64 α))) : Prop :=
  ∀ e ∈ edges, e.source ≠ e.target →
    ∃ es, IsWalk Edge.source Edge.target e.source es e.target ∧
      (∀ x ∈ es, Dearest edges x) ∧ cost Edge.cost es ≤ e.cost

omit [AddCommGroup α] in
theorem dearest_iff_unbeaten {e : Edge (F64 α)} : Dearest edges e ↔ Unbeaten edges .lt e := by
  simp only [Dearest, Unbeaten, ne_eq, compare_lt_iff_lt, not_lt]

omit [AddCommGroup α] in
theorem mem_of_mem_dearestEdges {e : Edge (F64 α)} (he : e ∈ uniqueCheapestEdges edges .lt) :
    e ∈ edges :=
  mem_of_mem_uniqueCheapestEdges (by decide) he

theorem NoNegativeCycle.dearestEdges (h : NoNegativeCycle edges) :
    NoNegativeCycle (uniqueCheapestEdges edges .lt) :=
  fun v es hw => h v es (hw.mono fun _ => mem_of_mem_dearestEdges)

variable [IsOrderedAddMonoid α]

/-- Edge by edge, a walk is replaced by greatest-cost edges; loops are left out. -/
theorem DearestSuffice.exists_walk (h : DearestSuffice edges) (hneg : NoNegativeCycle edges)
    {es : List (Edge (F64 α))} {s t : ℕ} (hw : WalkIn edges s es t) :
    ∃ es', IsWalk Edge.source Edge.target s es' t ∧ (∀ x ∈ es', Dearest edges x) ∧
      cost Edge.cost es' ≤ cost Edge.cost es := by
  refine hw.1.exists_replaced (R := fun es es' => cost Edge.cost es' ≤ cost Edge.cost es)
    le_rfl ?_ ?_ hw.2
  · intro e he hloop es es' hle
    have hnonneg : 0 ≤ e.cost := by
      simpa using hneg e.source [e] ⟨⟨rfl, hloop.symm⟩, by simpa using he⟩
    rw [cost_cons]
    exact hle.trans (le_add_of_nonneg_left hnonneg)
  · intro e he hne
    obtain ⟨xs, hxs, hdear, hlex⟩ := h e he hne
    refine ⟨xs, hxs, hdear, fun es es' hle => ?_⟩
    rw [cost_append, cost_cons]
    exact add_le_add hlex hle

/-- Without negative closed walks, the run returns the shortest walks over the whole input
exactly when the greatest-cost edges suffice for them. -/
theorem shortestPaths_shortestOverAllWalks_iff (hfin : ∀ e ∈ edges, ∃ c : α, e.cost = c)
    (hneg : NoNegativeCycle edges) :
    (∃ m, shortestPaths edges = .ok m ∧ ShortestOverAllWalks edges m) ↔
      DearestSuffice edges := by
  have hone : OneEdgePerPair (uniqueCheapestEdges edges .lt) :=
    oneEdgePerPair_uniqueCheapestEdges (by decide)
  have hrun : shortestPaths edges = .ok (finalMatrix (uniqueCheapestEdges edges .lt)) :=
    floydWarshallShortestPaths_of_noNegativeCycle hneg.dearestEdges
  constructor
  · rintro ⟨m, hm, hshort⟩ e he hne
    obtain rfl := Except.ok.inj (hrun.symm.trans hm)
    have hwalk : WalkIn edges e.source [e] e.target := ⟨⟨rfl, rfl⟩, by simpa using he⟩
    have hmem := (hshort e.source e.target hne).1.mpr ⟨[e], hwalk⟩
    obtain ⟨path, hpath⟩ := KeyedFold.mem_iff_exists.mp hmem
    obtain ⟨-, -, hw, htotal⟩ := sound_finalMatrix _ _ _ hpath
    refine ⟨path.edges, hw.1, fun x hx => ?_, ?_⟩
    · exact dearest_iff_unbeaten.mpr
        (unbeaten_of_mem_uniqueCheapestEdges (by decide) (hw.2 x hx))
    · rw [← htotal]
      exact ((hshort e.source e.target hne).2 path hpath).2 ⟨[e], hwalk, by simp⟩
  · intro hsuff
    refine ⟨_, hrun, fun s t hne => ?_⟩
    rw [KeyedFold.mem_iff_exists]
    refine isLeast_entry Path.edges (fun path hpath => ?_) fun es hw => ?_
    · obtain ⟨-, -, hw, htotal⟩ := sound_finalMatrix _ _ _ hpath
      exact ⟨hw.mono fun _ => mem_of_mem_dearestEdges, htotal.symm⟩
    · obtain ⟨ys, hys, hdear, hle⟩ := hsuff.exists_walk hneg hw
      obtain ⟨rs, hrs, hcosts⟩ := exists_walkIn_of_unbeaten (by decide) hys fun x hx =>
        dearest_iff_unbeaten.mp (hdear x hx)
      have hcost : cost Edge.cost rs = cost Edge.cost ys := congrArg List.sum hcosts
      obtain ⟨path, hpath, hle'⟩ := exists_entry_le hone hneg.dearestEdges hrs
        (hrs.1.ne_nil hne) (cost_ne_top hfin fun x hx => mem_of_mem_dearestEdges (hrs.2 x hx))
      exact ⟨path, hpath, (hle'.trans hcost.le).trans hle⟩

/-- Two edges on one pair, the second one twice the cost of the first. -/
def parallelEdges : List (Edge (F64 ℤ)) := [⟨⟨0, 1⟩, 0, (1 : ℤ)⟩, ⟨⟨0, 1⟩, 1, (2 : ℤ)⟩]

theorem noNegativeCycle_parallelEdges : NoNegativeCycle parallelEdges := by
  intro v es hw
  have hnil := hw.eq_nil (by decide)
  simp [hnil]

theorem shortestPaths_shortestOverAllWalks_iff_parallelEdges :
    (∃ m, shortestPaths parallelEdges = .ok m ∧ ShortestOverAllWalks parallelEdges m) ↔
      DearestSuffice parallelEdges :=
  shortestPaths_shortestOverAllWalks_iff (by simp [parallelEdges]) noNegativeCycle_parallelEdges

/-- The run keeps the dearer edge, so the path it returns is not the shortest walk. -/
theorem shortestPaths_parallelEdges :
    (∀ e ∈ parallelEdges, ∃ c : ℤ, e.cost = c) ∧ NoNegativeCycle parallelEdges ∧
      ¬ ∃ m, shortestPaths parallelEdges = .ok m ∧ ShortestOverAllWalks parallelEdges m := by
  refine ⟨by simp [parallelEdges], noNegativeCycle_parallelEdges, ?_⟩
  rintro ⟨m, hrun, hshort⟩
  have heval : (shortestPaths parallelEdges).toOption.bind (fun m => m[(⟨0, 1⟩ : Pair ℕ)]?) =
      some ⟨(2 : ℤ), [⟨⟨0, 1⟩, 1, (2 : ℤ)⟩]⟩ := by decide +kernel
  rw [hrun] at heval
  have hle := ((hshort 0 1 (by decide)).2 _ heval).2 ⟨[⟨⟨0, 1⟩, 0, (1 : ℤ)⟩], by decide, rfl⟩
  revert hle
  decide

end Aggregator.Algo
