import Aggregator.Verification.FloydWarshall.Matrix
import Mathlib.Data.Int.ConditionallyCompleteOrder

/-! # Correctness of the Floyd-Warshall loop -/

namespace Aggregator.Algo

open EdgeWalk

variable {α : Type*} [AddCommGroup α] [LinearOrder α]

/-- The matrix when the triple loop ends. -/
def finalMatrix (edges : List (Edge (F64 α))) : Matrix α :=
  tripleLoop (vertices edges).toList (initialMatrix edges)

theorem sound_finalMatrix (edges : List (Edge (F64 α))) : Sound edges (finalMatrix edges) :=
  sound_tripleLoop _

theorem diagonal_mem_finalMatrix {edges : List (Edge (F64 α))} {v : ℕ}
    (hv : v ∈ vertices edges) : (⟨v, v⟩ : Pair ℕ) ∈ finalMatrix edges :=
  tripleLoop_induction (P := fun m => (⟨v, v⟩ : Pair ℕ) ∈ m)
    (fun _ _ _ _ h => mem_relax h) _ (initialMatrix_vertex hv)

theorem edge_mem_finalMatrix {edges : List (Edge (F64 α))} (hnd : (edges.map Edge.pair).Nodup)
    {e : Edge (F64 α)} (he : e ∈ edges) : e.pair ∈ finalMatrix edges := by
  refine tripleLoop_induction (P := fun m => e.pair ∈ m) (fun _ _ _ _ h => mem_relax h) _ ?_
  exact KeyedFold.mem_of_getElem? (initialMatrix_edge hnd he)

/-- Without a self-loop, a diagonal entry never rises above the identity. -/
theorem diagonal_finalMatrix_nonpos {edges : List (Edge (F64 α))} {v : ℕ}
    (hv : v ∈ vertices edges) (hloop : ∀ e ∈ edges, e.pair ≠ ⟨v, v⟩) :
    costs (finalMatrix edges) v v ≤ 0 := by
  refine tripleLoop_induction (P := fun m => costs m v v ≤ 0) ?_ _ ?_
  · intro k i j m hm
    rw [costs_relax]
    unfold Relaxation.relax
    split
    · rename_i h
      obtain ⟨rfl, rfl⟩ := h
      exact (min_le_left _ _).trans hm
    · exact hm
  · obtain ⟨path, hpath⟩ := KeyedFold.mem_iff_exists.mp (initialMatrix_vertex hv)
    rcases initialMatrix_cases hpath with ⟨e, he, hpair, -⟩ | ⟨-, -, -, rfl⟩
    · exact (hloop e he hpair).elim
    · exact (congrArg Path.totalCost (lookup_of_getElem? hpath)).le

/-! ## The check for negative cycles -/

theorem checkDiagonal_of_getElem? {m : Matrix α} {i : ℕ} {path : Path (F64 α)}
    (h : m[(⟨i, i⟩ : Pair ℕ)]? = some path) :
    checkDiagonal m i =
      if path.totalCost < 0 then .error (.err .negativeCyclesError) else .ok ⟨⟩ := by
  simp [checkDiagonal, h, Exec.fail, pure, Except.pure]

/-- The run ends with the final matrix, or with the error when some diagonal entry is
negative. -/
theorem floydWarshallShortestPaths_cases (edges : List (Edge (F64 α))) :
    (floydWarshallShortestPaths edges = .ok (finalMatrix edges) ∧
      ∀ (v : ℕ) (path : Path (F64 α)),
        (finalMatrix edges)[(⟨v, v⟩ : Pair ℕ)]? = some path → 0 ≤ path.totalCost) ∨
    (floydWarshallShortestPaths edges = .error (.err .negativeCyclesError) ∧
      ∃ (v : ℕ) (path : Path (F64 α)),
        (finalMatrix edges)[(⟨v, v⟩ : Pair ℕ)]? = some path ∧ path.totalCost < 0) := by
  have hrun : floydWarshallShortestPaths edges =
      forM (vertices edges).toList (checkDiagonal (finalMatrix edges)) >>= fun _ =>
        .ok (finalMatrix edges) := rfl
  have hentry : ∀ v ∈ (vertices edges).toList, ∃ path,
      (finalMatrix edges)[(⟨v, v⟩ : Pair ℕ)]? = some path := by
    intro v hv
    have hmem := diagonal_mem_finalMatrix (Std.ExtTreeSet.mem_toList.mp hv)
    exact KeyedFold.mem_iff_exists.mp hmem
  rw [hrun]
  cases hcheck : forM (vertices edges).toList (checkDiagonal (finalMatrix edges)) with
  | ok u =>
      refine .inl ⟨rfl, fun v path hpath => ?_⟩
      have hv := ((sound_finalMatrix edges) _ _ hpath).1
      have hok := Exec.forM_eq_ok_iff.mp hcheck v (Std.ExtTreeSet.mem_toList.mpr hv)
      rw [checkDiagonal_of_getElem? hpath] at hok
      by_contra hlt
      rw [if_pos (not_le.mp hlt)] at hok
      cases hok
  | error e =>
      obtain ⟨v, hv, hfail⟩ := Exec.exists_of_forM_eq_error hcheck
      obtain ⟨path, hpath⟩ := hentry v hv
      rw [checkDiagonal_of_getElem? hpath] at hfail
      split at hfail
      · rename_i hlt
        cases hfail
        exact .inr ⟨rfl, v, path, hpath, hlt⟩
      · cases hfail

/-! ## Negative closed walks -/

/-- At most one edge joins a source to a target. -/
def OneEdgePerPair {F : Type*} (edges : List (Edge F)) : Prop := (edges.map Edge.pair).Nodup

instance {F : Type*} (edges : List (Edge F)) : Decidable (OneEdgePerPair edges) :=
  inferInstanceAs (Decidable (List.Nodup _))

/-- No closed walk over the edges has negative total cost. -/
def NoNegativeCycle (edges : List (Edge (F64 α))) : Prop :=
  ∀ v es, WalkIn edges v es v → 0 ≤ cost Edge.cost es

/-- A negative diagonal entry stores a negative closed walk. -/
theorem floydWarshallShortestPaths_of_noNegativeCycle {edges : List (Edge (F64 α))}
    (hneg : NoNegativeCycle edges) :
    floydWarshallShortestPaths edges = .ok (finalMatrix edges) := by
  rcases floydWarshallShortestPaths_cases edges with ⟨h, -⟩ | ⟨-, v, path, hpath, hlt⟩
  · exact h
  · obtain ⟨-, -, hw, hcost⟩ := sound_finalMatrix edges _ _ hpath
    exact (not_lt.mpr (hneg v path.edges hw) (hcost ▸ hlt)).elim

/-- Without negative closed walks, no round trip is strictly cheaper than the identity. -/
theorem finalMatrix_identity {edges : List (Edge (F64 α))} (hneg : NoNegativeCycle edges) {v : ℕ}
    (hv : v ∈ vertices edges) (hloop : ∀ e ∈ edges, e.pair ≠ ⟨v, v⟩) :
    (finalMatrix edges)[(⟨v, v⟩ : Pair ℕ)]? = some ⟨0, []⟩ := by
  refine (tripleLoop_induction (P := fun m => Sound edges m ∧
    m[(⟨v, v⟩ : Pair ℕ)]? = some ⟨0, []⟩) ?_ _ ⟨sound_initialMatrix edges, ?_⟩).2
  · rintro k i j m ⟨hm, hid⟩
    refine ⟨sound_relax k i j m hm, ?_⟩
    rcases relax_cases k i j m with h | ⟨ik, kj, hik, hkj, hlt, h⟩
    · rwa [h]
    · rw [h, KeyedFold.getElem?_insert_eq]
      split
      · rename_i hij
        cases hij
        obtain ⟨-, -, hwik, hcik⟩ := hm _ _ hik
        obtain ⟨-, -, hwkj, hckj⟩ := hm _ _ hkj
        rw [costs, lookup_of_getElem? hid, hcik, hckj, ← cost_append] at hlt
        exact ((hneg v _ (hwik.append hwkj)).not_gt hlt).elim
      · exact hid
  · obtain ⟨path, hpath⟩ := KeyedFold.mem_iff_exists.mp (initialMatrix_vertex hv)
    rcases initialMatrix_cases hpath with ⟨e, he, hpair, -⟩ | ⟨-, -, -, rfl⟩
    · exact (hloop e he hpair).elim
    · exact hpath

/-- An edge from a vertex to itself takes the place of the identity, and only round trips
take its place. -/
theorem finalMatrix_loop {edges : List (Edge (F64 α))} {v : ℕ} {e : Edge (F64 α)} (he : e ∈ edges)
    (hloop : e.pair = ⟨v, v⟩) {path : Path (F64 α)}
    (h : (finalMatrix edges)[(⟨v, v⟩ : Pair ℕ)]? = some path) : path.edges ≠ [] := by
  refine (tripleLoop_induction (P := fun m => Sound edges m ∧ ∀ path : Path (F64 α),
    m[(⟨v, v⟩ : Pair ℕ)]? = some path → path.edges ≠ []) ?_ _
    ⟨sound_initialMatrix edges, ?_⟩).2 path h
  · rintro k i j m ⟨hm, hne⟩
    refine ⟨sound_relax k i j m hm, fun path hpath => ?_⟩
    rcases relax_cases k i j m with h | ⟨ik, kj, hik, hkj, -, h⟩
    · exact hne path (h ▸ hpath)
    · rw [h, KeyedFold.getElem?_insert_eq] at hpath
      split at hpath
      · rename_i hij
        cases hij
        cases hpath
        have hik_ne : ik.edges ≠ [] := by
          by_cases hvk : v = k
          · subst hvk
            exact hne ik hik
          · exact (hm _ _ hik).2.2.1.1.ne_nil hvk
        simp [hik_ne]
      · exact hne path hpath
  · intro path hpath
    rcases initialMatrix_cases hpath with ⟨e', -, -, rfl⟩ | ⟨hno, -⟩
    · simp
    · exact (hno e he hloop).elim

variable [IsOrderedAddMonoid α]

/-- After the stages of `ks`, entries are below every walk with distinct interior vertices
from `ks`, also when some closed walk is negative. -/
theorem eliminate_costs_le {edges : List (Edge (F64 α))} (hone : OneEdgePerPair edges)
    (ks : List ℕ) {s t : ℕ} {es : List (Edge (F64 α))} (hw : WalkIn edges s es t) (hne : es ≠ [])
    (hnd : (interior Edge.target es).Nodup) (hks : ∀ v ∈ interior Edge.target es, v ∈ ks) :
    Relaxation.eliminate (vertices edges).toList ks (costs (initialMatrix edges)) s t ≤
      cost Edge.cost es := by
  refine Relaxation.eliminate_le_cost (P := (· ∈ edges)) ?_ ?_ _ hw.1 hw.2 hne hnd hks
  · intro e he
    exact (congrArg Path.totalCost (lookup_of_getElem? (initialMatrix_edge hone he))).le
  · intro e he
    exact ⟨Std.ExtTreeSet.mem_toList.mpr (source_mem_vertices he),
      Std.ExtTreeSet.mem_toList.mpr (target_mem_vertices he)⟩

/-- Entries are below every walk with distinct interior vertices, also when some closed
walk is negative. -/
theorem costs_finalMatrix_le {edges : List (Edge (F64 α))} (hone : OneEdgePerPair edges)
    {s t : ℕ} {es : List (Edge (F64 α))} (hw : WalkIn edges s es t) (hne : es ≠ [])
    (hnd : (interior Edge.target es).Nodup) :
    costs (finalMatrix edges) s t ≤ cost Edge.cost es := by
  rw [finalMatrix, costs_tripleLoop]
  refine eliminate_costs_le hone _ hw hne hnd ?_
  intro v hv
  obtain ⟨e, he, rfl⟩ := mem_interior_of_mem hv
  exact Std.ExtTreeSet.mem_toList.mpr (target_mem_vertices (hw.2 e he))

/-- A negative closed walk leaves a negative diagonal entry. -/
theorem noNegativeCycle_of_ok {edges : List (Edge (F64 α))} (hone : OneEdgePerPair edges)
    {m : Matrix α} (hok : floydWarshallShortestPaths edges = .ok m) : NoNegativeCycle edges := by
  intro v es hw
  by_contra hlt
  obtain ⟨u, c, hne, hP, hwc, hnd, hcost⟩ :=
    hw.1.exists_negative_interior_nodup (P := (· ∈ edges)) hw.2 (not_le.mp hlt)
  have hle := costs_finalMatrix_le hone ⟨hwc, hP⟩ hne hnd
  rcases floydWarshallShortestPaths_cases edges with ⟨-, hdiag⟩ | ⟨herr, -⟩
  · obtain ⟨e, he, hsrc⟩ := (hwc.ends_mem hne).1
    have hmem := diagonal_mem_finalMatrix (hsrc ▸ source_mem_vertices (hP e he))
    obtain ⟨path, hpath⟩ := KeyedFold.mem_iff_exists.mp hmem
    rw [costs, lookup_of_getElem? hpath] at hle
    exact not_lt.mpr (hdiag u path hpath) (hle.trans_lt hcost)
  · rw [herr] at hok
    cases hok

/-- Closed walks can be ruled out by running the algorithm. -/
theorem noNegativeCycle_iff_isOk {edges : List (Edge (F64 α))} (hone : OneEdgePerPair edges) :
    NoNegativeCycle edges ↔ (floydWarshallShortestPaths edges).isOk = true := by
  refine ⟨fun h => by rw [floydWarshallShortestPaths_of_noNegativeCycle h]; rfl, fun h => ?_⟩
  cases hrun : floydWarshallShortestPaths edges with
  | ok m => exact noNegativeCycle_of_ok hone hrun
  | error e =>
      rw [hrun] at h
      cases h

theorem eq_error_iff_not_noNegativeCycle {edges : List (Edge (F64 α))}
    (hone : OneEdgePerPair edges) :
    floydWarshallShortestPaths edges = .error (.err .negativeCyclesError) ↔
      ¬ NoNegativeCycle edges := by
  constructor
  · intro herr hneg
    rw [floydWarshallShortestPaths_of_noNegativeCycle hneg] at herr
    cases herr
  · intro hneg
    rcases floydWarshallShortestPaths_cases edges with ⟨hok, -⟩ | ⟨herr, -⟩
    · exact (hneg (noNegativeCycle_of_ok hone hok)).elim
    · exact herr

/-- The error is returned exactly when some closed walk has negative total cost. -/
theorem floydWarshallShortestPaths_error_iff {edges : List (Edge (F64 α))}
    (hone : OneEdgePerPair edges) :
    floydWarshallShortestPaths edges = .error (.err .negativeCyclesError) ↔
      ∃ v es, WalkIn edges v es v ∧ cost Edge.cost es < 0 := by
  rw [eq_error_iff_not_noNegativeCycle hone]
  simp [NoNegativeCycle]

/-- Three edges whose closed walk has negative total cost. -/
def losingTriangle : List (Edge (F64 ℤ)) :=
  [⟨⟨0, 1⟩, 0, (3 : ℤ)⟩, ⟨⟨1, 2⟩, 0, (-4 : ℤ)⟩, ⟨⟨2, 0⟩, 0, (0 : ℤ)⟩]

theorem floydWarshallShortestPaths_error_losingTriangle :
    floydWarshallShortestPaths losingTriangle = .error (.err .negativeCyclesError) :=
  (floydWarshallShortestPaths_error_iff (by decide)).mpr ⟨0, losingTriangle, by decide, by decide⟩

/-! ## Shortest walks -/

/-- Without negative closed walks, every nonempty walk of finite cost is matched by an entry
that costs no more. -/
theorem exists_entry_le {edges : List (Edge (F64 α))} (hone : OneEdgePerPair edges)
    (hneg : NoNegativeCycle edges) {s t : ℕ} {es : List (Edge (F64 α))}
    (hw : WalkIn edges s es t) (hne : es ≠ []) (hfin : cost Edge.cost es ≠ ⊤) :
    ∃ path, (finalMatrix edges)[(⟨s, t⟩ : Pair ℕ)]? = some path ∧
      path.totalCost ≤ cost Edge.cost es := by
  obtain ⟨es', hne', hP, hw', hnd, hle⟩ :=
    hw.1.exists_interior_nodup (P := (· ∈ edges)) (fun v c hc hwc => hneg v c ⟨hwc, hc⟩) hw.2 hne
  have hcost := (costs_finalMatrix_le hone ⟨hw', hP⟩ hne' hnd).trans hle
  cases h : (finalMatrix edges)[(⟨s, t⟩ : Pair ℕ)]? with
  | none =>
      rw [costs, lookup_of_not_mem h] at hcost
      exact (hfin (top_le_iff.mp hcost)).elim
  | some path =>
      rw [costs, lookup_of_getElem? h] at hcost
      exact ⟨path, rfl, hcost⟩

omit [LinearOrder α] [IsOrderedAddMonoid α] in
theorem cost_ne_top {edges es : List (Edge (F64 α))} (hfin : ∀ e ∈ edges, ∃ c : α, e.cost = c)
    (hes : ∀ e ∈ es, e ∈ edges) : cost Edge.cost es ≠ ⊤ := by
  induction es with
  | nil => exact WithTop.coe_ne_top
  | cons e es ih =>
      obtain ⟨c, hc⟩ := hfin e (hes e (by simp))
      rw [cost_cons, hc]
      exact WithTop.add_ne_top.mpr ⟨WithTop.coe_ne_top, ih fun x hx => hes x (by simp [hx])⟩

/-- When every cost is a number and no closed walk is negative, the run succeeds and the
entries between distinct vertices are exactly the shortest walks. -/
theorem floydWarshallShortestPaths_spec {edges : List (Edge (F64 α))}
    (hone : OneEdgePerPair edges) (hfin : ∀ e ∈ edges, ∃ c : α, e.cost = c)
    (hneg : NoNegativeCycle edges) :
    ∃ m, floydWarshallShortestPaths edges = .ok m ∧ ∀ s t, s ≠ t →
      ((⟨s, t⟩ : Pair ℕ) ∈ m ↔ ∃ es, WalkIn edges s es t) ∧
      ∀ path, m[(⟨s, t⟩ : Pair ℕ)]? = some path →
        IsLeast {c | ∃ es, WalkIn edges s es t ∧ cost Edge.cost es = c} path.totalCost ∧
        WalkIn edges s path.edges t ∧ cost Edge.cost path.edges = path.totalCost := by
  refine ⟨_, floydWarshallShortestPaths_of_noNegativeCycle hneg, fun s t hst => ?_⟩
  have hentry : ∀ es, WalkIn edges s es t → ∃ path,
      (finalMatrix edges)[(⟨s, t⟩ : Pair ℕ)]? = some path ∧
        path.totalCost ≤ cost Edge.cost es := fun es hw =>
    exists_entry_le hone hneg hw (hw.1.ne_nil hst) (cost_ne_top hfin hw.2)
  refine ⟨?_, fun path hpath => ?_⟩
  · rw [KeyedFold.mem_iff_exists]
    constructor
    · rintro ⟨path, hpath⟩
      exact ⟨path.edges, (sound_finalMatrix edges _ _ hpath).2.2.1⟩
    · rintro ⟨es, hw⟩
      obtain ⟨path, hpath, -⟩ := hentry es hw
      exact ⟨path, hpath⟩
  · obtain ⟨-, -, hw, hcost⟩ := sound_finalMatrix edges _ _ hpath
    refine ⟨⟨⟨path.edges, hw, hcost.symm⟩, ?_⟩, hw, hcost.symm⟩
    rintro c ⟨es, hwes, rfl⟩
    obtain ⟨path', hpath', hle⟩ := hentry es hwes
    rw [hpath] at hpath'
    cases hpath'
    exact hle

/-- The graph drawn in the tests of the algorithm. -/
def testGraph : List (Edge (F64 ℤ)) :=
  [⟨⟨0, 1⟩, 1, (3 : ℤ)⟩, ⟨⟨0, 3⟩, 1, (7 : ℤ)⟩, ⟨⟨1, 0⟩, 1, (8 : ℤ)⟩, ⟨⟨1, 2⟩, 1, (2 : ℤ)⟩,
    ⟨⟨2, 0⟩, 1, (5 : ℤ)⟩, ⟨⟨2, 3⟩, 1, (1 : ℤ)⟩, ⟨⟨3, 0⟩, 1, (2 : ℤ)⟩]

theorem floydWarshallShortestPaths_spec_testGraph :
    ∃ m, floydWarshallShortestPaths testGraph = .ok m ∧ ∀ s t, s ≠ t →
      ((⟨s, t⟩ : Pair ℕ) ∈ m ↔ ∃ es, WalkIn testGraph s es t) ∧
      ∀ path, m[(⟨s, t⟩ : Pair ℕ)]? = some path →
        IsLeast {c | ∃ es, WalkIn testGraph s es t ∧ cost Edge.cost es = c} path.totalCost ∧
        WalkIn testGraph s path.edges t ∧ cost Edge.cost path.edges = path.totalCost :=
  floydWarshallShortestPaths_spec (by decide) (by simp [testGraph])
    ((noNegativeCycle_iff_isOk (by decide)).mpr (by decide +kernel))

end Aggregator.Algo
