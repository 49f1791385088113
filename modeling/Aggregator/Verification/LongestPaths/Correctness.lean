import Aggregator.Verification.LongestPaths.Products

/-! # Correctness of the longest paths

The run works on one edge for each pair, one of least cost. Its entries are the best
walks over those edges; they are the best walks over the whole input exactly when walks
of least-cost edges make up for every other edge. -/

namespace Aggregator.Algo

open EdgeWalk

universe u

variable {K α : Type u} [Field K] [LinearOrder K] [AddCommGroup α] [LinearOrder α]

/-- The edges on which `longestPathsMult` works. -/
abbrev keptEdges (edges : List (Edge K)) : List (Edge K) := uniqueCheapestEdges edges .gt

/-- The edge is in the list and no edge on the same pair costs less. -/
def Cheapest (edges : List (Edge K)) (e : Edge K) : Prop :=
  e ∈ edges ∧ ∀ x ∈ edges, x.pair = e.pair → e.cost ≤ x.cost

/-- No closed walk multiplies to more than one. -/
def NoArbitrage (edges : List (Edge K)) : Prop :=
  ∀ v es, WalkIn edges v es v → product es ≤ 1

/-- The entries are the best walks over the edges. -/
structure LongestPaths (edges : List (Edge K)) (res : BTreeMap (Pair ℕ) (Path K)) : Prop where
  vertex : ∀ v ∈ vertices edges, (⟨v, v⟩ : Pair ℕ) ∈ res
  edge : ∀ e ∈ edges, e.pair ∈ res
  sound : ∀ (p : Pair ℕ) (path : Path K), res[p]? = some path →
    p.source ∈ vertices edges ∧ WalkIn edges p.source path.edges p.target ∧
      path.totalCost = product path.edges
  zero : ∀ (p : Pair ℕ) (path : Path K), res[p]? = some path → path.totalCost = 0 →
    ∃ e ∈ edges, path.edges = [e]
  identity : ∀ v path, (∀ e ∈ edges, e.pair ≠ ⟨v, v⟩) → res[(⟨v, v⟩ : Pair ℕ)]? = some path →
    1 ≤ path.totalCost
  greatest : ∀ s t es, WalkIn edges s es t → es ≠ [] → product es ≠ 0 →
    ∃ path, res[(⟨s, t⟩ : Pair ℕ)]? = some path ∧ product es ≤ path.totalCost

/-! ## The kept edges -/

section KeptEdges

variable {edges : List (Edge K)}

omit [Field K] in
/-- Every edge is represented by a kept edge on the same pair that costs no more. -/
theorem exists_keptEdge_le {e : Edge K} (he : e ∈ edges) :
    ∃ r ∈ keptEdges edges, r.pair = e.pair ∧ r.cost ≤ e.cost := by
  have hrep : ∃ r ∈ keptEdges edges, r.pair = e.pair ∧ compare r.cost e.cost ≠ .gt :=
    exists_mem_uniqueCheapestEdges (by decide) he
  simpa only [ne_eq, compare_gt_iff_gt, not_lt] using hrep

omit [Field K] in
theorem cheapest_iff_unbeaten {e : Edge K} : Cheapest edges e ↔ Unbeaten edges .gt e := by
  simp only [Cheapest, Unbeaten, ne_eq, compare_gt_iff_gt, not_lt]

omit [Field K] in
theorem cheapest_of_mem_keptEdges {r : Edge K} (hr : r ∈ keptEdges edges) : Cheapest edges r :=
  cheapest_iff_unbeaten.mpr (unbeaten_of_mem_uniqueCheapestEdges (by decide) hr)

theorem exists_walkIn_keptEdges {es : List (Edge K)} {s t : ℕ}
    (hw : IsWalk Edge.source Edge.target s es t) (hes : ∀ e ∈ es, Cheapest edges e) :
    ∃ rs, WalkIn (keptEdges edges) s rs t ∧ rs.length = es.length ∧ product rs = product es := by
  obtain ⟨rs, hrs, hcosts⟩ := exists_walkIn_of_unbeaten (by decide) hw fun e he =>
    cheapest_iff_unbeaten.mp (hes e he)
  exact ⟨rs, hrs, by simpa using congrArg List.length hcosts, congrArg List.prod hcosts⟩

theorem NoArbitrage.keptEdges (h : NoArbitrage edges) : NoArbitrage (keptEdges edges) :=
  fun v es hw => h v es (hw.mono fun _ => mem_of_mem_uniqueCheapestEdges (by decide))

end KeptEdges

/-! ## The run -/

section Run

variable (L : Log2 K α) {edges : List (Edge K)}

/-- The edges handed to the Floyd-Warshall loop. -/
def logEdges (edges : List (Edge K)) : List (Edge (F64 α)) :=
  uniqueCheapestEdges ((keptEdges edges).map L.logEdge) .lt

theorem mem_logEdges {l : Edge (F64 α)} :
    l ∈ logEdges L edges ↔ l ∈ (keptEdges edges).map L.logEdge :=
  mem_uniqueCheapestEdges_of_oneEdgePerPair (by decide)
    (oneEdgePerPair_map_logEdge L (oneEdgePerPair_uniqueCheapestEdges (by decide)))

theorem exists_of_walkIn_logEdges {ls : List (Edge (F64 α))} {s t : ℕ}
    (h : WalkIn (logEdges L edges) s ls t) :
    ∃ es, ls = es.map L.logEdge ∧ WalkIn (keptEdges edges) s es t :=
  exists_of_walkIn_map_logEdge L (h.mono fun _ => (mem_logEdges L).mp)

theorem WalkIn.logEdges {es : List (Edge K)} {s t : ℕ} (h : WalkIn (keptEdges edges) s es t) :
    WalkIn (logEdges L edges) s (es.map L.logEdge) t :=
  (h.map_logEdge L).mono fun _ => (mem_logEdges L).mpr

theorem mem_vertices_logEdges {v : ℕ} :
    v ∈ vertices (logEdges L edges) ↔ v ∈ vertices (keptEdges edges) := by
  simp only [mem_vertices, mem_logEdges, List.mem_map]
  constructor
  · rintro ⟨l, ⟨e, he, rfl⟩, h⟩
    exact ⟨e, he, h⟩
  · rintro ⟨e, he, h⟩
    exact ⟨L.logEdge e, ⟨e, he, rfl⟩, h⟩

variable [IsStrictOrderedRing K]

/-- Entries of the final matrix, read on the original edges. -/
theorem finalMatrix_logEdges {p : Pair ℕ} {path : Path (F64 α)}
    (hnonneg : ∀ e ∈ keptEdges edges, 0 ≤ e.cost)
    (h : (finalMatrix (logEdges L edges))[p]? = some path) :
    p.source ∈ vertices (keptEdges edges) ∧ ∃ es, WalkIn (keptEdges edges) p.source es p.target ∧
      path = ⟨L.negLog2 (product es), es.map L.logEdge⟩ := by
  obtain ⟨hsrc, -, hw, hcost⟩ := sound_finalMatrix _ _ _ h
  obtain ⟨es, hes, hwes⟩ := exists_of_walkIn_logEdges L hw
  refine ⟨(mem_vertices_logEdges L).mp hsrc, es, hwes, ?_⟩
  rw [hes, cost_map_logEdge L fun e he => hnonneg e (hwes.2 e he)] at hcost
  cases path
  exact congrArg₂ Path.mk hcost hes

/-- An entry of the final matrix is restored to the product over its edges. -/
theorem exists_restorePath_eq (hnonneg : ∀ e ∈ keptEdges edges, 0 ≤ e.cost) {p : Pair ℕ}
    {path : Path (F64 α)} (h : (finalMatrix (logEdges L edges))[p]? = some path) :
    ∃ es, WalkIn (keptEdges edges) p.source es p.target ∧
      path = ⟨L.negLog2 (product es), es.map L.logEdge⟩ ∧
      restorePath (weightMap (keptEdges edges)) (p, path) = .ok (p, ⟨product es, es⟩) := by
  have hone : OneEdgePerPair (keptEdges edges) := oneEdgePerPair_uniqueCheapestEdges (by decide)
  obtain ⟨-, es, hw, rfl⟩ := finalMatrix_logEdges L hnonneg h
  exact ⟨es, hw, rfl, restorePath_map_logEdge L hone hw.2 p _⟩

/-- Restoring the weights of the final matrix keeps its pairs and their edges. -/
theorem exists_restored (hnonneg : ∀ e ∈ keptEdges edges, 0 ≤ e.cost) :
    ∃ entries, (finalMatrix (logEdges L edges)).toList.mapM
        (restorePath (weightMap (keptEdges edges))) = .ok entries ∧
      ∀ (p : Pair ℕ) (path : Path K),
        (Std.ExtTreeMap.ofList entries : BTreeMap (Pair ℕ) (Path K))[p]? = some path ↔
          ∃ es, WalkIn (keptEdges edges) p.source es p.target ∧
            (finalMatrix (logEdges L edges))[p]? =
              some ⟨L.negLog2 (product es), es.map L.logEdge⟩ ∧ path = ⟨product es, es⟩ := by
  have hmem : ∀ entry ∈ (finalMatrix (logEdges L edges)).toList, ∃ path,
      restorePath (weightMap (keptEdges edges)) entry = .ok (entry.1, path) := by
    rintro ⟨p, path⟩ hentry
    rw [KeyedFold.mem_toList_iff] at hentry
    obtain ⟨es, -, -, hres⟩ := exists_restorePath_eq L hnonneg hentry
    exact ⟨_, hres⟩
  obtain ⟨entries, hentries⟩ := Exec.exists_mapM_eq_ok
    (f := restorePath (weightMap (keptEdges edges)))
    (l := (finalMatrix (logEdges L edges)).toList) fun entry hentry => by
      obtain ⟨path, hres⟩ := hmem entry hentry
      exact ⟨(entry.1, path), hres⟩
  have hfst : ∀ a ∈ (finalMatrix (logEdges L edges)).toList, ∀ b,
      restorePath (weightMap (keptEdges edges)) a = .ok b → b.1 = a.1 := by
    intro a ha b hb
    obtain ⟨path, hres⟩ := hmem a ha
    rw [hres] at hb
    cases hb
    rfl
  refine ⟨entries, hentries, fun p path => ?_⟩
  rw [KeyedFold.getElem?_ofList_mapM hentries fun a ha a' ha' b b' hb hb' heq =>
    (hfst a ha b hb).symm.trans (heq.trans (hfst a' ha' b' hb'))]
  constructor
  · rintro ⟨p', path', hget, hres⟩
    obtain ⟨es, hw, rfl, hres'⟩ := exists_restorePath_eq L hnonneg hget
    rw [hres'] at hres
    cases hres
    exact ⟨es, hw, hget, rfl⟩
  · rintro ⟨es, hw, hget, rfl⟩
    exact ⟨p, _, hget, restorePath_map_logEdge L (oneEdgePerPair_uniqueCheapestEdges (by decide))
      hw.2 p _⟩

variable [IsOrderedAddMonoid α]

theorem noNegativeCycle_logEdges (hnonneg : ∀ e ∈ keptEdges edges, 0 ≤ e.cost) :
    NoNegativeCycle (logEdges L edges) ↔ NoArbitrage (keptEdges edges) := by
  have hcost : ∀ {v es}, WalkIn (keptEdges edges) v es v →
      (0 ≤ cost Edge.cost (es.map L.logEdge) ↔ product es ≤ 1) := by
    intro v es hw
    have hes : ∀ e ∈ es, 0 ≤ e.cost := fun e he => hnonneg e (hw.2 e he)
    rw [cost_map_logEdge L hes, L.negLog2_nonneg_iff (product_nonneg hes)]
  constructor
  · intro h v es hw
    exact (hcost hw).mp (h v _ (hw.logEdges L))
  · intro h v ls hw
    obtain ⟨es, rfl, hes⟩ := exists_of_walkIn_logEdges L hw
    exact (hcost hes).mpr (h v es hes)

/-- The restored entries are the best walks over the kept edges. -/
theorem longestPaths_of_restored {res : BTreeMap (Pair ℕ) (Path K)}
    (hnonneg : ∀ e ∈ keptEdges edges, 0 ≤ e.cost) (harb : NoArbitrage (keptEdges edges))
    (hget : ∀ (p : Pair ℕ) (path : Path K), res[p]? = some path ↔
      ∃ es, WalkIn (keptEdges edges) p.source es p.target ∧
        (finalMatrix (logEdges L edges))[p]? =
          some ⟨L.negLog2 (product es), es.map L.logEdge⟩ ∧ path = ⟨product es, es⟩) :
    LongestPaths (keptEdges edges) res := by
  have hone : OneEdgePerPair (logEdges L edges) := oneEdgePerPair_uniqueCheapestEdges (by decide)
  have hmem : ∀ p : Pair ℕ, p ∈ finalMatrix (logEdges L edges) → p ∈ res := by
    intro p hp
    obtain ⟨path, hpath⟩ := KeyedFold.mem_iff_exists.mp hp
    obtain ⟨-, es, hw, rfl⟩ := finalMatrix_logEdges L hnonneg hpath
    exact KeyedFold.mem_of_getElem? ((hget p _).mpr ⟨es, hw, hpath, rfl⟩)
  constructor
  case vertex =>
    intro v hv
    exact hmem _ (diagonal_mem_finalMatrix ((mem_vertices_logEdges L).mpr hv))
  case edge =>
    intro e he
    have hl := (mem_logEdges L).mpr (List.mem_map_of_mem (f := L.logEdge) he)
    have hentry := edge_mem_finalMatrix hone hl
    exact hmem (L.logEdge e).pair hentry
  case sound =>
    intro p path h
    obtain ⟨es, hw, hentry, rfl⟩ := (hget p path).mp h
    exact ⟨(finalMatrix_logEdges L hnonneg hentry).1, hw, rfl⟩
  case zero =>
    intro p path h hzero
    obtain ⟨es, hw, hentry, rfl⟩ := (hget p path).mp h
    obtain ⟨l, -, hl⟩ := eq_singleton_of_totalCost_eq_top _ hentry
      (L.negLog2_eq_top_iff.mpr hzero)
    obtain ⟨e, rfl, -⟩ := List.map_eq_singleton_iff.mp hl
    exact ⟨e, hw.2 e (by simp), rfl⟩
  case identity =>
    intro v path hloop h
    obtain ⟨es, hw, hentry, rfl⟩ := (hget _ path).mp h
    have hv := (mem_vertices_logEdges L).mpr (finalMatrix_logEdges L hnonneg hentry).1
    have hle := diagonal_finalMatrix_nonpos hv fun l hl => by
      obtain ⟨e, he, rfl⟩ := List.mem_map.mp ((mem_logEdges L).mp hl)
      exact hloop e he
    rw [costs, lookup_of_getElem? hentry, ← L.negLog2_one] at hle
    exact (L.negLog2_le_iff (product_nonneg fun e he => hnonneg e (hw.2 e he)) zero_le_one).mp hle
  case greatest =>
    intro s t es hw hne hprod
    have hes : ∀ e ∈ es, 0 ≤ e.cost := fun e he => hnonneg e (hw.2 e he)
    have hcost := cost_map_logEdge L hes
    obtain ⟨path, hpath, hle⟩ := exists_entry_le hone
      ((noNegativeCycle_logEdges L hnonneg).mpr harb) (hw.logEdges L) (by simpa using hne)
      (by rwa [hcost, Ne, L.negLog2_eq_top_iff])
    obtain ⟨-, rs, hwrs, rfl⟩ := finalMatrix_logEdges L hnonneg hpath
    refine ⟨_, (hget _ _).mpr ⟨rs, hwrs, hpath, rfl⟩, ?_⟩
    rw [hcost] at hle
    exact (L.negLog2_le_iff (product_nonneg fun e he => hnonneg e (hwrs.2 e he))
      (product_nonneg hes)).mp hle

omit [IsStrictOrderedRing K] [IsOrderedAddMonoid α] in
theorem longestPathsMult_eq (edges : List (Edge K)) :
    longestPathsMult L edges = floydWarshallShortestPaths (logEdges L edges) >>=
      fun res => res.toList.mapM (restorePath (weightMap (keptEdges edges))) >>=
        fun entries => .ok (Std.ExtTreeMap.ofList entries) := rfl

/-- The run succeeds with the best walks over the kept edges, or reports the arbitrage
among them; it never panics. -/
theorem longestPathsMult_cases (hnonneg : ∀ e ∈ edges, 0 ≤ e.cost) :
    (NoArbitrage (keptEdges edges) ∧
      ∃ res, longestPathsMult L edges = .ok res ∧ LongestPaths (keptEdges edges) res) ∨
    (¬ NoArbitrage (keptEdges edges) ∧
      longestPathsMult L edges = .error (.err .negativeCyclesError)) := by
  have hkept : ∀ e ∈ keptEdges edges, 0 ≤ e.cost := fun e he =>
    hnonneg e (mem_of_mem_uniqueCheapestEdges (by decide) he)
  have hone : OneEdgePerPair (logEdges L edges) := oneEdgePerPair_uniqueCheapestEdges (by decide)
  by_cases harb : NoArbitrage (keptEdges edges)
  · left
    have hneg := (noNegativeCycle_logEdges L hkept).mpr harb
    obtain ⟨entries, hentries, hget⟩ := exists_restored L hkept
    refine ⟨harb, Std.ExtTreeMap.ofList entries, ?_, longestPaths_of_restored L hkept harb hget⟩
    rw [longestPathsMult_eq, floydWarshallShortestPaths_of_noNegativeCycle hneg, Exec.ok_bind,
      hentries]
    rfl
  · right
    refine ⟨harb, ?_⟩
    rcases floydWarshallShortestPaths_cases (logEdges L edges) with ⟨hok, -⟩ | ⟨herr, -⟩
    · exact (harb ((noNegativeCycle_logEdges L hkept).mp (noNegativeCycle_of_ok hone hok))).elim
    · rw [longestPathsMult_eq, herr]
      rfl

/-- The identity entries of a successful run: a self-loop takes the place of the identity. -/
theorem longestPathsMult_diagonal (hnonneg : ∀ e ∈ edges, 0 ≤ e.cost)
    {res : BTreeMap (Pair ℕ) (Path K)} (hres : longestPathsMult L edges = .ok res) {v : ℕ}
    (hv : v ∈ vertices (keptEdges edges)) :
    ∃ path, res[(⟨v, v⟩ : Pair ℕ)]? = some path ∧
      ((∀ e ∈ keptEdges edges, e.pair ≠ ⟨v, v⟩) → path = ⟨1, []⟩) ∧
      ∀ e ∈ keptEdges edges, e.pair = ⟨v, v⟩ → path.edges ≠ [] := by
  have hkept : ∀ e ∈ keptEdges edges, 0 ≤ e.cost := fun e he =>
    hnonneg e (mem_of_mem_uniqueCheapestEdges (by decide) he)
  obtain ⟨entries, hentries, hget⟩ := exists_restored L hkept
  rcases longestPathsMult_cases L hnonneg with ⟨harb, -⟩ | ⟨-, herr⟩
  swap
  · rw [herr] at hres
    cases hres
  have hneg := (noNegativeCycle_logEdges L hkept).mpr harb
  rw [longestPathsMult_eq, floydWarshallShortestPaths_of_noNegativeCycle hneg, Exec.ok_bind,
    hentries] at hres
  cases hres
  have hv' := (mem_vertices_logEdges L).mpr hv
  obtain ⟨lpath, hlpath⟩ := KeyedFold.mem_iff_exists.mp (diagonal_mem_finalMatrix hv')
  obtain ⟨-, es, hw, rfl⟩ := finalMatrix_logEdges L hkept hlpath
  refine ⟨⟨product es, es⟩, (hget _ _).mpr ⟨es, hw, hlpath, rfl⟩, fun hloop => ?_, ?_⟩
  · have hid := finalMatrix_identity hneg hv' fun l hl => by
      obtain ⟨e, he, rfl⟩ := List.mem_map.mp ((mem_logEdges L).mp hl)
      exact hloop e he
    have hnil : es.map L.logEdge = [] :=
      congrArg Path.edges (Option.some.inj (hlpath.symm.trans hid))
    obtain rfl := List.map_eq_nil_iff.mp hnil
    rfl
  · intro e he hpair hnil
    obtain rfl : es = [] := hnil
    have hl := (mem_logEdges L).mpr (List.mem_map_of_mem (f := L.logEdge) he)
    exact finalMatrix_loop hl hpair hlpath rfl

end Run

/-! ## Walks over the whole input -/

section WholeInput

variable {edges : List (Edge K)}

/-- The entries between distinct vertices are the best walks over the edges. -/
def BestOverAllWalks (edges : List (Edge K)) (res : BTreeMap (Pair ℕ) (Path K)) : Prop :=
  ∀ s t, s ≠ t →
    ((⟨s, t⟩ : Pair ℕ) ∈ res ↔ ∃ es, WalkIn edges s es t) ∧
    ∀ path, res[(⟨s, t⟩ : Pair ℕ)]? = some path →
      IsGreatest {x | ∃ es, WalkIn edges s es t ∧ product es = x} path.totalCost

/-- Every edge between distinct vertices is matched by a walk of least-cost edges. -/
def CheapestSuffice (edges : List (Edge K)) : Prop :=
  ∀ e ∈ edges, e.source ≠ e.target →
    ∃ es, IsWalk Edge.source Edge.target e.source es e.target ∧
      (∀ x ∈ es, Cheapest edges x) ∧ e.cost ≤ product es

variable [IsStrictOrderedRing K]

/-- Edge by edge, a walk is replaced by least-cost edges; loops are left out. -/
theorem CheapestSuffice.exists_walk (h : CheapestSuffice edges) (hpos : ∀ e ∈ edges, 0 < e.cost)
    (harb : NoArbitrage edges) {es : List (Edge K)} {s t : ℕ} (hw : WalkIn edges s es t) :
    ∃ es', IsWalk Edge.source Edge.target s es' t ∧ (∀ x ∈ es', Cheapest edges x) ∧
      product es ≤ product es' := by
  -- the products are compared as long as they are not negative
  obtain ⟨es', hw', hcheap, -, hle⟩ : ∃ es', IsWalk Edge.source Edge.target s es' t ∧
      (∀ x ∈ es', Cheapest edges x) ∧ 0 ≤ product es ∧ product es ≤ product es' := by
    refine hw.1.exists_replaced
      (R := fun es es' => 0 ≤ product es ∧ product es ≤ product es') (by simp) ?_ ?_ hw.2
    · rintro e he hloop es es' ⟨hes, hle⟩
      have hone : e.cost ≤ 1 := by
        simpa using harb e.source [e] ⟨⟨rfl, hloop.symm⟩, by simpa using he⟩
      rw [product_cons]
      refine ⟨mul_nonneg (hpos e he).le hes, ?_⟩
      calc e.cost * product es ≤ 1 * product es := mul_le_mul_of_nonneg_right hone hes
        _ ≤ product es' := by rwa [one_mul]
    · intro e he hne
      obtain ⟨xs, hxs, hcheap, hlex⟩ := h e he hne
      refine ⟨xs, hxs, hcheap, ?_⟩
      rintro es es' ⟨hes, hle⟩
      rw [product_append, product_cons]
      exact ⟨mul_nonneg (hpos e he).le hes,
        mul_le_mul hlex hle hes ((hpos e he).le.trans hlex)⟩
  exact ⟨es', hw', hcheap, hle⟩

variable [IsOrderedAddMonoid α] (L : Log2 K α)

/-- Without arbitrage, the run returns the best walks over the whole input exactly when the
least-cost edges suffice for them. -/
theorem longestPathsMult_bestOverAllWalks_iff (hpos : ∀ e ∈ edges, 0 < e.cost)
    (harb : NoArbitrage edges) :
    (∃ res, longestPathsMult L edges = .ok res ∧ BestOverAllWalks edges res) ↔
      CheapestSuffice edges := by
  rcases longestPathsMult_cases L fun e he => (hpos e he).le with
    ⟨-, res, hrun, hres⟩ | ⟨hnot, -⟩
  swap
  · exact (hnot harb.keptEdges).elim
  constructor
  · rintro ⟨res', hrun', hbest⟩ e he hne
    rw [hrun] at hrun'
    cases hrun'
    have hwalk : WalkIn edges e.source [e] e.target := ⟨⟨rfl, rfl⟩, by simpa using he⟩
    obtain ⟨path, hpath⟩ :=
      KeyedFold.mem_iff_exists.mp ((hbest e.source e.target hne).1.mpr ⟨[e], hwalk⟩)
    obtain ⟨-, hw, htotal⟩ := hres.sound _ _ hpath
    refine ⟨path.edges, hw.1, fun x hx => cheapest_of_mem_keptEdges (hw.2 x hx), ?_⟩
    rw [← htotal]
    exact ((hbest e.source e.target hne).2 path hpath).2 ⟨[e], hwalk, by simp⟩
  · intro hsuff
    refine ⟨res, hrun, fun s t hne => ?_⟩
    rw [KeyedFold.mem_iff_exists]
    refine isGreatest_entry Path.edges (fun path hpath => ?_) fun es hw => ?_
    · obtain ⟨-, hw, htotal⟩ := hres.sound _ _ hpath
      exact ⟨hw.mono fun _ => mem_of_mem_uniqueCheapestEdges (by decide), htotal.symm⟩
    · obtain ⟨ys, hys, hcheap, hle⟩ := hsuff.exists_walk hpos harb hw
      obtain ⟨rs, hrs, -, hprod⟩ := exists_walkIn_keptEdges hys hcheap
      have hprod_pos : 0 < product ys := product_pos fun x hx => hpos x (hcheap x hx).1
      obtain ⟨path, hpath, hge⟩ := hres.greatest s t rs hrs (hrs.1.ne_nil hne)
        (hprod ▸ hprod_pos.ne')
      exact ⟨path, hpath, hle.trans (hprod ▸ hge)⟩

end WholeInput

/-- Two providers quote the same pair, the second one twice the price of the first. -/
def parallelQuotes : List (Edge ℚ) := [⟨⟨0, 1⟩, 0, 1⟩, ⟨⟨0, 1⟩, 1, 2⟩]

theorem noArbitrage_parallelQuotes : NoArbitrage parallelQuotes := by
  intro v es hw
  have hnil := hw.eq_nil (by decide)
  simp [hnil]

theorem longestPathsMult_bestOverAllWalks_iff_parallelQuotes :
    (∃ res, longestPathsMult Log2.rational parallelQuotes = .ok res ∧
      BestOverAllWalks parallelQuotes res) ↔ CheapestSuffice parallelQuotes :=
  longestPathsMult_bestOverAllWalks_iff Log2.rational (by decide) noArbitrage_parallelQuotes

/-- The run keeps the lower quote, so the path it returns is not the best walk. -/
theorem longestPathsMult_parallelQuotes :
    (∀ e ∈ parallelQuotes, 0 < e.cost) ∧ NoArbitrage parallelQuotes ∧
      ¬ ∃ res, longestPathsMult Log2.rational parallelQuotes = .ok res ∧
        BestOverAllWalks parallelQuotes res := by
  refine ⟨by decide, noArbitrage_parallelQuotes, ?_⟩
  rintro ⟨res, hrun, hbest⟩
  have heval : (longestPathsMult Log2.rational parallelQuotes).toOption.bind
      (fun res => res[(⟨0, 1⟩ : Pair ℕ)]?) = some ⟨1, [⟨⟨0, 1⟩, 0, 1⟩]⟩ := by decide +kernel
  rw [hrun] at heval
  have hle := ((hbest 0 1 (by decide)).2 _ heval).2 ⟨[⟨⟨0, 1⟩, 1, 2⟩], by decide, rfl⟩
  norm_num at hle

end Aggregator.Algo
