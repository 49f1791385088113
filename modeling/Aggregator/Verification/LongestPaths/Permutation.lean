import Aggregator.Verification.LongestPaths.Correctness
import Aggregator.Verification.LongestPaths.SortedEdges

/-! # The order of the input edges

Which of two equally cheap edges is kept depends on their order, but the walks over the kept
edges multiply to the same products in every order. -/

namespace Aggregator.Algo

open EdgeWalk

universe u

/-- Both runs fail alike, or both succeed, with the same pairs at the same totals. -/
def SameTotals {ε : Type u} {κ V N : Type*} [LinearOrder κ] (total : V → N)
    (x y : Exec ε (BTreeMap κ V)) : Prop :=
  (∃ e, x = .error e ∧ y = .error e) ∨
    ∃ m m', x = .ok m ∧ y = .ok m' ∧ ∀ k : κ, m[k]?.map total = m'[k]?.map total

variable {K α : Type u} [Field K] [LinearOrder K] {edges edges' : List (Edge K)}

/-! ## The kept edges -/

omit [Field K] in
theorem Cheapest.of_perm (hperm : edges.Perm edges') {e : Edge K} (h : Cheapest edges e) :
    Cheapest edges' e :=
  ⟨hperm.mem_iff.mp h.1, fun x hx => h.2 x (hperm.mem_iff.mpr hx)⟩

omit [Field K] in
theorem exists_keptEdge_of_perm (hperm : edges.Perm edges') {r : Edge K}
    (hr : r ∈ keptEdges edges) : ∃ r' ∈ keptEdges edges', r'.pair = r.pair ∧ r'.cost = r.cost :=
  exists_mem_of_unbeaten (by decide)
    (cheapest_iff_unbeaten.mp ((cheapest_of_mem_keptEdges hr).of_perm hperm))

theorem exists_walkIn_of_perm (hperm : edges.Perm edges') {es : List (Edge K)} {s t : ℕ}
    (hw : WalkIn (keptEdges edges) s es t) :
    ∃ rs, WalkIn (keptEdges edges') s rs t ∧ rs.length = es.length ∧ product rs = product es :=
  exists_walkIn_keptEdges hw.1 fun e he => (cheapest_of_mem_keptEdges (hw.2 e he)).of_perm hperm

theorem noArbitrage_of_perm (hperm : edges.Perm edges') (h : NoArbitrage (keptEdges edges)) :
    NoArbitrage (keptEdges edges') := by
  intro v es hw
  obtain ⟨rs, hrs, -, hprod⟩ := exists_walkIn_of_perm hperm.symm hw
  exact hprod ▸ h v rs hrs

omit [Field K] in
theorem mem_vertices_of_perm (hperm : edges.Perm edges') {v : ℕ}
    (hv : v ∈ vertices (keptEdges edges)) : v ∈ vertices (keptEdges edges') := by
  obtain ⟨e, he, hends⟩ := mem_vertices.mp hv
  obtain ⟨r, hr, hpair, -⟩ := exists_keptEdge_of_perm hperm he
  refine mem_vertices.mpr ⟨r, hr, ?_⟩
  rwa [Edge.source, Edge.target, hpair]

omit [Field K] in
/-- Where edges of equal cost on one pair are the same edge, the order makes no difference. -/
theorem keptEdges_eq_of_perm (hperm : edges.Perm edges')
    (hdistinct : ∀ e ∈ edges, ∀ e' ∈ edges, e.pair = e'.pair → e.cost = e'.cost → e = e') :
    keptEdges edges = keptEdges edges' := by
  have hmem : ∀ e, e ∈ keptEdges edges → e ∈ edges := fun _ =>
    mem_of_mem_uniqueCheapestEdges (by decide)
  have hmem' : ∀ e, e ∈ keptEdges edges' → e ∈ edges := fun _ he =>
    hperm.mem_iff.mpr (mem_of_mem_uniqueCheapestEdges (by decide) he)
  refine KeyedFold.eq_of_sorted_keys (sorted_uniqueCheapestEdges (by decide))
    (sorted_uniqueCheapestEdges (by decide)) fun e => ⟨fun he => ?_, fun he => ?_⟩
  · obtain ⟨r, hr, hpair, hcost⟩ := exists_keptEdge_of_perm hperm he
    exact hdistinct r (hmem' r hr) e (hmem e he) hpair hcost ▸ hr
  · obtain ⟨r, hr, hpair, hcost⟩ := exists_keptEdge_of_perm hperm.symm he
    exact hdistinct r (hmem r hr) e (hmem' e he) hpair hcost ▸ hr

/-! ## The run -/

section Run

variable [IsStrictOrderedRing K] [AddCommGroup α] [LinearOrder α] [IsOrderedAddMonoid α]
  (L : Log2 K α) {res res' : BTreeMap (Pair ℕ) (Path K)}

theorem longestPaths_of_eq_ok (hnonneg : ∀ e ∈ edges, 0 ≤ e.cost)
    (hres : longestPathsMult L edges = .ok res) : LongestPaths (keptEdges edges) res := by
  rcases longestPathsMult_cases L hnonneg with ⟨-, res₁, hres₁, hbest⟩ | ⟨-, herr⟩
  · cases hres.symm.trans hres₁
    exact hbest
  · cases hres.symm.trans herr

/-- An entry of the one run has its match in the other, at no smaller total. -/
theorem exists_totalCost_le_of_perm (hperm : edges.Perm edges') (hpos : ∀ e ∈ edges, 0 < e.cost)
    (hres : longestPathsMult L edges = .ok res) (hres' : longestPathsMult L edges' = .ok res')
    (p : Pair ℕ) (path : Path K) (hpath : res[p]? = some path) :
    ∃ path', res'[p]? = some path' ∧ path.totalCost ≤ path'.totalCost := by
  have hnonneg : ∀ e ∈ edges, 0 ≤ e.cost := fun e he => (hpos e he).le
  have hnonneg' : ∀ e ∈ edges', 0 ≤ e.cost := fun e he => hnonneg e (hperm.mem_iff.mpr he)
  have hbest' := longestPaths_of_eq_ok L hnonneg' hres'
  obtain ⟨s, t⟩ := p
  obtain ⟨hs, hw, htotal⟩ := (longestPaths_of_eq_ok L hnonneg hres).sound _ path hpath
  by_cases hne : path.edges = []
  · -- the identity, so neither input has a self-loop at the vertex
    obtain rfl : s = t := by simpa [hne] using hw.1
    obtain ⟨path₁, hpath₁, -, hloop⟩ := longestPathsMult_diagonal L hnonneg hres hs
    cases hpath.symm.trans hpath₁
    obtain ⟨path', hpath'⟩ :=
      KeyedFold.mem_iff_exists.mp (hbest'.vertex s (mem_vertices_of_perm hperm hs))
    refine ⟨path', hpath', ?_⟩
    rw [htotal, hne, product_nil]
    refine hbest'.identity s path' (fun e he hpair => ?_) hpath'
    obtain ⟨r, hr, hsame, -⟩ := exists_keptEdge_of_perm hperm.symm he
    exact hloop r hr (hsame.trans hpair) hne
  · have hprod : 0 < product path.edges := product_pos fun e he =>
      hpos e (mem_of_mem_uniqueCheapestEdges (by decide) (hw.2 e he))
    obtain ⟨rs, hrs, hlen, heq⟩ := exists_walkIn_of_perm hperm hw
    have hrs_ne : rs ≠ [] := by
      rintro rfl
      exact hne (List.eq_nil_of_length_eq_zero hlen.symm)
    rw [htotal, ← heq]
    exact hbest'.greatest s t rs hrs hrs_ne (heq ▸ hprod.ne')

/-- In every order of the edges the run fails alike or finds the same totals. -/
theorem sameTotals_longestPathsMult (hperm : edges.Perm edges') (hpos : ∀ e ∈ edges, 0 < e.cost) :
    SameTotals Path.totalCost (longestPathsMult L edges) (longestPathsMult L edges') := by
  have hpos' : ∀ e ∈ edges', 0 < e.cost := fun e he => hpos e (hperm.mem_iff.mpr he)
  rcases longestPathsMult_cases L fun e he => (hpos e he).le with ⟨hno, res, hres, -⟩ | ⟨hyes, herr⟩
  · rcases longestPathsMult_cases L fun e he => (hpos' e he).le with
      ⟨-, res', hres', -⟩ | ⟨hyes', -⟩
    · refine .inr ⟨res, res', hres, hres',
        KeyedFold.map_getElem?_eq_of_le (fun _ _ => le_antisymm) ?_ ?_⟩
      · exact exists_totalCost_le_of_perm L hperm hpos hres hres'
      · exact exists_totalCost_le_of_perm L hperm.symm hpos' hres' hres
    · exact (hyes' (noArbitrage_of_perm hperm hno)).elim
  · rcases longestPathsMult_cases L fun e he => (hpos' e he).le with ⟨hno', -⟩ | ⟨-, herr'⟩
    · exact (hyes (noArbitrage_of_perm hperm.symm hno')).elim
    · exact .inl ⟨_, herr, herr'⟩

omit [IsStrictOrderedRing K] [IsOrderedAddMonoid α] in
theorem longestPathsMult_eq_of_perm (hperm : edges.Perm edges')
    (hdistinct : ∀ e ∈ edges, ∀ e' ∈ edges, e.pair = e'.pair → e.cost = e'.cost → e = e') :
    longestPathsMult L edges = longestPathsMult L edges' := by
  rw [longestPathsMult_eq, longestPathsMult_eq, logEdges, logEdges,
    keptEdges_eq_of_perm hperm hdistinct]

end Run

end Aggregator.Algo
