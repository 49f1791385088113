import Aggregator.Verification.FloydWarshall.Iterations

/-! # Stored paths visit no vertex twice

Without negative closed walks, a stage leaves the row and the column of its middle vertex
as they are, and every path it joins is cheaper than all walks through earlier vertices.
A shared vertex would give such a walk that costs no more. Where all edges are negative, the
paths double at every stage instead. -/

namespace Aggregator.Algo

open EdgeWalk

variable {α : Type*}

/-- The path passes every vertex at most once, and returns to its source only to end there. -/
structure IsSimple (p : Pair ℕ) (es : List (Edge (F64 α))) : Prop where
  nodup : (es.map Edge.target).Nodup
  source_not_mem : p.source ≠ p.target → p.source ∉ es.map Edge.target

/-- No vertex is passed twice, so a path has at most as many edges as there are vertices. -/
theorem IsSimple.length_le {edges es : List (Edge (F64 α))} {p : Pair ℕ} (h : IsSimple p es)
    (hes : ∀ e ∈ es, e ∈ edges) : es.length ≤ (vertices edges).toList.length := by
  have hsub : es.map Edge.target ⊆ (vertices edges).toList := by
    intro v hv
    obtain ⟨e, he, rfl⟩ := List.mem_map.mp hv
    exact Std.ExtTreeSet.mem_toList.mpr (target_mem_vertices (hes e he))
  simpa using (List.subperm_of_subset h.nodup hsub).length_le

/-- The stored paths are simple and pass through `ks` only. -/
def SimpleThrough (ks : List ℕ) (m : Matrix α) : Prop :=
  ∀ (p : Pair ℕ) (path : Path (F64 α)), m[p]? = some path →
    IsSimple p path.edges ∧ ∀ v ∈ interior Edge.target path.edges, v ∈ ks

variable [AddCommGroup α]

theorem simpleThrough_initialMatrix (edges : List (Edge (F64 α))) :
    SimpleThrough [] (initialMatrix edges) := by
  intro p path h
  rcases initialMatrix_cases h with ⟨e, -, rfl, rfl⟩ | ⟨-, -, -, rfl⟩
  · refine ⟨⟨by simp, fun hst => ?_⟩, by simp⟩
    simpa [Edge.target] using hst
  · exact ⟨⟨by simp, by simp⟩, by simp⟩

variable [LinearOrder α]

theorem costs_diagonal_nonneg {edges : List (Edge (F64 α))} (hneg : NoNegativeCycle edges)
    {m : Matrix α} (hm : Sound edges m) (k : ℕ) : 0 ≤ costs m k k := by
  unfold costs
  cases h : m[(⟨k, k⟩ : Pair ℕ)]? with
  | none =>
      rw [lookup_of_not_mem h]
      exact le_top
  | some path =>
      obtain ⟨-, -, hw, hcost⟩ := hm _ _ h
      rw [lookup_of_getElem? h, hcost]
      exact hneg k path.edges hw

/-! ## Within a stage -/

/-- Within the stage of `k` that starts from `m₀`, an entry outside the row and the column
of `k` is the initial one, or joins two initial paths at a smaller cost. -/
structure InStage (k : ℕ) (m₀ m : Matrix α) : Prop where
  column : ∀ i, m[(⟨i, k⟩ : Pair ℕ)]? = m₀[(⟨i, k⟩ : Pair ℕ)]?
  row : ∀ j, m[(⟨k, j⟩ : Pair ℕ)]? = m₀[(⟨k, j⟩ : Pair ℕ)]?
  entry : ∀ i j, m[(⟨i, j⟩ : Pair ℕ)]? = m₀[(⟨i, j⟩ : Pair ℕ)]? ∨
    i ≠ k ∧ j ≠ k ∧ ∃ ik kj, m₀[(⟨i, k⟩ : Pair ℕ)]? = some ik ∧
      m₀[(⟨k, j⟩ : Pair ℕ)]? = some kj ∧ ik.totalCost + kj.totalCost < costs m₀ i j ∧
      m[(⟨i, j⟩ : Pair ℕ)]? = some ⟨ik.totalCost + kj.totalCost, ik.edges ++ kj.edges⟩

theorem InStage.costs_le {k : ℕ} {m₀ m : Matrix α} (h : InStage k m₀ m) (i j : ℕ) :
    costs m i j ≤ costs m₀ i j := by
  rcases h.entry i j with heq | ⟨-, -, ik, kj, -, -, hlt, heq⟩
  · simp [costs, lookup, heq]
  · rw [costs, lookup_of_getElem? heq]
    exact hlt.le

variable [IsOrderedAddMonoid α]

/-- The row and the column of `k` stay as they are, for the corner is not negative. -/
theorem InStage.relax {k : ℕ} {m₀ m : Matrix α} (hk : 0 ≤ costs m₀ k k) (h : InStage k m₀ m)
    (i j : ℕ) : InStage k m₀ (relax k i j m) := by
  rcases relax_cases k i j m with heq | ⟨ik, kj, hik, hkj, hlt, heq⟩
  · rwa [heq]
  · have hi : i ≠ k := by
      rintro rfl
      rw [costs, lookup_of_getElem? hkj] at hlt
      rw [h.row] at hik
      rw [costs, lookup_of_getElem? hik] at hk
      exact (le_add_of_nonneg_left hk).not_gt hlt
    have hj : j ≠ k := by
      rintro rfl
      rw [costs, lookup_of_getElem? hik] at hlt
      rw [h.column] at hkj
      rw [costs, lookup_of_getElem? hkj] at hk
      exact (le_add_of_nonneg_right hk).not_gt hlt
    rw [heq]
    constructor
    · intro a
      rw [KeyedFold.getElem?_insert_eq, if_neg (by simp [hj]), h.column]
    · intro b
      rw [KeyedFold.getElem?_insert_eq, if_neg (by simp [hi]), h.row]
    · intro a b
      rw [KeyedFold.getElem?_insert_eq]
      split
      · rename_i hab
        cases hab
        rw [h.column] at hik
        rw [h.row] at hkj
        exact .inr ⟨hi, hj, ik, kj, hik, hkj, hlt.trans_le (h.costs_le i j), rfl⟩
      · exact h.entry a b

theorem inStage_relaxPairs {k : ℕ} {m₀ : Matrix α} (hk : 0 ≤ costs m₀ k k)
    (pairs : List (ℕ × ℕ)) : InStage k m₀ (relaxPairs k pairs m₀) := by
  refine List.foldlRecOn pairs _ ?_ fun m hm x _ => hm.relax hk x.1 x.2
  exact ⟨fun _ => rfl, fun _ => rfl, fun _ _ => .inl rfl⟩

/-- Entries are below every walk through `ks`. -/
def BelowThrough (edges : List (Edge (F64 α))) (ks : List ℕ) (m : Matrix α) : Prop :=
  ∀ i j es, WalkIn edges i es j → es ≠ [] → (∀ v ∈ interior Edge.target es, v ∈ ks) →
    costs m i j ≤ cost Edge.cost es

/-- What the stages of `ks` establish, the stage of `k` keeps at each of its iterations. -/
theorem SimpleThrough.of_inStage {edges : List (Edge (F64 α))} (hneg : NoNegativeCycle edges)
    {ks : List ℕ} {k : ℕ} {m₀ m : Matrix α} (hsound : Sound edges m₀)
    (hbelow : BelowThrough edges ks m₀) (hsimple : SimpleThrough ks m₀) (h : InStage k m₀ m) :
    SimpleThrough (ks ++ [k]) m := by
  rintro ⟨i, j⟩ path hpath
  rcases h.entry i j with heq | ⟨hi, hj, ik, kj, hik, hkj, hlt, heq⟩
  · obtain ⟨hs, hks⟩ := hsimple _ _ (heq ▸ hpath)
    exact ⟨hs, fun v hv => List.mem_append_left _ (hks v hv)⟩
  · obtain rfl := Option.some.inj (heq.symm.trans hpath)
    obtain ⟨-, -, hwik, hcik⟩ := hsound _ _ hik
    obtain ⟨-, -, hwkj, hckj⟩ := hsound _ _ hkj
    obtain ⟨hsik, hksik⟩ := hsimple _ _ hik
    obtain ⟨hskj, hkskj⟩ := hsimple _ _ hkj
    have hk : k ∉ kj.edges.map Edge.target := hskj.source_not_mem (Ne.symm hj)
    -- a shared vertex would leave out a closed walk, and the rest was no dearer before
    have hshared : ∀ v, (v ∈ ik.edges.map Edge.target ∨ v = i ∧ i ≠ j) →
        v ∉ kj.edges.map Edge.target := by
      intro v hvik hvkj
      obtain ⟨es, hne, hP, hw, hint, hle⟩ := IsWalk.exists_shortcut (P := (· ∈ edges))
        (fun v c hc hwc => hneg v c ⟨hwc, hc⟩) hwik.1 hwkj.1 (hwik.append hwkj).2 hk hvik hvkj
      have hbefore := hbelow i j es ⟨hw, hP⟩ hne fun u hu =>
        (hint u hu).elim (hksik u) (hkskj u)
      rw [hcik, hckj] at hlt
      exact (hbefore.trans hle).not_gt hlt
    refine ⟨⟨?_, fun hij => ?_⟩, fun v hv => ?_⟩
    · rw [List.map_append]
      refine hsik.nodup.append hskj.nodup fun v hvik hvkj => ?_
      exact hshared v (.inl hvik) hvkj
    · rw [List.map_append, List.mem_append, not_or]
      exact ⟨hsik.source_not_mem hi, hshared i (.inr ⟨rfl, hij⟩)⟩
    · rw [interior_append (hwkj.1.ne_nil (Ne.symm hj)), hwik.1.map_eq (hwik.1.ne_nil hi)] at hv
      simp only [List.mem_append, List.mem_singleton] at hv ⊢
      rcases hv with (hv | hv) | hv
      · exact .inl (hksik v hv)
      · exact .inr hv
      · exact .inl (hkskj v hv)

/-! ## All stages -/

section Stages

variable {edges : List (Edge (F64 α))}

omit [IsOrderedAddMonoid α] in
theorem sound_stages (edges : List (Edge (F64 α))) (vs ks : List ℕ) :
    Sound edges (stages vs ks (initialMatrix edges)) := by
  refine List.foldlRecOn ks _ (sound_initialMatrix edges) fun m hm k _ => ?_
  rw [stage_eq_relaxPairs]
  exact List.foldlRecOn _ _ hm fun m hm x _ => sound_relax k x.1 x.2 m hm

omit [IsOrderedAddMonoid α] in
theorem walkIn_matrixAt {n : ℕ} {p : Pair ℕ} {path : Path (F64 α)}
    (h : (matrixAt edges n)[p]? = some path) : WalkIn edges p.source path.edges p.target := by
  have hsound : Sound edges (matrixAt edges n) :=
    List.foldlRecOn _ _ (sound_initialMatrix edges) fun m hm x _ => sound_relax _ _ _ m hm
  exact (hsound p path h).2.2.1

theorem belowThrough_stages (hone : OneEdgePerPair edges) (hneg : NoNegativeCycle edges)
    (ks : List ℕ) :
    BelowThrough edges ks (stages (vertices edges).toList ks (initialMatrix edges)) := by
  intro i j es hw hne hks
  obtain ⟨es', hne', hP, hw', hnd, hsub, hle⟩ := hw.1.exists_interior_nodup_subset
    (P := (· ∈ edges)) (fun v c hc hwc => hneg v c ⟨hwc, hc⟩) hw.2 hne
  have hcosts : costs (stages (vertices edges).toList ks (initialMatrix edges)) =
      Relaxation.eliminate (vertices edges).toList ks (costs (initialMatrix edges)) :=
    Eq.symm (List.foldl_hom costs fun m k => (costs_stage _ k m).symm)
  rw [hcosts]
  exact (eliminate_costs_le hone ks ⟨hw', hP⟩ hne' hnd fun v hv => hks v (hsub hv)).trans hle

theorem simpleThrough_stages (hone : OneEdgePerPair edges) (hneg : NoNegativeCycle edges)
    (ks : List ℕ) :
    SimpleThrough ks (stages (vertices edges).toList ks (initialMatrix edges)) := by
  induction ks using List.reverseRecOn with
  | nil => exact simpleThrough_initialMatrix edges
  | append_singleton ks k ih =>
      have hstep : stages (vertices edges).toList (ks ++ [k]) (initialMatrix edges) =
          relaxPairs k ((vertices edges).toList ×ˢ (vertices edges).toList)
            (stages (vertices edges).toList ks (initialMatrix edges)) := by
        simp [stages, stage_eq_relaxPairs]
      have hsound := sound_stages edges (vertices edges).toList ks
      rw [hstep]
      exact .of_inStage hneg hsound (belowThrough_stages hone hneg ks) ih
        (inStage_relaxPairs (costs_diagonal_nonneg hneg hsound k) _)

/-- Without negative closed walks, every path stored at any iteration is simple. -/
theorem isSimple_matrixAt (hone : OneEdgePerPair edges) (hneg : NoNegativeCycle edges) (n : ℕ)
    {p : Pair ℕ} {path : Path (F64 α)} (h : (matrixAt edges n)[p]? = some path) :
    IsSimple p path.edges := by
  obtain ⟨ks, k, pairs, heq, -, -, -⟩ := matrixAt_cases edges n
  have hsound := sound_stages edges (vertices edges).toList ks
  have hsimple := SimpleThrough.of_inStage hneg hsound (belowThrough_stages hone hneg ks)
    (simpleThrough_stages hone hneg ks)
    (inStage_relaxPairs (costs_diagonal_nonneg hneg hsound k) pairs)
  exact (hsimple p path (heq ▸ h)).1

end Stages

/-! ## The result -/

/-- Without negative closed walks, also when some closed walks cost nothing, the run succeeds
and each path between distinct vertices visits no vertex twice. -/
theorem floydWarshallShortestPaths_nodup {edges : List (Edge (F64 α))}
    (hone : OneEdgePerPair edges) (hneg : NoNegativeCycle edges) :
    ∃ m, floydWarshallShortestPaths edges = .ok m ∧
      ∀ s t path, s ≠ t → m[(⟨s, t⟩ : Pair ℕ)]? = some path →
        WalkIn edges s path.edges t ∧ (s :: path.edges.map Edge.target).Nodup ∧
          path.edges.length + 1 ≤ (vertices edges).toList.length := by
  refine ⟨_, floydWarshallShortestPaths_of_noNegativeCycle hneg, fun s t path hst hpath => ?_⟩
  obtain ⟨hs, -, hw, -⟩ := sound_finalMatrix edges _ _ hpath
  have hsimple := isSimple_matrixAt hone hneg _ ((matrixAt_length edges).symm ▸ hpath)
  have hnd : (s :: path.edges.map Edge.target).Nodup :=
    List.nodup_cons.mpr ⟨hsimple.source_not_mem hst, hsimple.nodup⟩
  have hsub : s :: path.edges.map Edge.target ⊆ (vertices edges).toList := by
    intro v hv
    rcases List.mem_cons.mp hv with rfl | hv
    · exact Std.ExtTreeSet.mem_toList.mpr hs
    · obtain ⟨e, he, rfl⟩ := List.mem_map.mp hv
      exact Std.ExtTreeSet.mem_toList.mpr (target_mem_vertices (hw.2 e he))
  refine ⟨hw, hnd, ?_⟩
  simpa using (List.subperm_of_subset hnd hsub).length_le

/-- A round trip and a self-loop that cost nothing, and an edge that leaves the round trip. -/
def freeRoundTrip : List (Edge (F64 ℤ)) :=
  [⟨⟨0, 1⟩, 0, (1 : ℤ)⟩, ⟨⟨1, 0⟩, 0, (-1 : ℤ)⟩, ⟨⟨1, 1⟩, 0, (0 : ℤ)⟩, ⟨⟨1, 2⟩, 0, (2 : ℤ)⟩]

theorem floydWarshallShortestPaths_nodup_freeRoundTrip :
    ∃ m, floydWarshallShortestPaths freeRoundTrip = .ok m ∧
      ∀ s t path, s ≠ t → m[(⟨s, t⟩ : Pair ℕ)]? = some path →
        WalkIn freeRoundTrip s path.edges t ∧ (s :: path.edges.map Edge.target).Nodup ∧
          path.edges.length + 1 ≤ (vertices freeRoundTrip).toList.length :=
  floydWarshallShortestPaths_nodup (by decide)
    ((noNegativeCycle_iff_isOk (by decide)).mpr (by decide +kernel))

/-- Without negative closed walks, the paths of every iteration have at most as many edges as
there are vertices. In any case a stage makes them at most six times as long, and the run
reaches the check, which rejects exactly the graphs with a negative closed walk. -/
theorem length_matrixAt_le {edges : List (Edge (F64 α))} (hone : OneEdgePerPair edges) :
    (NoNegativeCycle edges → ∀ n (p : Pair ℕ) (path : Path (F64 α)),
      (matrixAt edges n)[p]? = some path → path.edges.length ≤ (vertices edges).toList.length) ∧
    (∀ n (p : Pair ℕ) (path : Path (F64 α)),
      (matrixAt edges n)[p]? = some path → path.edges.length ≤ 6 ^ (vertices edges).toList.length) ∧
    floydWarshallShortestPaths edges =
      (forM (vertices edges).toList
        (checkDiagonal (matrixAt edges ((vertices edges).toList.length ^ 3))) >>= fun _ =>
          .ok (matrixAt edges ((vertices edges).toList.length ^ 3))) ∧
    (floydWarshallShortestPaths edges = .error (.err .negativeCyclesError) ↔
      ¬ NoNegativeCycle edges) := by
  refine ⟨fun hneg n p path h => ?_, fun n p path h => ?_, ?_, ?_⟩
  · exact (isSimple_matrixAt hone hneg n h).length_le (walkIn_matrixAt h).2
  · have hle := entryLength_matrixAt_le edges n p.source p.target
    rwa [entryLength, lookup_of_getElem? h] at hle
  · rw [matrixAt_length]
    rfl
  · exact eq_error_iff_not_noNegativeCycle hone

/-- A round trip of negative total cost. -/
def losingRoundTrip : List (Edge (F64 ℤ)) :=
  [⟨⟨0, 1⟩, 0, (-1 : ℤ)⟩, ⟨⟨1, 0⟩, 0, (-1 : ℤ)⟩]

theorem length_matrixAt_le_losingRoundTrip :
    (NoNegativeCycle losingRoundTrip →
      ∀ n (p : Pair ℕ) (path : Path (F64 ℤ)), (matrixAt losingRoundTrip n)[p]? = some path →
        path.edges.length ≤ (vertices losingRoundTrip).toList.length) ∧
    (∀ n (p : Pair ℕ) (path : Path (F64 ℤ)), (matrixAt losingRoundTrip n)[p]? = some path →
      path.edges.length ≤ 6 ^ (vertices losingRoundTrip).toList.length) ∧
    floydWarshallShortestPaths losingRoundTrip =
      (forM (vertices losingRoundTrip).toList (checkDiagonal
        (matrixAt losingRoundTrip ((vertices losingRoundTrip).toList.length ^ 3))) >>= fun _ =>
          .ok (matrixAt losingRoundTrip ((vertices losingRoundTrip).toList.length ^ 3))) ∧
    (floydWarshallShortestPaths losingRoundTrip = .error (.err .negativeCyclesError) ↔
      ¬ NoNegativeCycle losingRoundTrip) :=
  length_matrixAt_le (by decide)

/-- An edge of cost -1 between any two of the first `n` vertices. -/
def losingClique (n : ℕ) : List (Edge (F64 ℤ)) :=
  ((List.range n ×ˢ List.range n).filter fun x => x.1 ≠ x.2).map fun x =>
    ⟨⟨x.1, x.2⟩, 0, (-1 : ℤ)⟩

theorem mem_losingClique {n : ℕ} {e : Edge (F64 ℤ)} :
    e ∈ losingClique n ↔ e.source < n ∧ e.target < n ∧ e.source ≠ e.target ∧ e.provider = 0 ∧
      e.cost = (-1 : ℤ) := by
  obtain ⟨⟨i, j⟩, p, c⟩ := e
  simp only [losingClique, List.mem_map, List.mem_filter, decide_eq_true_eq, Prod.exists,
    List.mem_product, List.mem_range, Edge.source, Edge.target]
  constructor
  · rintro ⟨i, j, ⟨⟨hi, hj⟩, hij⟩, ⟨⟩⟩
    exact ⟨hi, hj, hij, rfl, rfl⟩
  · rintro ⟨hi, hj, hij, rfl, rfl⟩
    exact ⟨i, j, ⟨⟨hi, hj⟩, hij⟩, rfl⟩

theorem oneEdgePerPair_losingClique (n : ℕ) : OneEdgePerPair (losingClique n) := by
  have hpairs : Function.Injective fun x : ℕ × ℕ => (⟨x.1, x.2⟩ : Pair ℕ) := by
    rintro ⟨i, j⟩ ⟨i', j'⟩ h
    cases h
    rfl
  rw [OneEdgePerPair, losingClique, List.map_map]
  exact ((List.nodup_range.product List.nodup_range).filter _).map hpairs

theorem mem_vertices_losingClique {n v : ℕ} : v ∈ vertices (losingClique (n + 2)) ↔ v < n + 2 := by
  simp only [mem_vertices, mem_losingClique]
  constructor
  · rintro ⟨e, ⟨hsource, htarget, -⟩, rfl | rfl⟩
    · exact hsource
    · exact htarget
  · intro hv
    -- a vertex other than `v` among the first two
    obtain ⟨u, hu, hne⟩ : ∃ u < n + 2, v ≠ u := by
      by_cases h : v = 0
      · exact ⟨1, by omega, by omega⟩
      · exact ⟨0, by omega, h⟩
    exact ⟨⟨⟨v, u⟩, 0, (-1 : ℤ)⟩, ⟨hv, hu, hne, rfl, rfl⟩, .inl rfl⟩

theorem length_vertices_losingClique (n : ℕ) :
    (vertices (losingClique (n + 2))).toList.length = n + 2 := by
  have hperm : (vertices (losingClique (n + 2))).toList.Perm (List.range (n + 2)) := by
    rw [List.perm_ext_iff_of_nodup (KeyedFold.nodup_toList _) List.nodup_range]
    intro v
    rw [Std.ExtTreeSet.mem_toList, mem_vertices_losingClique, List.mem_range]
  rw [hperm.length_eq, List.length_range]

/-- In a clique of negative edges every list is exponentially long in the end. -/
theorem two_pow_le_length_losingClique (n : ℕ) {i j : ℕ} (hi : i < n + 2) (hj : j < n + 2)
    (hij : i ≠ j) :
    ∃ path, (matrixAt (losingClique (n + 2)) ((n + 2) ^ 3))[(⟨i, j⟩ : Pair ℕ)]? = some path ∧
      2 ^ (n + 1) ≤ path.edges.length := by
  refine two_pow_le_length (oneEdgePerPair_losingClique _) (fun e he => ?_) ?_
    (length_vertices_losingClique n) (mem_vertices_losingClique.mpr hi)
    (mem_vertices_losingClique.mpr hj) hij
  · exact (mem_losingClique.mp he).2.2.2.2
  · intro i hi j hj hij
    exact ⟨⟨⟨i, j⟩, 0, (-1 : ℤ)⟩, mem_losingClique.mpr ⟨mem_vertices_losingClique.mp hi,
      mem_vertices_losingClique.mp hj, hij, rfl, rfl⟩, rfl⟩

/-- After both stages of the round trip, a path between its two vertices has three edges, and
the paths of a clique grow exponentially with its vertices. -/
theorem not_length_matrixAt_le :
    (¬ ∀ edges : List (Edge (F64 ℤ)), OneEdgePerPair edges →
      ∀ n (p : Pair ℕ) (path : Path (F64 ℤ)), (matrixAt edges n)[p]? = some path →
        path.edges.length ≤ (vertices edges).toList.length) ∧
    ∀ n, OneEdgePerPair (losingClique (n + 2)) ∧
      (vertices (losingClique (n + 2))).toList.length = n + 2 ∧
      ∃ path, (matrixAt (losingClique (n + 2)) ((n + 2) ^ 3))[(⟨0, 1⟩ : Pair ℕ)]? = some path ∧
        2 ^ (n + 1) ≤ path.edges.length := by
  refine ⟨fun h => ?_, fun n => ⟨oneEdgePerPair_losingClique _, length_vertices_losingClique n,
    two_pow_le_length_losingClique n (by omega) (by omega) (by omega)⟩⟩
  have hpath : (matrixAt losingRoundTrip 8)[(⟨0, 1⟩ : Pair ℕ)]? =
      some (lookup (matrixAt losingRoundTrip 8) 0 1) := by decide +kernel
  have hle := h losingRoundTrip (by decide) 8 _ _ hpath
  revert hle
  decide +kernel

end Aggregator.Algo
