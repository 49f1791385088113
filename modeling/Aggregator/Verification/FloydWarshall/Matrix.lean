import Aggregator.Library.Relaxation
import Aggregator.Model.Algo

/-! # The matrix of the triple loop

Its costs evolve as an abstract relaxation, and every stored path is a walk of input
edges whose costs add up to the stored total. -/

namespace Aggregator.Algo

open EdgeWalk

/-- A walk from `s` to `t` made of the given edges. -/
def WalkIn {F : Type*} (edges : List (Edge F)) (s : ℕ) (es : List (Edge F)) (t : ℕ) : Prop :=
  IsWalk Edge.source Edge.target s es t ∧ ∀ e ∈ es, e ∈ edges

instance {F : Type*} [DecidableEq F] (edges : List (Edge F)) (s : ℕ) (es : List (Edge F))
    (t : ℕ) : Decidable (WalkIn edges s es t) :=
  inferInstanceAs (Decidable (_ ∧ _))

section Edges

variable {F : Type*} {edges : List (Edge F)}

theorem WalkIn.append {xs ys : List (Edge F)} {s k t : ℕ} (hx : WalkIn edges s xs k)
    (hy : WalkIn edges k ys t) : WalkIn edges s (xs ++ ys) t := by
  refine ⟨hx.1.append hy.1, ?_⟩
  intro e he
  rcases List.mem_append.mp he with he | he
  · exact hx.2 e he
  · exact hy.2 e he

theorem WalkIn.mono {edges' es : List (Edge F)} {s t : ℕ} (h : WalkIn edges s es t)
    (hsub : ∀ e ∈ edges, e ∈ edges') : WalkIn edges' s es t :=
  ⟨h.1, fun e he => hsub e (h.2 e he)⟩

/-- Where no edge starts at the end of an edge, no closed walk has edges. -/
theorem WalkIn.eq_nil (hends : ∀ e ∈ edges, ∀ e' ∈ edges, e.source ≠ e'.target)
    {es : List (Edge F)} {v : ℕ} (h : WalkIn edges v es v) : es = [] := by
  by_contra hne
  obtain ⟨⟨e, he, hsrc⟩, e', he', htgt⟩ := h.1.ends_mem hne
  exact hends e (h.2 e he) e' (h.2 e' he') (hsrc.trans htgt.symm)

theorem mem_vertices {v : ℕ} : v ∈ vertices edges ↔ ∃ e ∈ edges, e.source = v ∨ e.target = v := by
  unfold vertices
  induction edges using List.reverseRecOn with
  | nil => simp
  | append_singleton edges e ih =>
      rw [List.foldl_append, List.foldl_cons, List.foldl_nil]
      simp only [Std.ExtTreeSet.mem_insert, compare_eq_iff_eq, ih, List.mem_append,
        List.mem_singleton]
      constructor
      · rintro (h | h | ⟨e', he', h⟩)
        · exact ⟨e, .inr rfl, .inr h⟩
        · exact ⟨e, .inr rfl, .inl h⟩
        · exact ⟨e', .inl he', h⟩
      · rintro ⟨e', he' | rfl, h⟩
        · exact .inr (.inr ⟨e', he', h⟩)
        · rcases h with h | h
          · exact .inr (.inl h)
          · exact .inl h

theorem source_mem_vertices {e : Edge F} (he : e ∈ edges) : e.source ∈ vertices edges :=
  mem_vertices.mpr ⟨e, he, .inl rfl⟩

theorem target_mem_vertices {e : Edge F} (he : e ∈ edges) : e.target ∈ vertices edges :=
  mem_vertices.mpr ⟨e, he, .inr rfl⟩

end Edges

variable {α : Type*}

/-! ## Entries -/

theorem lookup_of_getElem? {m : Matrix α} {i j : ℕ} {path : Path (F64 α)}
    (h : m[(⟨i, j⟩ : Pair ℕ)]? = some path) : lookup m i j = path := by
  simp [lookup, h]

theorem lookup_of_not_mem {m : Matrix α} {i j : ℕ} (h : m[(⟨i, j⟩ : Pair ℕ)]? = none) :
    lookup m i j = ⟨f64Max, []⟩ := by
  simp [lookup, h]

theorem lookup_insert (m : Matrix α) (i j a b : ℕ) (path : Path (F64 α)) :
    lookup (m.insert ⟨i, j⟩ path) a b = if a = i ∧ b = j then path else lookup m a b := by
  unfold lookup
  rw [KeyedFold.getElem?_insert_eq]
  by_cases h : a = i ∧ b = j
  · obtain ⟨rfl, rfl⟩ := h
    simp
  · have hp : (⟨i, j⟩ : Pair ℕ) ≠ ⟨a, b⟩ := by
      rintro ⟨⟩
      exact h ⟨rfl, rfl⟩
    simp [h, hp]

/-- The costs of a matrix, infinite where it has no entry. -/
def costs (m : Matrix α) : ℕ → ℕ → F64 α := fun i j => (lookup m i j).totalCost

variable [AddCommGroup α]

theorem initialMatrix_getElem? (edges : List (Edge (F64 α))) (p : Pair ℕ) :
    (initialMatrix edges)[p]? =
      ((edges.filter (fun e => e.pair = p)).getLast?.map fun e => ⟨e.cost, [e]⟩).or
        (((vertices edges).toList.filter (fun v => (⟨v, v⟩ : Pair ℕ) = p)).getLast?.map
          fun _ => ⟨0, []⟩) := by
  rw [initialMatrix, KeyedFold.getElem?_foldl_insert Edge.pair, KeyedFold.getElem?_foldl_insert]
  simp

/-- An initial entry is an edge, or the identity where no edge is. -/
theorem initialMatrix_cases {edges : List (Edge (F64 α))} {p : Pair ℕ} {path : Path (F64 α)}
    (h : (initialMatrix edges)[p]? = some path) :
    (∃ e ∈ edges, e.pair = p ∧ path = ⟨e.cost, [e]⟩) ∨
      ((∀ e ∈ edges, e.pair ≠ p) ∧ p.source = p.target ∧ p.source ∈ vertices edges ∧
        path = ⟨0, []⟩) := by
  rw [initialMatrix_getElem?] at h
  cases hl : (edges.filter (fun e => e.pair = p)).getLast? with
  | some e =>
      rw [hl] at h
      have he := List.mem_of_getLast? hl
      simp only [List.mem_filter, decide_eq_true_eq] at he
      simp only [Option.map_some, Option.some_or, Option.some.injEq] at h
      exact .inl ⟨e, he.1, he.2, h.symm⟩
  | none =>
      rw [hl] at h
      simp only [Option.map_none, Option.none_or, Option.map_eq_some_iff] at h
      obtain ⟨v, hv, hpath⟩ := h
      have hmem := List.mem_of_getLast? hv
      simp only [List.mem_filter, decide_eq_true_eq, Std.ExtTreeSet.mem_toList] at hmem
      obtain ⟨hmem, rfl⟩ := hmem
      refine .inr ⟨?_, rfl, hmem, hpath.symm⟩
      simpa [List.getLast?_eq_none_iff, List.filter_eq_nil_iff] using hl

theorem initialMatrix_edge {edges : List (Edge (F64 α))} (hnd : (edges.map Edge.pair).Nodup)
    {e : Edge (F64 α)} (he : e ∈ edges) : (initialMatrix edges)[e.pair]? = some ⟨e.cost, [e]⟩ := by
  rw [initialMatrix_getElem?]
  cases hl : (edges.filter (fun x => x.pair = e.pair)).getLast? with
  | none =>
      have : ¬ e.pair = e.pair := by
        simpa using List.filter_eq_nil_iff.mp (List.getLast?_eq_none_iff.mp hl) e he
      exact (this rfl).elim
  | some x =>
      have hx := List.mem_of_getLast? hl
      simp only [List.mem_filter, decide_eq_true_eq] at hx
      have hxe : x = e := List.inj_on_of_nodup_map hnd hx.1 he hx.2
      simp [hxe]

theorem initialMatrix_vertex {edges : List (Edge (F64 α))} {v : ℕ} (hv : v ∈ vertices edges) :
    (⟨v, v⟩ : Pair ℕ) ∈ initialMatrix edges := by
  rw [Std.ExtTreeMap.mem_iff_isSome_getElem?, initialMatrix_getElem?]
  have hmem : v ∈ (vertices edges).toList.filter fun x => (⟨x, x⟩ : Pair ℕ) = ⟨v, v⟩ := by
    simpa using hv
  obtain ⟨u, hu⟩ := Option.ne_none_iff_exists'.mp
    (mt List.getLast?_eq_none_iff.mp (List.ne_nil_of_mem hmem))
  rw [hu]
  cases (edges.filter (fun e => e.pair = ⟨v, v⟩)).getLast? <;> rfl

/-- Every entry joins two vertices by a walk of input edges that costs its total. -/
def Sound (edges : List (Edge (F64 α))) (m : Matrix α) : Prop :=
  ∀ (p : Pair ℕ) (path : Path (F64 α)), m[p]? = some path →
    p.source ∈ vertices edges ∧ p.target ∈ vertices edges ∧
      WalkIn edges p.source path.edges p.target ∧ path.totalCost = cost Edge.cost path.edges

theorem sound_initialMatrix (edges : List (Edge (F64 α))) : Sound edges (initialMatrix edges) := by
  intro p path h
  rcases initialMatrix_cases h with ⟨e, he, rfl, rfl⟩ | ⟨-, hst, hv, rfl⟩
  · refine ⟨source_mem_vertices he, target_mem_vertices he, ⟨⟨rfl, rfl⟩, ?_⟩, ?_⟩
    · simpa using he
    · simp
  · exact ⟨hv, hst ▸ hv, ⟨hst, by simp⟩, rfl⟩

variable [LinearOrder α]

/-! ## The loop body -/

theorem costs_relax (k i j : ℕ) (m : Matrix α) :
    costs (relax k i j m) = Relaxation.relax k i j (costs m) := by
  funext a b
  dsimp only [Relaxation.relax, relax, costs]
  split
  · rename_i h
    rw [lookup_insert]
    split
    · exact (min_eq_right h.2.le).symm
    · rfl
  · rename_i h
    split
    · rename_i hab
      obtain ⟨rfl, rfl⟩ := hab
      rw [not_and_or, not_not, not_lt] at h
      refine (min_eq_left ?_).symm
      rcases h with h | h
      · rw [h]
        exact le_top
      · exact h
    · rfl

theorem costs_stage (vs : List ℕ) (k : ℕ) (m : Matrix α) :
    costs (stage vs k m) = Relaxation.stage vs k (costs m) := by
  refine Eq.symm (List.foldl_hom costs fun m i => ?_)
  exact List.foldl_hom costs fun m j => (costs_relax k i j m).symm

theorem costs_tripleLoop (vs : List ℕ) (m : Matrix α) :
    costs (tripleLoop vs m) = Relaxation.eliminate vs vs (costs m) :=
  Eq.symm (List.foldl_hom costs fun m k => (costs_stage vs k m).symm)

/-- What every iteration of the body preserves holds after the triple loop. -/
theorem tripleLoop_induction {P : Matrix α → Prop} (hstep : ∀ k i j m, P m → P (relax k i j m))
    (vs : List ℕ) {m : Matrix α} (hm : P m) : P (tripleLoop vs m) := by
  refine List.foldlRecOn vs _ hm fun m hm k _ => ?_
  refine List.foldlRecOn vs _ hm fun m hm i _ => ?_
  exact List.foldlRecOn vs _ hm fun m hm j _ => hstep k i j m hm

/-- An update concatenates two stored paths. -/
theorem relax_cases (k i j : ℕ) (m : Matrix α) :
    relax k i j m = m ∨ ∃ ik kj, m[(⟨i, k⟩ : Pair ℕ)]? = some ik ∧
      m[(⟨k, j⟩ : Pair ℕ)]? = some kj ∧ ik.totalCost + kj.totalCost < costs m i j ∧
      relax k i j m = m.insert ⟨i, j⟩ ⟨ik.totalCost + kj.totalCost, ik.edges ++ kj.edges⟩ := by
  dsimp only [relax]
  split
  · rename_i h
    right
    cases hik : m[(⟨i, k⟩ : Pair ℕ)]? with
    | none => simp [lookup_of_not_mem hik, f64Max] at h
    | some ik =>
        cases hkj : m[(⟨k, j⟩ : Pair ℕ)]? with
        | none => simp [lookup_of_not_mem hkj, f64Max] at h
        | some kj =>
            rw [lookup_of_getElem? hik, lookup_of_getElem? hkj] at h ⊢
            exact ⟨ik, kj, rfl, rfl, h.2, rfl⟩
  · exact .inl rfl

theorem mem_relax {k i j : ℕ} {m : Matrix α} {p : Pair ℕ} (hp : p ∈ m) : p ∈ relax k i j m := by
  rcases relax_cases k i j m with h | ⟨ik, kj, -, -, -, h⟩
  · rwa [h]
  · rw [h]
    exact Std.ExtTreeMap.mem_insert.mpr (.inr hp)

theorem sound_relax {edges : List (Edge (F64 α))} (k i j : ℕ) (m : Matrix α)
    (hm : Sound edges m) : Sound edges (relax k i j m) := by
  rcases relax_cases k i j m with h | ⟨ik, kj, hik, hkj, -, h⟩
  · rwa [h]
  · rw [h]
    intro p path hp
    rw [KeyedFold.getElem?_insert_eq] at hp
    split at hp
    · rename_i hij
      subst hij
      cases hp
      obtain ⟨hi, -, hwik, hcik⟩ := hm _ _ hik
      obtain ⟨-, hj, hwkj, hckj⟩ := hm _ _ hkj
      exact ⟨hi, hj, hwik.append hwkj, by rw [hcik, hckj, cost_append]⟩
    · exact hm p path hp

/-- An entry of infinite cost is a single edge: only finite costs are ever improved to. -/
theorem eq_singleton_of_totalCost_eq_top {edges : List (Edge (F64 α))} (vs : List ℕ)
    {p : Pair ℕ} {path : Path (F64 α)}
    (h : (tripleLoop vs (initialMatrix edges))[p]? = some path) (htop : path.totalCost = ⊤) :
    ∃ e ∈ edges, path.edges = [e] := by
  refine tripleLoop_induction (P := fun m => ∀ (p : Pair ℕ) (path : Path (F64 α)),
    m[p]? = some path → path.totalCost = ⊤ → ∃ e ∈ edges, path.edges = [e]) ?_ vs ?_ p path h htop
  · intro k i j m hm p path hp htop
    rcases relax_cases k i j m with h | ⟨ik, kj, -, -, hlt, h⟩
    · exact hm p path (h ▸ hp) htop
    · rw [h, KeyedFold.getElem?_insert_eq] at hp
      split at hp
      · cases hp
        exact (hlt.ne_top htop).elim
      · exact hm p path hp htop
  · intro p path hp htop
    rcases initialMatrix_cases hp with ⟨e, he, -, rfl⟩ | ⟨-, -, -, rfl⟩
    · exact ⟨e, he, rfl⟩
    · exact (WithTop.zero_ne_top htop).elim

theorem sound_tripleLoop {edges : List (Edge (F64 α))} (vs : List ℕ) :
    Sound edges (tripleLoop vs (initialMatrix edges)) :=
  tripleLoop_induction (fun k i j m => sound_relax k i j m) vs (sound_initialMatrix edges)

end Aggregator.Algo
