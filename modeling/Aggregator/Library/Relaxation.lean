import Aggregator.Library.Walk
import Mathlib.Data.List.Induction
import Mathlib.Order.Lattice

/-! # In-place relaxation of a distance matrix

A distance matrix is a function of two vertices. Relaxing `i`, `j` through `k`
lowers one entry, and every later read sees the lowered value. -/

namespace Relaxation

open EdgeWalk

/-! ## Decreasing folds -/

section Fold

variable {D X : Type*} [Preorder D] {f : D → X → D}

theorem foldl_le (hf : ∀ d x, f d x ≤ d) (l : List X) (d : D) : l.foldl f d ≤ d := by
  induction l generalizing d with
  | nil => exact le_rfl
  | cons x l ih => exact (ih (f d x)).trans (hf d x)

/-- Each element of the list is processed on a state below the initial one and
above the final one. -/
theorem exists_foldl_le (hf : ∀ d x, f d x ≤ d) {l : List X} {x : X} (hx : x ∈ l) (d : D) :
    ∃ d' ≤ d, l.foldl f d ≤ f d' x := by
  induction l generalizing d with
  | nil => simp at hx
  | cons y l ih =>
      rcases List.mem_cons.mp hx with rfl | hx
      · exact ⟨d, le_rfl, foldl_le hf l (f d x)⟩
      · obtain ⟨d', hd, hle⟩ := ih hx (f d y)
        exact ⟨d', hd.trans (hf d y), hle⟩

end Fold

variable {V E M : Type*} [DecidableEq V] [AddCommMonoid M] [LinearOrder M]

/-- Lower the entry at `i`, `j` to the cost of going through `k`. -/
def relax (k i j : V) (d : V → V → M) : V → V → M :=
  fun a b => if a = i ∧ b = j then min (d i j) (d i k + d k j) else d a b

/-- Relax every pair of vertices through `k`. -/
def stage (vs : List V) (k : V) (d : V → V → M) : V → V → M :=
  vs.foldl (fun d i => vs.foldl (fun d j => relax k i j d) d) d

/-- Relax every pair through each vertex of `ks` in turn. -/
def eliminate (vs ks : List V) (d : V → V → M) : V → V → M :=
  ks.foldl (fun d k => stage vs k d) d

theorem relax_le (k i j : V) (d : V → V → M) : relax k i j d ≤ d := by
  intro a b
  unfold relax
  split
  · rename_i h
    rw [h.1, h.2]
    exact min_le_left _ _
  · exact le_rfl

theorem relax_self_le (k i j : V) (d : V → V → M) : relax k i j d i j ≤ d i k + d k j := by
  simp [relax]

theorem row_le (vs : List V) (k i : V) (d : V → V → M) :
    vs.foldl (fun d j => relax k i j d) d ≤ d :=
  foldl_le (fun d j => relax_le k i j d) vs d

theorem stage_le (vs : List V) (k : V) (d : V → V → M) : stage vs k d ≤ d :=
  foldl_le (fun d i => row_le vs k i d) vs d

variable [IsOrderedAddMonoid M]

/-- A stage gets below every detour through its vertex, measured at the start of
the stage. -/
theorem stage_le_add {vs : List V} {i j : V} (hi : i ∈ vs) (hj : j ∈ vs) (k : V)
    (d : V → V → M) : stage vs k d i j ≤ d i k + d k j := by
  obtain ⟨d₁, h₁, hs⟩ := exists_foldl_le (fun d i => row_le vs k i d) hi d
  obtain ⟨d₂, h₂, hr⟩ := exists_foldl_le (fun d j => relax_le k i j d) hj d₁
  calc stage vs k d i j ≤ relax k i j d₂ i j := (hs i j).trans (hr i j)
    _ ≤ d₂ i k + d₂ k j := relax_self_le k i j d₂
    _ ≤ d i k + d k j := add_le_add ((h₂.trans h₁) i k) ((h₂.trans h₁) k j)

/-- After eliminating `ks`, entries are below every walk with distinct interior
vertices taken from `ks`. No assumption is made on negative closed walks. -/
theorem eliminate_le_cost {src tgt : E → V} {w : E → M} {P : E → Prop} {vs : List V}
    {d : V → V → M} (hd : ∀ e, P e → d (src e) (tgt e) ≤ w e)
    (hvs : ∀ e, P e → src e ∈ vs ∧ tgt e ∈ vs) (ks : List V) {i j : V} {es : List E}
    (hw : IsWalk src tgt i es j) (hP : ∀ e ∈ es, P e) (hne : es ≠ [])
    (hnd : (interior tgt es).Nodup) (hks : ∀ v ∈ interior tgt es, v ∈ ks) :
    eliminate vs ks d i j ≤ cost w es := by
  induction ks using List.reverseRecOn generalizing i j es with
  | nil =>
      cases es with
      | nil => exact (hne rfl).elim
      | cons e es =>
          cases es with
          | nil =>
              obtain ⟨rfl, rfl⟩ := hw
              simpa [eliminate] using hd e (hP e (by simp))
          | cons e' es =>
              have := hks (tgt e) (by simp [interior_cons])
              simp at this
  | append_singleton ks k ih =>
      have hlast : eliminate vs (ks ++ [k]) d = stage vs k (eliminate vs ks d) := by
        simp [eliminate]
      rw [hlast]
      by_cases hk : k ∈ interior tgt es
      · obtain ⟨xs, ys, rfl, hxs, hys, hwx, hwy, hint⟩ := hw.split hk
        rw [hint] at hnd hks
        obtain ⟨hndx, hndy, hdis⟩ := List.nodup_append.mp hnd
        obtain ⟨hky, hndy⟩ := List.nodup_cons.mp hndy
        have hmem : ∀ v, v ≠ k → v ∈ ks ++ [k] → v ∈ ks := by
          intro v hv hmem
          simpa [hv] using hmem
        have hx := ih hwx (fun e he => hP e (by simp [he])) hxs hndx
          (fun v hv => hmem v (hdis v hv k (by simp)) (hks v (by simp [hv])))
        have hy := ih hwy (fun e he => hP e (by simp [he])) hys hndy
          (fun v hv => hmem v (fun h => hky (h ▸ hv)) (hks v (by simp [hv])))
        have hi : i ∈ vs := by
          obtain ⟨e, he, rfl⟩ := (hwx.ends_mem hxs).1
          exact (hvs e (hP e (by simp [he]))).1
        have hj : j ∈ vs := by
          obtain ⟨e, he, rfl⟩ := (hwy.ends_mem hys).2
          exact (hvs e (hP e (by simp [he]))).2
        calc stage vs k (eliminate vs ks d) i j
            ≤ eliminate vs ks d i k + eliminate vs ks d k j := stage_le_add hi hj k _
          _ ≤ cost w xs + cost w ys := add_le_add hx hy
          _ = cost w (xs ++ ys) := (cost_append w xs ys).symm
      · refine (stage_le vs k _ i j).trans (ih hw hP hne hnd ?_)
        intro v hv
        have hvk : v ≠ k := fun h => hk (h ▸ hv)
        simpa [hvk] using hks v hv

/-- Where every entry between distinct vertices is below `c`, which is not positive, every
stage after the first doubles the bound. -/
theorem eliminate_le_nsmul {vs : List V} {d : V → V → M} {c : M} (hc : c ≤ 0)
    (hd : ∀ i ∈ vs, ∀ j ∈ vs, i ≠ j → d i j ≤ c) {k : V} {ks : List V} (hks : k :: ks ⊆ vs)
    (hnd : (k :: ks).Nodup) {i j : V} (hi : i ∈ vs) (hj : j ∈ vs) (hij : i ≠ j ∨ i ≠ k) :
    eliminate vs (k :: ks) d i j ≤ 2 ^ ks.length • c := by
  induction ks using List.reverseRecOn generalizing i j with
  | nil =>
      change stage vs k d i j ≤ 1 • c
      rw [one_nsmul]
      by_cases hne : i = j
      · subst hne
        have hik : i ≠ k := hij.resolve_left fun h => h rfl
        have hk : k ∈ vs := hks List.mem_cons_self
        calc stage vs k d i i ≤ d i k + d k i := stage_le_add hi hj k d
          _ ≤ c + 0 := add_le_add (hd i hi k hk hik) ((hd k hk i hi hik.symm).trans hc)
          _ = c := add_zero c
      · exact (stage_le vs k d i j).trans (hd i hi j hj hne)
  | append_singleton ks k' ih =>
      rw [← List.cons_append] at hks hnd
      obtain ⟨hnd', -, hdisjoint⟩ := List.nodup_append.mp hnd
      have hk' : k' ∈ vs := hks (by simp)
      -- the corner of a later stage is below the bound, like the rest of its row and column
      have hkk' : k' ≠ k := (hdisjoint k List.mem_cons_self k' (by simp)).symm
      have hsub : k :: ks ⊆ vs := fun v hv => hks (List.mem_append_left _ hv)
      have hlast : eliminate vs (k :: (ks ++ [k'])) d = stage vs k' (eliminate vs (k :: ks) d) := by
        simp [eliminate]
      have hcolumn : eliminate vs (k :: ks) d i k' ≤ 2 ^ ks.length • c := by
        refine ih hsub hnd' hi hk' ?_
        by_cases h : i = k'
        · exact .inr (h ▸ hkk')
        · exact .inl h
      calc eliminate vs (k :: (ks ++ [k'])) d i j
          ≤ eliminate vs (k :: ks) d i k' + eliminate vs (k :: ks) d k' j :=
            hlast ▸ stage_le_add hi hj k' _
        _ ≤ 2 ^ ks.length • c + 2 ^ ks.length • c :=
          add_le_add hcolumn (ih hsub hnd' hk' hj (.inr hkk'))
        _ = 2 ^ (ks ++ [k']).length • c := by
          rw [← add_nsmul, List.length_append, List.length_singleton, pow_succ, Nat.mul_two]

end Relaxation
