import Aggregator.Verification.FloydWarshall.Correctness
import Mathlib.Data.List.Nodup
import Mathlib.Data.List.ProdSigma
import Mathlib.Data.List.Infix

/-! # The iterations of the triple loop

The triple loop is a run over a list of iterations, cut into stages that share the
middle vertex. -/

namespace Aggregator.Algo

open EdgeWalk

/-- The iterations `(k, i, j)` of the triple loop, in order. -/
def iterations (vs : List ℕ) : List (ℕ × ℕ × ℕ) :=
  vs.flatMap fun k => (vs ×ˢ vs).map fun x => (k, x.1, x.2)

theorem length_iterations (vs : List ℕ) : (iterations vs).length = vs.length ^ 3 := by
  simp [iterations, List.length_flatMap, List.length_product]
  ring

/-- A part of a flattened list ends within the part of one element. -/
theorem exists_take_flatMap {X Y : Type*} (f : X → List Y) (l : List X) (n : ℕ) :
    ∃ xs ys, (l.flatMap f).take n = xs.flatMap f ++ ys ∧ xs <+: l ∧
      (ys = [] ∨ ∃ x, xs ++ [x] <+: l ∧ ys <+: f x) := by
  induction l generalizing n with
  | nil => exact ⟨[], [], by simp, List.nil_prefix, .inl rfl⟩
  | cons x l ih =>
      rw [List.flatMap_cons, List.take_append]
      by_cases hn : n ≤ (f x).length
      · refine ⟨[], (f x).take n, ?_, List.nil_prefix, .inr ⟨x, by simp, List.take_prefix _ _⟩⟩
        simp [Nat.sub_eq_zero_of_le hn]
      · obtain ⟨xs, ys, heq, hxs, hys⟩ := ih (n - (f x).length)
        refine ⟨x :: xs, ys, ?_, by simpa using hxs, ?_⟩
        · rw [heq, List.take_of_length_le (by omega), List.flatMap_cons, List.append_assoc]
        · simpa using hys

variable {α : Type*} [AddCommGroup α] [LinearOrder α]

/-- The matrix after `n` iterations of the triple loop. -/
def matrixAt (edges : List (Edge (F64 α))) (n : ℕ) : Matrix α :=
  ((iterations (vertices edges).toList).take n).foldl (fun m x => relax x.1 x.2.1 x.2.2 m)
    (initialMatrix edges)

/-- The stages of `ks`. -/
def stages (vs ks : List ℕ) (m : Matrix α) : Matrix α := ks.foldl (fun m k => stage vs k m) m

/-- Relax the pairs through `k`, in order. -/
def relaxPairs (k : ℕ) (pairs : List (ℕ × ℕ)) (m : Matrix α) : Matrix α :=
  pairs.foldl (fun m x => relax k x.1 x.2 m) m

theorem stage_eq_relaxPairs (vs : List ℕ) (k : ℕ) (m : Matrix α) :
    stage vs k m = relaxPairs k (vs ×ˢ vs) m := by
  simp [stage, relaxPairs, SProd.sprod, List.product, List.foldl_flatMap, List.foldl_map]

theorem foldl_iterations (vs ks : List ℕ) (m : Matrix α) :
    (ks.flatMap fun k => (vs ×ˢ vs).map fun x => (k, x.1, x.2)).foldl
      (fun m x => relax x.1 x.2.1 x.2.2 m) m = stages vs ks m := by
  simp [stages, stage_eq_relaxPairs, relaxPairs, List.foldl_flatMap, List.foldl_map]

/-- At every iteration, some stages are over and some pairs of the next one are relaxed. -/
theorem matrixAt_cases (edges : List (Edge (F64 α))) (n : ℕ) :
    ∃ ks k pairs, matrixAt edges n = relaxPairs k pairs
        (stages (vertices edges).toList ks (initialMatrix edges)) ∧
      ks <+: (vertices edges).toList ∧
      pairs <+: (vertices edges).toList ×ˢ (vertices edges).toList ∧
      (pairs = [] ∨ ks ++ [k] <+: (vertices edges).toList) := by
  obtain ⟨ks, rest, heq, hks, hrest⟩ := exists_take_flatMap
    (fun k => ((vertices edges).toList ×ˢ (vertices edges).toList).map fun x => (k, x.1, x.2))
    (vertices edges).toList n
  rw [matrixAt, iterations, heq, List.foldl_append, foldl_iterations]
  rcases hrest with rfl | ⟨k, hk, hrest⟩
  · exact ⟨ks, 0, [], rfl, hks, List.nil_prefix, .inl rfl⟩
  · obtain ⟨pairs, hpairs, rfl⟩ := List.prefix_map_iff.mp hrest
    exact ⟨ks, k, pairs, by simp [relaxPairs, List.foldl_map], hks, hpairs, .inr hk⟩

/-- After the last iteration comes the check for negative cycles. -/
theorem matrixAt_length (edges : List (Edge (F64 α))) :
    matrixAt edges ((vertices edges).toList.length ^ 3) = finalMatrix edges := by
  rw [matrixAt, ← length_iterations, List.take_length, iterations, foldl_iterations]
  rfl

/-! ## The number of edges of a stored path -/

/-- An iteration leaves an entry as it is or joins two stored paths. -/
theorem lookup_relax_cases (k i j a b : ℕ) (m : Matrix α) :
    lookup (relax k i j m) a b = lookup m a b ∨ a = i ∧ b = j ∧
      (lookup (relax k i j m) a b).edges = (lookup m i k).edges ++ (lookup m k j).edges := by
  rcases relax_cases k i j m with h | ⟨ik, kj, hik, hkj, -, h⟩
  · rw [h]
    exact .inl rfl
  · rw [h, lookup_insert, lookup_of_getElem? hik, lookup_of_getElem? hkj]
    split
    · rename_i hab
      exact .inr ⟨hab.1, hab.2, rfl⟩
    · exact .inl rfl

def entryLength (m : Matrix α) (i j : ℕ) : ℕ := (lookup m i j).edges.length

/-- How many times the longest list an entry can become within the stage of `k`: its
corner is spliced into its row and its column, and these into all other entries. -/
def growth (k i j : ℕ) : ℕ :=
  if i = k then if j = k then 2 else 3 else if j = k then 3 else 6

/-- The two parts of a replaced entry add up to its growth; in the row and the column of `k`
one of them is the entry itself. -/
theorem add_le_growth {k a b bound x y : ℕ} (hx : x ≤ growth k a k * bound)
    (hy : y ≤ growth k k b * bound) (hcolumn : b = k → x ≤ bound) (hrow : a = k → y ≤ bound) :
    x + y ≤ growth k a b * bound := by
  by_cases ha : a = k
  · by_cases hb : b = k
    · have hx := hcolumn hb
      have hy := hrow ha
      rw [growth, if_pos ha, if_pos hb]
      omega
    · have hy := hrow ha
      rw [growth, if_pos ha, if_pos rfl] at hx
      rw [growth, if_pos ha, if_neg hb]
      omega
  · by_cases hb : b = k
    · have hx := hcolumn hb
      rw [growth, if_pos rfl, if_pos hb] at hy
      rw [growth, if_neg ha, if_pos hb]
      omega
    · rw [growth, if_neg ha, if_pos rfl] at hx
      rw [growth, if_pos rfl, if_neg hb] at hy
      rw [growth, if_neg ha, if_neg hb]
      omega

/-- Within a stage each pair is relaxed once. -/
theorem entryLength_relaxPairs_le {m : Matrix α} {bound : ℕ} (hm : ∀ i j, entryLength m i j ≤ bound)
    (k : ℕ) {pairs : List (ℕ × ℕ)} (hpairs : pairs.Nodup) (a b : ℕ) :
    entryLength (relaxPairs k pairs m) a b ≤ growth k a b * bound ∧
      ((a, b) ∉ pairs → entryLength (relaxPairs k pairs m) a b = entryLength m a b) := by
  induction pairs using List.reverseRecOn generalizing a b with
  | nil =>
      refine ⟨(hm a b).trans (Nat.le_mul_of_pos_left _ ?_), fun _ => rfl⟩
      unfold growth
      split <;> split <;> omega
  | append_singleton pairs x ih =>
      obtain ⟨i, j⟩ := x
      obtain ⟨hnd, -, hdisjoint⟩ := List.nodup_append.mp hpairs
      have hij : (i, j) ∉ pairs := fun h => hdisjoint _ h _ (by simp) rfl
      have ih := ih hnd
      have hstep : relaxPairs k (pairs ++ [(i, j)]) m = relax k i j (relaxPairs k pairs m) := by
        simp [relaxPairs]
      rw [hstep]
      rcases lookup_relax_cases k i j a b (relaxPairs k pairs m) with h | ⟨rfl, rfl, h⟩
      · have heq : entryLength (relax k i j (relaxPairs k pairs m)) a b =
            entryLength (relaxPairs k pairs m) a b := congrArg (fun p => p.edges.length) h
        rw [heq]
        exact ⟨(ih a b).1, fun hab => (ih a b).2 fun h => hab (by simp [h])⟩
      · refine ⟨?_, fun hab => absurd (by simp) hab⟩
        have heq : entryLength (relax k a b (relaxPairs k pairs m)) a b =
            entryLength (relaxPairs k pairs m) a k + entryLength (relaxPairs k pairs m) k b := by
          rw [entryLength, h, List.length_append]
          rfl
        rw [heq]
        have hold : entryLength (relaxPairs k pairs m) a b ≤ bound :=
          ((ih a b).2 hij).le.trans (hm a b)
        refine add_le_growth (ih a k).1 (ih k b).1 (fun hb => ?_) fun ha => ?_
        · exact hb ▸ hold
        · exact ha ▸ hold

theorem growth_le (k i j : ℕ) : growth k i j ≤ 6 := by
  unfold growth
  split <;> split <;> omega

omit [LinearOrder α] in
theorem entryLength_initialMatrix_le (edges : List (Edge (F64 α))) (i j : ℕ) :
    entryLength (initialMatrix edges) i j ≤ 1 := by
  unfold entryLength
  cases h : (initialMatrix edges)[(⟨i, j⟩ : Pair ℕ)]? with
  | none => simp [lookup_of_not_mem h]
  | some path =>
      rw [lookup_of_getElem? h]
      rcases initialMatrix_cases h with ⟨e, -, -, rfl⟩ | ⟨-, -, -, rfl⟩ <;> simp

theorem entryLength_stages_le {vs : List ℕ} (hvs : vs.Nodup) (ks : List ℕ)
    (edges : List (Edge (F64 α))) (i j : ℕ) :
    entryLength (stages vs ks (initialMatrix edges)) i j ≤ 6 ^ ks.length := by
  induction ks using List.reverseRecOn generalizing i j with
  | nil => simpa [stages] using entryLength_initialMatrix_le edges i j
  | append_singleton ks k ih =>
      have hstep : stages vs (ks ++ [k]) (initialMatrix edges) =
          relaxPairs k (vs ×ˢ vs) (stages vs ks (initialMatrix edges)) := by
        simp [stages, stage_eq_relaxPairs]
      rw [hstep, List.length_append, List.length_singleton, Nat.pow_succ']
      calc entryLength _ i j
          ≤ growth k i j * 6 ^ ks.length :=
            (entryLength_relaxPairs_le ih k (hvs.product hvs) i j).1
        _ ≤ 6 * 6 ^ ks.length := Nat.mul_le_mul_right _ (growth_le k i j)

/-- Whatever the costs are, a stage makes the stored lists at most six times as long. -/
theorem entryLength_matrixAt_le (edges : List (Edge (F64 α))) (n i j : ℕ) :
    entryLength (matrixAt edges n) i j ≤ 6 ^ (vertices edges).toList.length := by
  obtain ⟨ks, k, pairs, heq, hks, hpairs, hk⟩ := matrixAt_cases edges n
  have hvs := KeyedFold.nodup_toList (vertices edges)
  have hstages := entryLength_stages_le hvs ks edges
  rw [heq]
  rcases hk with rfl | hk
  · exact (hstages i j).trans (Nat.pow_le_pow_right (by omega) hks.length_le)
  · have hnd : pairs.Nodup := hpairs.sublist.nodup (hvs.product hvs)
    have hlen : ks.length + 1 ≤ (vertices edges).toList.length := by
      simpa using hk.length_le
    calc entryLength _ i j
        ≤ growth k i j * 6 ^ ks.length := (entryLength_relaxPairs_le hstages k hnd i j).1
      _ ≤ 6 * 6 ^ ks.length := Nat.mul_le_mul_right _ (growth_le k i j)
      _ = 6 ^ (ks.length + 1) := (Nat.pow_succ' ..).symm
      _ ≤ 6 ^ (vertices edges).toList.length := Nat.pow_le_pow_right (by omega) hlen

/-! ## Lists that double -/

theorem cost_eq_neg_length {es : List (Edge (F64 ℤ))} (h : ∀ e ∈ es, e.cost = (-1 : ℤ)) :
    cost Edge.cost es = (-(es.length : ℤ) : ℤ) := by
  induction es with
  | nil => rfl
  | cons e es ih =>
      rw [cost_cons, h e List.mem_cons_self, ih fun x hx => h x (List.mem_cons_of_mem _ hx),
        ← WithTop.coe_add, List.length_cons]
      congr 1
      push_cast
      ring

/-- With an edge of cost -1 between any two vertices, every stage after the first doubles
the lists. -/
theorem two_pow_le_length {edges : List (Edge (F64 ℤ))} (hone : OneEdgePerPair edges)
    (hcost : ∀ e ∈ edges, e.cost = (-1 : ℤ))
    (hall : ∀ i ∈ vertices edges, ∀ j ∈ vertices edges, i ≠ j → ∃ e ∈ edges, e.pair = ⟨i, j⟩)
    {n i j : ℕ} (hlength : (vertices edges).toList.length = n + 1) (hi : i ∈ vertices edges)
    (hj : j ∈ vertices edges) (hij : i ≠ j) :
    ∃ path, (matrixAt edges ((n + 1) ^ 3))[(⟨i, j⟩ : Pair ℕ)]? = some path ∧
      2 ^ n ≤ path.edges.length := by
  obtain ⟨k, ks, hvs⟩ := List.exists_cons_of_length_eq_add_one hlength
  have hks : ks.length = n := by simpa [hvs] using hlength
  have hnd := KeyedFold.nodup_toList (vertices edges)
  have hinitial : ∀ i ∈ (vertices edges).toList, ∀ j ∈ (vertices edges).toList, i ≠ j →
      costs (initialMatrix edges) i j ≤ (-1 : ℤ) := by
    intro i hi j hj hij
    obtain ⟨e, he, hpair⟩ := hall i (Std.ExtTreeSet.mem_toList.mp hi) j
      (Std.ExtTreeSet.mem_toList.mp hj) hij
    have hentry := initialMatrix_edge hone he
    rw [hpair] at hentry
    rw [costs, lookup_of_getElem? hentry, hcost e he]
  have hle : costs (finalMatrix edges) i j ≤ (-(2 ^ n : ℕ) : ℤ) := by
    have h := Relaxation.eliminate_le_nsmul (M := F64 ℤ) (c := (-1 : ℤ)) (by decide) hinitial
      (fun v hv => hvs ▸ hv) (hvs ▸ hnd) (Std.ExtTreeSet.mem_toList.mpr hi)
      (Std.ExtTreeSet.mem_toList.mpr hj) (.inl hij)
    rw [← hvs, hks, ← WithTop.coe_nsmul] at h
    rw [finalMatrix, costs_tripleLoop]
    simpa using h
  rw [← hlength, matrixAt_length]
  cases hpath : (finalMatrix edges)[(⟨i, j⟩ : Pair ℕ)]? with
  | none =>
      rw [costs, lookup_of_not_mem hpath] at hle
      exact absurd hle (by simp [f64Max])
  | some path =>
      obtain ⟨-, -, hw, htotal⟩ := sound_finalMatrix edges _ _ hpath
      rw [costs, lookup_of_getElem? hpath, htotal,
        cost_eq_neg_length fun e he => hcost e (hw.2 e he), WithTop.coe_le_coe] at hle
      refine ⟨path, rfl, ?_⟩
      omega

end Aggregator.Algo
