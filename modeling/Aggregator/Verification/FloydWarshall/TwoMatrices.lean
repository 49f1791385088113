import Aggregator.Verification.FloydWarshall.SimplePaths

/-! # The stages of the textbook

The textbook computes a stage into a second matrix. The triple loop overwrites the matrix
that it reads, but without negative closed walks it never overwrites what it still reads. -/

namespace Aggregator.Algo

variable {α : Type*} [AddCommGroup α] [LinearOrder α]

/-- `min(A[i,j], A[i,k] + A[k,j])` with its path, where a tie keeps the old path. -/
def minPath (A : Matrix α) (k i j : ℕ) : Option (Path (F64 α)) :=
  let ik := lookup A i k
  let kj := lookup A k j
  if ik.totalCost + kj.totalCost < (lookup A i j).totalCost then
    some ⟨ik.totalCost + kj.totalCost, ik.edges ++ kj.edges⟩
  else A[(⟨i, j⟩ : Pair ℕ)]?

/-- A second matrix receives the minima of the pairs, read in the first one. -/
def textbookPairs (k : ℕ) (pairs : List (ℕ × ℕ)) (A : Matrix α) : Matrix α :=
  KeyedFold.overwrite (fun x => ⟨x.1, x.2⟩) (fun x => minPath A k x.1 x.2) pairs A

def textbookStage (vs : List ℕ) (k : ℕ) (A : Matrix α) : Matrix α :=
  textbookPairs k (vs ×ˢ vs) A

def textbookStages (vs ks : List ℕ) (A : Matrix α) : Matrix α :=
  ks.foldl (fun A k => textbookStage vs k A) A

theorem textbookPairs_append (k : ℕ) (pairs : List (ℕ × ℕ)) (i j : ℕ) (A : Matrix α) :
    textbookPairs k (pairs ++ [(i, j)]) A =
      (textbookPairs k pairs A).alter ⟨i, j⟩ fun _ => minPath A k i j := by
  simp [textbookPairs, KeyedFold.overwrite]

theorem getElem?_textbookPairs_of_not_mem {k : ℕ} {pairs : List (ℕ × ℕ)} {A : Matrix α} {i j : ℕ}
    (h : (i, j) ∉ pairs) :
    (textbookPairs k pairs A)[(⟨i, j⟩ : Pair ℕ)]? = A[(⟨i, j⟩ : Pair ℕ)]? := by
  refine KeyedFold.getElem?_overwrite_of_not_mem fun hmem => ?_
  obtain ⟨x, hx, hpair⟩ := List.mem_map.mp hmem
  cases hpair
  exact h hx

/-! ## In place -/

/-- The loop body writes the minimum where it reads what the matrix held before the stage. -/
theorem relax_eq_alter {k i j : ℕ} {A m : Matrix α}
    (hij : m[(⟨i, j⟩ : Pair ℕ)]? = A[(⟨i, j⟩ : Pair ℕ)]?)
    (hik : m[(⟨i, k⟩ : Pair ℕ)]? = A[(⟨i, k⟩ : Pair ℕ)]?)
    (hkj : m[(⟨k, j⟩ : Pair ℕ)]? = A[(⟨k, j⟩ : Pair ℕ)]?) :
    relax k i j m = m.alter ⟨i, j⟩ fun _ => minPath A k i j := by
  have hread : ∀ {a b : ℕ}, m[(⟨a, b⟩ : Pair ℕ)]? = A[(⟨a, b⟩ : Pair ℕ)]? →
      lookup m a b = lookup A a b := fun h => congrArg (Option.getD · _) h
  dsimp only [relax, minPath]
  rw [hread hij, hread hik, hread hkj]
  by_cases hlt : (lookup A i k).totalCost + (lookup A k j).totalCost < (lookup A i j).totalCost
  · rw [if_pos ⟨hlt.ne_top, hlt⟩, if_pos hlt]
    exact KeyedFold.insert_eq_alter _ _ _
  · rw [if_neg fun h => hlt h.2, if_neg hlt]
    exact (KeyedFold.alter_eq_self hij.symm).symm

variable [IsOrderedAddMonoid α]

/-- Each pair is relaxed once, and reads a row and a column that no relaxation changes. -/
theorem relaxPairs_eq_textbookPairs {k : ℕ} {A : Matrix α} (hk : 0 ≤ costs A k k)
    {pairs : List (ℕ × ℕ)} (hpairs : pairs.Nodup) :
    relaxPairs k pairs A = textbookPairs k pairs A := by
  induction pairs using List.reverseRecOn with
  | nil => rfl
  | append_singleton pairs x ih =>
      obtain ⟨i, j⟩ := x
      obtain ⟨hnd, -, hdisjoint⟩ := List.nodup_append.mp hpairs
      have hij : (i, j) ∉ pairs := fun h => hdisjoint _ h _ (by simp) rfl
      have hstep : relaxPairs k (pairs ++ [(i, j)]) A = relax k i j (relaxPairs k pairs A) := by
        simp [relaxPairs]
      have hstage := inStage_relaxPairs hk pairs
      rw [ih hnd] at hstep hstage
      rw [hstep, textbookPairs_append]
      exact relax_eq_alter (getElem?_textbookPairs_of_not_mem hij) (hstage.column i) (hstage.row j)

theorem stages_eq_textbookStages {edges : List (Edge (F64 α))} (hneg : NoNegativeCycle edges)
    {vs : List ℕ} (hvs : vs.Nodup) (ks : List ℕ) :
    stages vs ks (initialMatrix edges) = textbookStages vs ks (initialMatrix edges) := by
  induction ks using List.reverseRecOn with
  | nil => rfl
  | append_singleton ks k ih =>
      have hk := costs_diagonal_nonneg hneg (sound_stages edges vs ks) k
      calc stages vs (ks ++ [k]) (initialMatrix edges)
          = relaxPairs k (vs ×ˢ vs) (stages vs ks (initialMatrix edges)) := by
            simp [stages, stage_eq_relaxPairs]
        _ = textbookPairs k (vs ×ˢ vs) (stages vs ks (initialMatrix edges)) :=
            relaxPairs_eq_textbookPairs hk (hvs.product hvs)
        _ = textbookStages vs (ks ++ [k]) (initialMatrix edges) := by
            rw [ih]
            simp [textbookStages, textbookStage]

/-- Without negative closed walks, every stage of the triple loop ends with the matrix of the
textbook: the same keys, costs and paths. So does the run. -/
theorem stages_take_eq_textbookStages {edges : List (Edge (F64 α))}
    (hneg : NoNegativeCycle edges) :
    (∀ n, stages (vertices edges).toList ((vertices edges).toList.take n) (initialMatrix edges) =
      textbookStages (vertices edges).toList ((vertices edges).toList.take n)
        (initialMatrix edges)) ∧
    floydWarshallShortestPaths edges = .ok (textbookStages (vertices edges).toList
      (vertices edges).toList (initialMatrix edges)) := by
  have hvs := KeyedFold.nodup_toList (vertices edges)
  refine ⟨fun n => stages_eq_textbookStages hneg hvs _, ?_⟩
  rw [floydWarshallShortestPaths_of_noNegativeCycle hneg, ← stages_eq_textbookStages hneg hvs]
  rfl

theorem stages_take_eq_textbookStages_freeRoundTrip :
    (∀ n, stages (vertices freeRoundTrip).toList ((vertices freeRoundTrip).toList.take n)
        (initialMatrix freeRoundTrip) =
      textbookStages (vertices freeRoundTrip).toList ((vertices freeRoundTrip).toList.take n)
        (initialMatrix freeRoundTrip)) ∧
    floydWarshallShortestPaths freeRoundTrip = .ok (textbookStages
      (vertices freeRoundTrip).toList (vertices freeRoundTrip).toList
        (initialMatrix freeRoundTrip)) :=
  stages_take_eq_textbookStages ((noNegativeCycle_iff_isOk (by decide)).mpr (by decide +kernel))

end Aggregator.Algo
