import Aggregator.Verification.LongestPaths.Logarithm
import Aggregator.Verification.LongestPaths.UniqueEdges

/-! # Products along walks

The negated logarithm carries walks to walks and products to total costs, and the map
of original weights brings them back. -/

namespace Aggregator.Algo

open EdgeWalk

universe u

variable {K α : Type u} [Field K] [LinearOrder K] [AddCommGroup α] [LinearOrder α]

/-- The product of the costs of the edges. -/
def product (es : List (Edge K)) : K := (es.map Edge.cost).prod

omit [LinearOrder K] in
@[simp] theorem product_nil : product ([] : List (Edge K)) = 1 := rfl

omit [LinearOrder K] in
@[simp] theorem product_cons (e : Edge K) (es : List (Edge K)) :
    product (e :: es) = e.cost * product es := by
  simp [product]

omit [LinearOrder K] in
theorem product_append (xs ys : List (Edge K)) : product (xs ++ ys) = product xs * product ys := by
  simp [product]

omit [LinearOrder K] in
theorem foldl_mul_cost (es : List (Edge K)) :
    es.foldl (fun acc e => acc * e.cost) 1 = product es := by
  rw [product, List.prod_eq_foldl, List.foldl_map]

/-! ## Walks over logarithms -/

section Walks

variable (L : Log2 K α) {edges es : List (Edge K)} {s t : ℕ}

@[simp] theorem Log2.logEdge_source (e : Edge K) : (L.logEdge e).source = e.source := rfl

@[simp] theorem Log2.logEdge_target (e : Edge K) : (L.logEdge e).target = e.target := rfl

theorem WalkIn.map_logEdge (h : WalkIn edges s es t) :
    WalkIn (edges.map L.logEdge) s (es.map L.logEdge) t := by
  refine ⟨(isWalk_map (fun _ => rfl) fun _ => rfl).mpr h.1, fun e he => ?_⟩
  obtain ⟨x, hx, rfl⟩ := List.mem_map.mp he
  exact List.mem_map_of_mem (h.2 x hx)

theorem exists_of_walkIn_map_logEdge {ls : List (Edge (F64 α))}
    (h : WalkIn (edges.map L.logEdge) s ls t) :
    ∃ es : List (Edge K), ls = es.map L.logEdge ∧ WalkIn edges s es t := by
  have hedge : ∀ l ∈ ls, ∃ e : Edge K, (e ∈ edges ∧ l = L.logEdge e) ∧
      l.source = e.source ∧ l.target = e.target := by
    intro l hl
    obtain ⟨e, he, rfl⟩ := List.mem_map.mp (h.2 l hl)
    exact ⟨e, ⟨he, rfl⟩, rfl, rfl⟩
  obtain ⟨es, hw, hes⟩ := h.1.exists_forall₂ (r := Eq) (by simp) hedge rfl rfl
  refine ⟨es, ?_, hw, fun e he => ?_⟩
  · exact List.forall₂_eq_eq_eq ▸ List.forall₂_map_right_iff.mpr (hes.imp fun _ _ h => h.2)
  · obtain ⟨l, -, hl⟩ := EdgeWalk.exists_mem_of_forall₂ hes he
    exact hl.1

variable [IsStrictOrderedRing K]

theorem product_nonneg (h : ∀ e ∈ es, 0 ≤ e.cost) : 0 ≤ product es := by
  refine List.prod_nonneg fun x hx => ?_
  obtain ⟨e, he, rfl⟩ := List.mem_map.mp hx
  exact h e he

theorem product_pos (h : ∀ e ∈ es, 0 < e.cost) : 0 < product es := by
  refine List.prod_pos fun x hx => ?_
  obtain ⟨e, he, rfl⟩ := List.mem_map.mp hx
  exact h e he

theorem cost_map_logEdge (h : ∀ e ∈ es, 0 ≤ e.cost) :
    cost Edge.cost (es.map L.logEdge) = L.negLog2 (product es) := by
  induction es with
  | nil => simp
  | cons e es ih =>
      have hes : ∀ x ∈ es, 0 ≤ x.cost := fun x hx => h x (by simp [hx])
      rw [List.map_cons, cost_cons, ih hes, product_cons,
        L.negLog2_mul (h e (by simp)) (product_nonneg hes)]
      rfl

end Walks

/-! ## Restoring the weights -/

section Restore

variable (L : Log2 K α) {edges : List (Edge K)}

theorem oneEdgePerPair_map_logEdge (hone : OneEdgePerPair edges) :
    OneEdgePerPair (edges.map L.logEdge) := by
  rw [OneEdgePerPair, List.map_map]
  exact hone

omit [Field K] [LinearOrder K] in
theorem weightMap_getElem? (hone : OneEdgePerPair edges) {e : Edge K} (he : e ∈ edges) :
    (weightMap edges)[toLex (e.pair, e.provider)]? = some e.cost := by
  refine (KeyedFold.getElem?_ofList_iff ?_).mpr (List.mem_map_of_mem he)
  rw [List.map_map]
  refine List.Nodup.of_map (fun p : Pair ℕ ×ₗ ℕ => (ofLex p).1) ?_
  rw [List.map_map]
  exact hone

theorem restoreEdge_logEdge (hone : OneEdgePerPair edges) {e : Edge K} (he : e ∈ edges) :
    restoreEdge (weightMap edges) (L.logEdge e) = .ok e := by
  have hweight : (weightMap edges)[toLex ((L.logEdge e).pair, (L.logEdge e).provider)]? =
      some e.cost := weightMap_getElem? hone he
  rw [restoreEdge, hweight]
  rfl

/-- The edges of a path are restored as they were in the input. -/
theorem restorePath_map_logEdge (hone : OneEdgePerPair edges) {es : List (Edge K)}
    (hes : ∀ e ∈ es, e ∈ edges) (p : Pair ℕ) (c : F64 α) :
    restorePath (weightMap edges) (p, ⟨c, es.map L.logEdge⟩) = .ok (p, ⟨product es, es⟩) := by
  have hmap : (es.map L.logEdge).mapM (restoreEdge (weightMap edges)) =
      (.ok es : Exec PathCalculationError _) := by
    rw [Exec.mapM_eq_ok_iff, List.forall₂_map_left_iff, List.forall₂_same]
    exact fun e he => restoreEdge_logEdge L hone (hes e he)
  rw [restorePath, hmap, Exec.ok_bind, foldl_mul_cost]
  rfl

end Restore

end Aggregator.Algo
