import Mathlib.Algebra.BigOperators.Group.List.Basic
import Mathlib.Algebra.Order.Monoid.Defs
import Mathlib.Order.Bounds.Defs
import Mathlib.Order.WellFounded
import Mathlib.Tactic.Common

/-! # Walks in a weighted multigraph

Edges are opaque values with a source, a target and a weight. Vertices may be
visited and edges used any number of times. -/

namespace EdgeWalk

variable {V E M : Type*} (src tgt : E → V)

/-- The edges lead from `s` to `t`; the empty list stays at `s`. -/
def IsWalk : V → List E → V → Prop
  | s, [], t => s = t
  | s, e :: es, t => src e = s ∧ IsWalk (tgt e) es t

instance decidableIsWalk [DecidableEq V] :
    (s : V) → (es : List E) → (t : V) → Decidable (IsWalk src tgt s es t)
  | s, [], t => inferInstanceAs (Decidable (s = t))
  | s, e :: es, t =>
      have := decidableIsWalk (tgt e) es t
      inferInstanceAs (Decidable (src e = s ∧ IsWalk src tgt (tgt e) es t))

/-- The vertices a walk passes through between its two ends. -/
def interior (es : List E) : List V := es.dropLast.map tgt

/-! ## Splitting and joining -/

section Structure

variable {src tgt} {s t k : V} {e : E} {xs ys es : List E}

@[simp] theorem isWalk_nil : IsWalk src tgt s [] t ↔ s = t := Iff.rfl

@[simp] theorem isWalk_cons :
    IsWalk src tgt s (e :: es) t ↔ src e = s ∧ IsWalk src tgt (tgt e) es t := Iff.rfl

theorem isWalk_append :
    IsWalk src tgt s (xs ++ ys) t ↔ ∃ m, IsWalk src tgt s xs m ∧ IsWalk src tgt m ys t := by
  induction xs generalizing s with
  | nil => simp
  | cons x xs ih => simp [ih, and_assoc]

theorem IsWalk.append (hx : IsWalk src tgt s xs k) (hy : IsWalk src tgt k ys t) :
    IsWalk src tgt s (xs ++ ys) t :=
  isWalk_append.mpr ⟨k, hx, hy⟩

theorem IsWalk.ne_nil (h : IsWalk src tgt s es t) (hne : s ≠ t) : es ≠ [] := by
  rintro rfl
  exact hne h

/-- A nonempty walk leaves its start and enters its end along edges of the walk. -/
theorem IsWalk.ends_mem (h : IsWalk src tgt s es t) (hne : es ≠ []) :
    (∃ e ∈ es, src e = s) ∧ ∃ e ∈ es, tgt e = t := by
  induction es generalizing s with
  | nil => exact (hne rfl).elim
  | cons e es ih =>
      obtain ⟨hs, hw⟩ := h
      refine ⟨⟨e, by simp, hs⟩, ?_⟩
      cases es with
      | nil => exact ⟨e, by simp, hw⟩
      | cons e' es =>
          obtain ⟨x, hx, ht⟩ := (ih hw (by simp)).2
          exact ⟨x, by simp [hx], ht⟩

@[simp] theorem interior_nil : interior tgt ([] : List E) = [] := rfl

@[simp] theorem interior_singleton : interior tgt [e] = [] := rfl

theorem interior_cons (hne : es ≠ []) : interior tgt (e :: es) = tgt e :: interior tgt es := by
  obtain ⟨e', es, rfl⟩ := List.exists_cons_of_ne_nil hne
  rfl

theorem mem_interior_of_mem (h : k ∈ interior tgt es) : ∃ e ∈ es, tgt e = k := by
  obtain ⟨e, he, hk⟩ := List.mem_map.mp h
  exact ⟨e, (List.dropLast_sublist es).subset he, hk⟩

theorem mem_map_of_mem_interior (h : k ∈ interior tgt es) : k ∈ es.map tgt :=
  List.mem_map.mpr (mem_interior_of_mem h)

theorem interior_append (hne : ys ≠ []) :
    interior tgt (xs ++ ys) = xs.map tgt ++ interior tgt ys := by
  simp [interior, List.dropLast_append_of_ne_nil hne]

/-- Edge by edge, a walk is replaced by walks over other edges, and loops are left out. -/
theorem IsWalk.exists_replaced {P P' : E → Prop} {R : List E → List E → Prop} (hnil : R [] [])
    (hloop : ∀ e, P e → src e = tgt e → ∀ es es', R es es' → R (e :: es) es')
    (hedge : ∀ e, P e → src e ≠ tgt e → ∃ xs, IsWalk src tgt (src e) xs (tgt e) ∧
      (∀ x ∈ xs, P' x) ∧ ∀ es es', R es es' → R (e :: es) (xs ++ es'))
    (h : IsWalk src tgt s es t) (hP : ∀ e ∈ es, P e) :
    ∃ es', IsWalk src tgt s es' t ∧ (∀ x ∈ es', P' x) ∧ R es es' := by
  induction es generalizing s with
  | nil => exact ⟨[], h, by simp, hnil⟩
  | cons e es ih =>
      obtain ⟨rfl, hw⟩ := h
      obtain ⟨he, hes⟩ := List.forall_mem_cons.mp hP
      obtain ⟨es', hw', hP', hR⟩ := ih hw hes
      by_cases hend : src e = tgt e
      · exact ⟨es', hend ▸ hw', hP', hloop e he hend es es' hR⟩
      · obtain ⟨xs, hxs, hPx, hRx⟩ := hedge e he hend
        refine ⟨xs ++ es', hxs.append hw', ?_, hRx es es' hR⟩
        intro x hx
        exact (List.mem_append.mp hx).elim (hPx x) (hP' x)

theorem append_subset_append_middle {α : Type*} (xs zs ys : List α) :
    xs ++ ys ⊆ xs ++ zs ++ ys := by
  intro e he
  rcases List.mem_append.mp he with h | h <;> simp [h]

/-- The interior of two joined parts grows with what is between them. -/
theorem interior_append_subset {zs : List E} (hne : zs ≠ []) :
    interior tgt (xs ++ ys) ⊆ interior tgt (xs ++ zs ++ ys) := by
  intro v hv
  by_cases hys : ys = []
  · rw [hys, List.append_nil] at hv ⊢
    rw [interior_append hne]
    exact List.mem_append_left _ (mem_map_of_mem_interior hv)
  · rw [interior_append hys] at hv ⊢
    rw [List.map_append]
    exact append_subset_append_middle _ _ _ hv

/-- A nonempty walk visits its interior, and then its end. -/
theorem IsWalk.map_eq (h : IsWalk src tgt s es t) (hne : es ≠ []) :
    es.map tgt = interior tgt es ++ [t] := by
  induction es generalizing s with
  | nil => exact (hne rfl).elim
  | cons e es ih =>
      obtain ⟨-, hw⟩ := h
      by_cases hes : es = []
      · subst hes
        obtain rfl : tgt e = t := hw
        rfl
      · rw [List.map_cons, ih hw hes, interior_cons hes, List.cons_append]

/-- A walk through an interior vertex is a walk to that vertex followed by a walk from it. -/
theorem IsWalk.split (h : IsWalk src tgt s es t) (hk : k ∈ interior tgt es) :
    ∃ xs ys, es = xs ++ ys ∧ xs ≠ [] ∧ ys ≠ [] ∧ IsWalk src tgt s xs k ∧
      IsWalk src tgt k ys t ∧ interior tgt es = interior tgt xs ++ k :: interior tgt ys := by
  induction es generalizing s with
  | nil => simp at hk
  | cons e es ih =>
      obtain ⟨hs, hw⟩ := h
      cases es with
      | nil => simp at hk
      | cons e' es =>
          rw [interior_cons (by simp)] at hk ⊢
          rcases List.mem_cons.mp hk with rfl | hk
          · exact ⟨[e], e' :: es, rfl, by simp, by simp, ⟨hs, rfl⟩, hw, rfl⟩
          · obtain ⟨xs, ys, hes, hxs, hys, hwx, hwy, hint⟩ := ih hw hk
            refine ⟨e :: xs, ys, by simp [hes], by simp, hys, ⟨hs, hwx⟩, hwy, ?_⟩
            rw [interior_cons hxs, hint, List.cons_append]

/-- A walk can be cut at every vertex it visits. -/
theorem IsWalk.split_visited (h : IsWalk src tgt s es t) (hk : k ∈ es.map tgt) :
    ∃ xs ys, es = xs ++ ys ∧ xs ≠ [] ∧ IsWalk src tgt s xs k ∧ IsWalk src tgt k ys t := by
  induction es generalizing s with
  | nil => simp at hk
  | cons e es ih =>
      obtain ⟨hs, hw⟩ := h
      rcases List.mem_cons.mp hk with rfl | hk
      · exact ⟨[e], es, rfl, by simp, ⟨hs, rfl⟩, hw⟩
      · obtain ⟨xs, ys, rfl, -, hx, hy⟩ := ih hw hk
        exact ⟨e :: xs, ys, rfl, by simp, ⟨hs, hx⟩, hy⟩

/-- A walk whose interior repeats a vertex contains a closed walk between two proper parts. -/
theorem IsWalk.split_loop (h : IsWalk src tgt s es t) (hd : ¬ (interior tgt es).Nodup) :
    ∃ v xs c ys, es = xs ++ c ++ ys ∧ xs ≠ [] ∧ c ≠ [] ∧ IsWalk src tgt s xs v ∧
      IsWalk src tgt v c v ∧ IsWalk src tgt v ys t := by
  induction es generalizing s with
  | nil => simp at hd
  | cons e es ih =>
      obtain ⟨hs, hw⟩ := h
      cases es with
      | nil => simp at hd
      | cons e' es =>
          rw [interior_cons (by simp), List.nodup_cons, not_and_or, not_not] at hd
          rcases hd with hk | hd
          · obtain ⟨c, ys, hes, hc, -, hwc, hwy, -⟩ := hw.split hk
            exact ⟨tgt e, [e], c, ys, by simp [hes], by simp, hc, ⟨hs, rfl⟩, hwc, hwy⟩
          · obtain ⟨v, xs, c, ys, hes, -, hc, hwx, hwc, hwy⟩ := ih hw hd
            exact ⟨v, e :: xs, c, ys, by simp [hes], by simp, hc, ⟨hs, hwx⟩, hwc, hwy⟩

end Structure

/-! ## Related walks -/

section Related

variable {V' E' : Type*} {src tgt} {src' tgt' : E' → V'} {r : V → V' → Prop} {R : E → E' → Prop}
  {s t : V} {s' t' : V'} {es : List E}

/-- Where every edge is related to an edge between related ends, and a vertex to at most one
vertex, a walk is related edge by edge to a walk. -/
theorem IsWalk.exists_forall₂ (huniq : ∀ v a b, r v a → r v b → a = b)
    (hedge : ∀ e ∈ es, ∃ e', R e e' ∧ r (src e) (src' e') ∧ r (tgt e) (tgt' e'))
    (h : IsWalk src tgt s es t) (hs : r s s') (ht : r t t') :
    ∃ es', IsWalk src' tgt' s' es' t' ∧ List.Forall₂ R es es' := by
  induction es generalizing s s' with
  | nil =>
      obtain rfl : s = t := h
      exact ⟨[], huniq s s' t' hs ht, .nil⟩
  | cons e es ih =>
      obtain ⟨rfl, hw⟩ := h
      obtain ⟨e', hR, hsrc, htgt⟩ := hedge e (by simp)
      obtain ⟨es', hw', hes'⟩ := ih (fun x hx => hedge x (by simp [hx])) hw htgt
      exact ⟨e' :: es', ⟨huniq _ _ _ hsrc hs, hw'⟩, .cons hR hes'⟩

theorem isWalk_map {src' tgt' : E' → V} {f : E → E'} (hsrc : ∀ e, src' (f e) = src e)
    (htgt : ∀ e, tgt' (f e) = tgt e) :
    IsWalk src' tgt' s (es.map f) t ↔ IsWalk src tgt s es t := by
  induction es generalizing s with
  | nil => rfl
  | cons e es ih => simp [hsrc, htgt, ih]

/-- Where every edge is related to a walk between its ends, the walks join. -/
theorem IsWalk.exists_flatten {src' tgt' : E' → V} {Q : E → List E' → Prop}
    (hedge : ∀ e ∈ es, ∃ xs, IsWalk src' tgt' (src e) xs (tgt e) ∧ Q e xs)
    (h : IsWalk src tgt s es t) :
    ∃ xss, List.Forall₂ Q es xss ∧ IsWalk src' tgt' s xss.flatten t := by
  induction es generalizing s with
  | nil => exact ⟨[], .nil, h⟩
  | cons e es ih =>
      obtain ⟨rfl, hw⟩ := h
      obtain ⟨xs, hxs, hQ⟩ := hedge e (by simp)
      obtain ⟨xss, hall, hflat⟩ := ih (fun x hx => hedge x (by simp [hx])) hw
      exact ⟨xs :: xss, .cons hQ hall, hxs.append hflat⟩

theorem exists_mem_of_forall₂ {es' : List E'} (h : List.Forall₂ R es es') {e' : E'}
    (he' : e' ∈ es') : ∃ e ∈ es, R e e' := by
  induction h with
  | nil => cases he'
  | @cons e x es xs hex _ ih =>
      rcases List.mem_cons.mp he' with rfl | he'
      · exact ⟨e, by simp, hex⟩
      · obtain ⟨y, hy, hye⟩ := ih he'
        exact ⟨y, by simp [hy], hye⟩

theorem map_eq_map_of_forall₂ {X : Type*} {es' : List E'} {f : E → X} {f' : E' → X}
    (h : List.Forall₂ R es es') (hR : ∀ e e', R e e' → f e = f' e') :
    es.map f = es'.map f' := by
  rw [← List.forall₂_eq_eq_eq, List.forall₂_map_left_iff, List.forall₂_map_right_iff]
  exact h.imp hR

end Related

/-! ## Costs -/

section Cost

variable {src tgt} [AddCommMonoid M] (w : E → M)

/-- The total weight of the edges. -/
def cost (es : List E) : M := (es.map w).sum

@[simp] theorem cost_nil : cost w [] = 0 := rfl

@[simp] theorem cost_cons (e : E) (es : List E) : cost w (e :: es) = w e + cost w es := by
  simp [cost]

@[simp] theorem cost_append (xs ys : List E) : cost w (xs ++ ys) = cost w xs + cost w ys := by
  simp [cost]

variable [LinearOrder M] [IsOrderedAddMonoid M] {w} {P : E → Prop} {s t : V} {es : List E}

/-- Without negative closed walks, a walk can be shortened until no interior vertex
repeats, at no greater cost and through no other vertices. -/
theorem IsWalk.exists_interior_nodup_subset
    (hneg : ∀ v c, (∀ e ∈ c, P e) → IsWalk src tgt v c v → 0 ≤ cost w c)
    (h : IsWalk src tgt s es t) (hP : ∀ e ∈ es, P e) (hne : es ≠ []) :
    ∃ es', es' ≠ [] ∧ (∀ e ∈ es', P e) ∧ IsWalk src tgt s es' t ∧
      (interior tgt es').Nodup ∧ interior tgt es' ⊆ interior tgt es ∧
      cost w es' ≤ cost w es := by
  induction hn : es.length using Nat.strong_induction_on generalizing es with
  | _ n ih =>
      by_cases hd : (interior tgt es).Nodup
      · exact ⟨es, hne, hP, h, hd, List.Subset.refl _, le_rfl⟩
      · obtain ⟨v, xs, c, ys, rfl, hxs, hc, hwx, hwc, hwy⟩ := h.split_loop hd
        have hlt : (xs ++ ys).length < n := by
          have := List.length_pos_iff.mpr hc
          simp only [List.length_append] at hn ⊢
          omega
        obtain ⟨es', hne', hP', hw', hd', hsub, hle⟩ := ih _ hlt (hwx.append hwy)
          (fun e he => hP e (append_subset_append_middle xs c ys he)) (by simp [hxs]) rfl
        refine ⟨es', hne', hP', hw', hd', List.Subset.trans hsub (interior_append_subset hc),
          hle.trans ?_⟩
        have hc0 := hneg v c (fun e he => hP e (by simp [he])) hwc
        calc cost w (xs ++ ys) = cost w xs + cost w ys := cost_append w xs ys
          _ ≤ cost w xs + cost w c + cost w ys :=
              add_le_add_left (le_add_of_nonneg_right hc0) _
          _ = cost w (xs ++ c ++ ys) := by simp [add_assoc]

/-- Without negative closed walks, a walk can be shortened until no interior vertex
repeats, at no greater cost. -/
theorem IsWalk.exists_interior_nodup
    (hneg : ∀ v c, (∀ e ∈ c, P e) → IsWalk src tgt v c v → 0 ≤ cost w c)
    (h : IsWalk src tgt s es t) (hP : ∀ e ∈ es, P e) (hne : es ≠ []) :
    ∃ es', es' ≠ [] ∧ (∀ e ∈ es', P e) ∧ IsWalk src tgt s es' t ∧
      (interior tgt es').Nodup ∧ cost w es' ≤ cost w es := by
  obtain ⟨es', hne', hP', hw', hd', -, hle⟩ := h.exists_interior_nodup_subset hneg hP hne
  exact ⟨es', hne', hP', hw', hd', hle⟩

/-- Two walks that share a vertex besides the one that joins them give a shorter nonempty
walk: the closed walk between the two visits is left out. -/
theorem IsWalk.exists_shortcut {k v : V} {ys : List E}
    (hneg : ∀ v c, (∀ e ∈ c, P e) → IsWalk src tgt v c v → 0 ≤ cost w c)
    (hx : IsWalk src tgt s es k) (hy : IsWalk src tgt k ys t)
    (hP : ∀ e ∈ es ++ ys, P e) (hk : k ∉ ys.map tgt) (hvx : v ∈ es.map tgt ∨ v = s ∧ s ≠ t)
    (hvy : v ∈ ys.map tgt) :
    ∃ zs, zs ≠ [] ∧ (∀ e ∈ zs, P e) ∧ IsWalk src tgt s zs t ∧
      (∀ u ∈ interior tgt zs, u ∈ interior tgt es ∨ u ∈ interior tgt ys) ∧
      cost w zs ≤ cost w es + cost w ys := by
  obtain ⟨ys₁, ys₂, rfl, hys₁, hy₁, hy₂⟩ := hy.split_visited hvy
  have hvk : v ≠ k := fun h => hk (h ▸ hvy)
  -- the first walk up to the shared vertex, which is not its end
  obtain ⟨xs₁, xs₂, rfl, hxs₁, hx₁, hx₂⟩ : ∃ xs₁ xs₂, es = xs₁ ++ xs₂ ∧
      (xs₁ ≠ [] ∨ s ≠ t) ∧ IsWalk src tgt s xs₁ v ∧ IsWalk src tgt v xs₂ k := by
    rcases hvx with hvx | ⟨rfl, hst⟩
    · obtain ⟨xs₁, xs₂, h, hne, h₁, h₂⟩ := hx.split_visited hvx
      exact ⟨xs₁, xs₂, h, .inl hne, h₁, h₂⟩
    · exact ⟨[], es, rfl, .inr hst, rfl, hx⟩
  have hwalk := hx₁.append hy₂
  have hxs₂ : xs₂ ≠ [] := hx₂.ne_nil hvk
  refine ⟨xs₁ ++ ys₂, ?_, fun e he => hP e ?_, hwalk, fun u hu => ?_, ?_⟩
  · rcases hxs₁ with h | h
    · simp [h]
    · exact hwalk.ne_nil h
  · simpa using append_subset_append_middle xs₁ (xs₂ ++ ys₁) ys₂ he
  · by_cases hys₂ : ys₂ = []
    · rw [hys₂, List.append_nil] at hu
      left
      rw [interior_append hxs₂]
      exact List.mem_append_left _ (mem_map_of_mem_interior hu)
    · rw [interior_append hys₂] at hu ⊢
      rw [interior_append hxs₂]
      rcases List.mem_append.mp hu with h | h
      · exact .inl (List.mem_append_left _ h)
      · exact .inr (List.mem_append_right _ h)
  · have hmiddle : ∀ e ∈ xs₂ ++ ys₁, e ∈ xs₁ ++ xs₂ ++ (ys₁ ++ ys₂) := by
      intro e he
      rcases List.mem_append.mp he with h | h <;> simp [h]
    have hloop := hneg v (xs₂ ++ ys₁) (fun e he => hP e (hmiddle e he)) (hx₂.append hy₁)
    rw [cost_append] at hloop
    calc cost w (xs₁ ++ ys₂) = cost w xs₁ + cost w ys₂ := cost_append w xs₁ ys₂
      _ ≤ cost w xs₁ + (cost w xs₂ + cost w ys₁) + cost w ys₂ :=
          add_le_add_left (le_add_of_nonneg_right hloop) _
      _ = cost w (xs₁ ++ xs₂) + cost w (ys₁ ++ ys₂) := by simp [add_assoc]

/-- A negative closed walk contains one whose interior vertices are distinct. -/
theorem IsWalk.exists_negative_interior_nodup {v : V} (h : IsWalk src tgt v es v)
    (hP : ∀ e ∈ es, P e) (hneg : cost w es < 0) :
    ∃ u c, c ≠ [] ∧ (∀ e ∈ c, P e) ∧ IsWalk src tgt u c u ∧
      (interior tgt c).Nodup ∧ cost w c < 0 := by
  induction hn : es.length using Nat.strong_induction_on generalizing es v with
  | _ n ih =>
      by_cases hd : (interior tgt es).Nodup
      · refine ⟨v, es, ?_, hP, h, hd, hneg⟩
        rintro rfl
        exact lt_irrefl _ hneg
      · obtain ⟨u, xs, c, ys, rfl, hxs, hc, hwx, hwc, hwy⟩ := h.split_loop hd
        have hlen := List.length_pos_iff.mpr hc
        have hlenx := List.length_pos_iff.mpr hxs
        simp only [List.length_append] at hn
        by_cases hc0 : cost w c < 0
        · exact ih c.length (by omega) hwc (fun e he => hP e (by simp [he])) hc0 rfl
        · refine ih (xs ++ ys).length (by simp only [List.length_append]; omega)
            (hwx.append hwy)
            (fun e he => hP e (append_subset_append_middle xs c ys he)) ?_ rfl
          calc cost w (xs ++ ys) = cost w xs + cost w ys := cost_append w xs ys
            _ ≤ cost w xs + cost w c + cost w ys :=
                add_le_add_left (le_add_of_nonneg_right (not_lt.mp hc0)) _
            _ = cost w (xs ++ c ++ ys) := by simp [add_assoc]
            _ < 0 := hneg

end Cost

/-! ## Tables of best values -/

/-- An entry that stems from a candidate and is at least as good as every candidate tells
whether there is one, and has the best value. -/
theorem isLeast_entry {X Y C : Type*} [Preorder C] {candidate : X → Prop} {value : X → C}
    {entry : Option Y} {total : Y → C} (origin : Y → X)
    (sound : ∀ y, entry = some y → candidate (origin y) ∧ value (origin y) = total y)
    (complete : ∀ x, candidate x → ∃ y, entry = some y ∧ total y ≤ value x) :
    ((∃ y, entry = some y) ↔ ∃ x, candidate x) ∧
      ∀ y, entry = some y → IsLeast {c | ∃ x, candidate x ∧ value x = c} (total y) := by
  refine ⟨⟨?_, ?_⟩, fun y hy => ⟨⟨origin y, sound y hy⟩, ?_⟩⟩
  · rintro ⟨y, hy⟩
    exact ⟨origin y, (sound y hy).1⟩
  · rintro ⟨x, hx⟩
    obtain ⟨y, hy, -⟩ := complete x hx
    exact ⟨y, hy⟩
  · rintro c ⟨x, hx, rfl⟩
    obtain ⟨y', hy', hle⟩ := complete x hx
    rw [hy] at hy'
    cases hy'
    exact hle

theorem isGreatest_entry {X Y C : Type*} [Preorder C] {candidate : X → Prop} {value : X → C}
    {entry : Option Y} {total : Y → C} (origin : Y → X)
    (sound : ∀ y, entry = some y → candidate (origin y) ∧ value (origin y) = total y)
    (complete : ∀ x, candidate x → ∃ y, entry = some y ∧ value x ≤ total y) :
    ((∃ y, entry = some y) ↔ ∃ x, candidate x) ∧
      ∀ y, entry = some y → IsGreatest {c | ∃ x, candidate x ∧ value x = c} (total y) :=
  isLeast_entry (C := Cᵒᵈ) origin sound complete

end EdgeWalk
