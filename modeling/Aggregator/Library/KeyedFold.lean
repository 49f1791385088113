import Aggregator.Library.Exec
import Mathlib.Data.List.Dedup
import Mathlib.Data.List.Induction
import Mathlib.Data.List.Nodup
import Mathlib.Data.Prod.Lex
import Mathlib.Order.Std
import Std.Data.ExtTreeMap
import Std.Data.ExtTreeSet

/-! # Ordered maps filled and updated key by key -/

/-- A map iterated in the order of its keys. -/
abbrev BTreeMap (K V : Type*) [Ord K] := Std.ExtTreeMap K V

abbrev BTreeSet (K : Type*) [Ord K] := Std.ExtTreeSet K

namespace KeyedFold

/-- One constant for what the operations on maps and sets ask of their keys. -/
instance transCmp (K : Type*) [LinearOrder K] : Std.TransCmp (compare : K → K → Ordering) :=
  inferInstance

variable {K V X : Type*} [LinearOrder K] [DecidableEq K]

theorem getElem?_insert_eq (m : BTreeMap K V) (a k : K) (v : V) :
    (m.insert a v)[k]? = if a = k then some v else m[k]? := by
  rw [Std.ExtTreeMap.getElem?_insert]
  exact if_congr compare_eq_iff_eq rfl rfl

theorem getElem?_alter_eq (m : BTreeMap K V) (a k : K) (f : Option V → Option V) :
    (m.alter a f)[k]? = if a = k then f m[a]? else m[k]? := by
  rw [Std.ExtTreeMap.getElem?_alter]
  exact if_congr compare_eq_iff_eq rfl rfl

theorem getElem?_erase_eq (m : BTreeMap K V) (a k : K) :
    (m.erase a)[k]? = if a = k then none else m[k]? := by
  rw [Std.ExtTreeMap.getElem?_erase]
  exact if_congr compare_eq_iff_eq rfl rfl

omit [DecidableEq K] in
theorem ext_getElem? {m m' : BTreeMap K V} (h : ∀ k : K, m[k]? = m'[k]?) : m = m' := by
  have : Std.LawfulEqCmp (compare : K → K → Ordering) := ⟨compare_eq_iff_eq.mp⟩
  exact Std.ExtTreeMap.ext_getElem? h

omit [DecidableEq K] in
theorem getElem?_map_eq {W : Type*} (m : BTreeMap K V) (f : K → V → W) (k : K) :
    (m.map f)[k]? = m[k]?.map (f k) := by
  have : Std.LawfulEqCmp (compare : K → K → Ordering) := ⟨compare_eq_iff_eq.mp⟩
  exact Std.ExtTreeMap.getElem?_map

theorem alter_eq_self {m : BTreeMap K V} {a : K} {f : Option V → Option V}
    (h : f m[a]? = m[a]?) : m.alter a f = m := by
  refine ext_getElem? fun k => ?_
  rw [getElem?_alter_eq]
  split
  · rename_i hk
    rw [h, hk]
  · rfl

theorem insert_eq_alter (m : BTreeMap K V) (a : K) (v : V) :
    m.insert a v = m.alter a fun _ => some v := by
  refine ext_getElem? fun k => ?_
  rw [getElem?_insert_eq, getElem?_alter_eq]

theorem erase_eq_alter (m : BTreeMap K V) (a : K) : m.erase a = m.alter a fun _ => none := by
  refine ext_getElem? fun k => ?_
  rw [getElem?_erase_eq, getElem?_alter_eq]

/-- After a sequence of keyed updates, an entry is the result of the updates on its own key. -/
theorem getElem?_foldl_alter (key : X → K) (f : X → Option V → Option V) (l : List X)
    (m : BTreeMap K V) (k : K) :
    (l.foldl (fun m x => m.alter (key x) (f x)) m)[k]? =
      (l.filter (fun x => key x = k)).foldl (fun o x => f x o) m[k]? := by
  induction l generalizing m with
  | nil => rfl
  | cons x l ih =>
      rw [List.foldl_cons, ih, getElem?_alter_eq]
      by_cases h : key x = k
      · simp [h]
      · simp [h]

/-- After a sequence of insertions, an entry is that of the last insertion at its key. -/
theorem getElem?_foldl_insert (key : X → K) (val : X → V) (l : List X)
    (m : BTreeMap K V) (k : K) :
    (l.foldl (fun m x => m.insert (key x) (val x)) m)[k]? =
      (((l.filter (fun x => key x = k)).getLast?.map val).or m[k]?) := by
  induction l using List.reverseRecOn with
  | nil => rfl
  | append_singleton l x ih =>
      rw [List.foldl_append, List.foldl_cons, List.foldl_nil, getElem?_insert_eq, ih]
      by_cases h : key x = k
      · simp [h]
      · simp [h]

omit [DecidableEq K] in
theorem mem_iff_exists {m : BTreeMap K V} {k : K} : k ∈ m ↔ ∃ v, m[k]? = some v := by
  rw [Std.ExtTreeMap.mem_iff_isSome_getElem?, Option.isSome_iff_exists]

omit [DecidableEq K] in
theorem mem_of_getElem? {m : BTreeMap K V} {k : K} {v : V} (h : m[k]? = some v) : k ∈ m :=
  mem_iff_exists.mpr ⟨v, h⟩

omit [DecidableEq K] in
theorem mem_toList_iff {m : BTreeMap K V} {x : K × V} : x ∈ m.toList ↔ m[x.1]? = some x.2 :=
  Std.ExtTreeMap.mem_toList_iff_getElem?_eq_some

omit [DecidableEq K] in
theorem sorted_keys_toList (m : BTreeMap K V) : (m.toList.map Prod.fst).Pairwise (· < ·) := by
  rw [List.pairwise_map]
  exact m.ordered_keys_toList.imp fun h => compare_lt_iff_lt.mp h

omit [DecidableEq K] in
theorem nodup_keys_toList (m : BTreeMap K V) : (m.toList.map Prod.fst).Nodup :=
  (sorted_keys_toList m).imp fun h => h.ne

omit [DecidableEq K] in
/-- Lists that are sorted by their keys have an order of their own: the members decide them. -/
theorem eq_of_sorted_keys {key : X → K} {l l' : List X} (hl : (l.map key).Pairwise (· < ·))
    (hl' : (l'.map key).Pairwise (· < ·)) (hmem : ∀ x, x ∈ l ↔ x ∈ l') : l = l' := by
  have hnodup : ∀ {xs : List X}, (xs.map key).Pairwise (· < ·) → xs.Nodup := fun h =>
    List.Nodup.of_map key (h.imp fun hlt => hlt.ne)
  have hperm : l.Perm l' := (List.perm_ext_iff_of_nodup (hnodup hl) (hnodup hl')).mpr hmem
  rw [List.pairwise_map] at hl hl'
  exact List.Perm.eq_of_pairwise (fun a b _ _ hab hba => (hab.asymm hba).elim) hl hl' hperm

omit [DecidableEq K] in
/-- A list without repeated keys is exactly the content of the map collected from it. -/
theorem getElem?_ofList_iff {l : List (K × V)} (hl : (l.map Prod.fst).Nodup) {k : K} {v : V} :
    (Std.ExtTreeMap.ofList l : BTreeMap K V)[k]? = some v ↔ (k, v) ∈ l := by
  have hmem : ∀ v', (k, v') ∈ l → (Std.ExtTreeMap.ofList l : BTreeMap K V)[k]? = some v' := by
    intro v' h
    refine Std.ExtTreeMap.getElem?_ofList_of_mem (compare_eq_iff_eq.mpr rfl) ?_ h
    rw [List.Nodup, List.pairwise_map] at hl
    exact hl.imp fun hne he => hne (compare_eq_iff_eq.mp he)
  refine ⟨fun h => ?_, hmem v⟩
  by_cases hk : k ∈ l.map Prod.fst
  · obtain ⟨⟨k', v'⟩, hx, rfl⟩ := List.mem_map.mp hk
    rw [hmem v' hx] at h
    cases h
    exact hx
  · rw [Std.ExtTreeMap.getElem?_ofList_of_contains_eq_false] at h
    · cases h
    · simpa using hk

omit [DecidableEq K] in
theorem nodup_toList (s : BTreeSet K) : s.toList.Nodup :=
  s.distinct_toList.imp fun h he => h (by rw [he]; exact compare_eq_iff_eq.mpr rfl)

omit [DecidableEq K] in
/-- Membership in the ordered list of the elements collected from a list. -/
theorem mem_toList_ofList {l : List K} {k : K} :
    k ∈ (Std.ExtTreeSet.ofList l : BTreeSet K).toList ↔ k ∈ l := by
  have : Std.LawfulBEqCmp (compare : K → K → Ordering) := ⟨by simp⟩
  rw [Std.ExtTreeSet.mem_toList, Std.ExtTreeSet.mem_ofList, List.contains_iff_mem]

omit [DecidableEq K] in
theorem mem_ofList {l : List (K × V)} {k : K} :
    k ∈ (Std.ExtTreeMap.ofList l : BTreeMap K V) ↔ k ∈ l.map Prod.fst := by
  have : Std.LawfulBEqCmp (compare : K → K → Ordering) := ⟨by simp⟩
  rw [Std.ExtTreeMap.mem_ofList, List.contains_iff_mem]

omit [DecidableEq K] in
/-- The map from the elements of a list to their positions. -/
theorem getElem?_ofList_zipIdx {l : List K} (hl : l.Nodup) {k : K} {i : ℕ} :
    (Std.ExtTreeMap.ofList l.zipIdx : BTreeMap K ℕ)[k]? = some i ↔ l[i]? = some k := by
  rw [getElem?_ofList_iff (by rwa [List.zipIdx_map_fst]), List.mk_mem_zipIdx_iff_getElem?]

/-! ## Last write wins -/

section Overwrite

variable (key : X → K) (val : X → Option V)

/-- Each element writes or removes the entry at its key. -/
def overwrite (l : List X) (m : BTreeMap K V) : BTreeMap K V :=
  l.foldl (fun m x => m.alter (key x) fun _ => val x) m

/-- The last element of each key, in order. -/
def keepLast : List X → List X
  | [] => []
  | x :: xs => if key x ∈ xs.map key then keepLast xs else x :: keepLast xs

variable {key val}

/-- An entry is that of the last element at its key. -/
theorem getElem?_overwrite (l : List X) (m : BTreeMap K V) (k : K) :
    (overwrite key val l m)[k]? = ((l.filter fun x => key x = k).getLast?.map val).getD m[k]? := by
  induction l using List.reverseRecOn with
  | nil => rfl
  | append_singleton l x ih =>
      have hstep : overwrite key val (l ++ [x]) m =
          (overwrite key val l m).alter (key x) fun _ => val x := by
        simp [overwrite]
      rw [hstep, getElem?_alter_eq]
      by_cases h : key x = k
      · simp [h]
      · simp [h, ih]

theorem getElem?_overwrite_of_not_mem {l : List X} {m : BTreeMap K V} {k : K}
    (hk : k ∉ l.map key) : (overwrite key val l m)[k]? = m[k]? := by
  have hnil : l.filter (fun x => key x = k) = [] := by
    simpa [List.filter_eq_nil_iff] using hk
  rw [getElem?_overwrite, hnil]
  rfl

theorem exists_getElem?_overwrite (val : X → Option V) {l : List X} {k : K}
    (hk : k ∈ l.map key) :
    ∃ x ∈ l, key x = k ∧ ∀ m : BTreeMap K V, (overwrite key val l m)[k]? = val x := by
  cases hlast : (l.filter fun x => key x = k).getLast? with
  | none =>
      have hnil := List.filter_eq_nil_iff.mp (List.getLast?_eq_none_iff.mp hlast)
      obtain ⟨x, hx, rfl⟩ := List.mem_map.mp hk
      exact absurd (by simp) (hnil x hx)
  | some x =>
      have hx := List.mem_of_getLast? hlast
      simp only [List.mem_filter, decide_eq_true_eq] at hx
      refine ⟨x, hx.1, hx.2, fun m => ?_⟩
      rw [getElem?_overwrite, hlast]
      rfl

/-- Where all elements at a key agree, its entry is theirs. -/
theorem getElem?_overwrite_of_mem {l : List X} {m : BTreeMap K V} {k : K} {v : Option V}
    (hall : ∀ x ∈ l, key x = k → val x = v) (hk : k ∈ l.map key) :
    (overwrite key val l m)[k]? = v := by
  obtain ⟨x, hx, hkey, hget⟩ := exists_getElem?_overwrite val hk
  rw [hget m, hall x hx hkey]

omit [LinearOrder K] in
theorem map_key_keepLast (l : List X) : (keepLast key l).map key = (l.map key).dedup := by
  induction l with
  | nil => rfl
  | cons x xs ih =>
      by_cases h : key x ∈ xs.map key
      · rw [keepLast, if_pos h, ih, List.map_cons, List.dedup_cons_of_mem h]
      · rw [keepLast, if_neg h, List.map_cons, ih, List.map_cons, List.dedup_cons_of_notMem h]

omit [LinearOrder K] in
theorem keepLast_subset (l : List X) : keepLast key l ⊆ l := by
  induction l with
  | nil => exact List.Subset.refl _
  | cons x xs ih =>
      rw [keepLast]
      split
      · exact List.subset_cons_of_subset _ ih
      · exact List.cons_subset_cons _ ih

omit [LinearOrder K] in
theorem nodup_keepLast (l : List X) : ((keepLast key l).map key).Nodup := by
  rw [map_key_keepLast]
  exact List.nodup_dedup _

/-- The earlier elements at a key make no difference. -/
theorem overwrite_keepLast (l : List X) (m : BTreeMap K V) :
    overwrite key val (keepLast key l) m = overwrite key val l m := by
  induction l generalizing m with
  | nil => rfl
  | cons x xs ih =>
      have hcons : overwrite key val (x :: xs) m =
          overwrite key val xs (m.alter (key x) fun _ => val x) := rfl
      by_cases h : key x ∈ xs.map key
      · rw [keepLast, if_pos h, ih, hcons]
        refine ext_getElem? fun k => ?_
        by_cases hk : k ∈ xs.map key
        · obtain ⟨y, -, -, hget⟩ := exists_getElem?_overwrite val hk
          rw [hget, hget]
        · have hx : key x ≠ k := fun hx => hk (hx ▸ h)
          rw [getElem?_overwrite_of_not_mem hk, getElem?_overwrite_of_not_mem hk,
            getElem?_alter_eq, if_neg hx]
      · rw [keepLast, if_neg h, hcons, ← ih]
        rfl

end Overwrite

/-! ## Traversals of a map -/

/-- The map collected from a fallible traversal of a map that keeps keys apart. -/
theorem getElem?_ofList_mapM {ε K V K' V' : Type*} [LinearOrder K] [LinearOrder K']
    {m : BTreeMap K V} {f : K × V → Exec ε (K' × V')} {l : List (K' × V')}
    (hl : m.toList.mapM f = .ok l)
    (hkey : ∀ a ∈ m.toList, ∀ a' ∈ m.toList, ∀ b b', f a = .ok b → f a' = .ok b' →
      b.1 = b'.1 → a.1 = a'.1) {k' : K'} {v' : V'} :
    (Std.ExtTreeMap.ofList l : BTreeMap K' V')[k']? = some v' ↔
      ∃ k v, m[k]? = some v ∧ f (k, v) = .ok (k', v') := by
  rw [getElem?_ofList_iff (Exec.nodup_map_of_mapM_eq_ok hl hkey (nodup_keys_toList m)),
    Exec.mem_iff_of_mapM_eq_ok hl]
  constructor
  · rintro ⟨⟨k, v⟩, hx, hf⟩
    exact ⟨k, v, mem_toList_iff.mp hx, hf⟩
  · rintro ⟨k, v, hx, hf⟩
    exact ⟨(k, v), mem_toList_iff.mpr hx, hf⟩

/-- Maps whose entries are below each other at a value agree at it. -/
theorem map_getElem?_eq_of_le {K V N : Type*} [LinearOrder K] {value : V → N} {le : N → N → Prop}
    (hle : ∀ a b, le a b → le b a → a = b) {m m' : BTreeMap K V}
    (h : ∀ (k : K) (v : V), m[k]? = some v → ∃ v', m'[k]? = some v' ∧ le (value v) (value v'))
    (h' : ∀ (k : K) (v' : V), m'[k]? = some v' → ∃ v, m[k]? = some v ∧ le (value v') (value v))
    (k : K) : m[k]?.map value = m'[k]?.map value := by
  cases hk : m[k]? with
  | some v =>
      obtain ⟨v', hk', hlt⟩ := h k v hk
      obtain ⟨v₁, hv₁, hgt⟩ := h' k v' hk'
      cases hk.symm.trans hv₁
      rw [hk']
      exact congrArg some (hle _ _ hlt hgt)
  | none =>
      cases hk' : m'[k]? with
      | none => rfl
      | some v' =>
          obtain ⟨v, hv, -⟩ := h' k v' hk'
          cases hk.symm.trans hv

/-! ## Association lists -/

/-- Lists with the same keys and related values have related first values at a key. -/
theorem find?_of_forall₂ {K A B : Type*} [DecidableEq K] {R : A → B → Prop} {xs : List (K × A)}
    {ys : List (K × B)} (h : List.Forall₂ (fun x y => x.1 = y.1 ∧ R x.2 y.2) xs ys) (k : K) :
    xs.find? (fun x => decide (x.1 = k)) = none ∧ ys.find? (fun y => decide (y.1 = k)) = none ∨
      ∃ a b, xs.find? (fun x => decide (x.1 = k)) = some (k, a) ∧
        ys.find? (fun y => decide (y.1 = k)) = some (k, b) ∧ R a b := by
  induction h with
  | nil => simp
  | @cons x y xs ys hxy _ ih =>
      obtain ⟨k', a⟩ := x
      obtain ⟨_, b⟩ := y
      obtain ⟨rfl, hab⟩ := hxy
      by_cases hk : k' = k
      · subst hk
        exact .inr ⟨a, b, by simp, by simp, hab⟩
      · simpa [hk] using ih

end KeyedFold
