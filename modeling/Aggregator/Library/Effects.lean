import Aggregator.Library.KeyedFold

/-! # Writes that have an effect

A write has an effect when it stores a value or removes one that is there. Which writes of a
sequence have one depends on the writes before them. -/

namespace KeyedFold

variable {K V X : Type*} [LinearOrder K] [DecidableEq K] (key : X → K) (val : X → Option V)

def Effective (m : BTreeMap K V) (x : X) : Prop := (val x).isSome = true ∨ key x ∈ m

instance decidableEffective (m : BTreeMap K V) : DecidablePred (Effective key val m) :=
  fun x => inferInstanceAs (Decidable (_ ∨ key x ∈ m))

/-- The writes that have an effect at their turn. -/
def effects : List X → BTreeMap K V → List X
  | [], _ => []
  | x :: xs, m =>
      if Effective key val m x then x :: effects xs (m.alter (key x) fun _ => val x)
      else effects xs (m.alter (key x) fun _ => val x)

/-- A write that a later one at its key follows removes, and so does the later one where the
key is stored. -/
def Unrepeated (m : BTreeMap K V) (l : List X) : Prop :=
  l.Pairwise fun x y => key x = key y → val x = none ∧ (key x ∈ m → val y = none)

variable {key val} {m : BTreeMap K V} {x : X} {l : List X}

theorem mem_alter_iff {a k : K} {v : Option V} :
    k ∈ m.alter a (fun _ => v) ↔ if a = k then v.isSome = true else k ∈ m := by
  rw [Std.ExtTreeMap.mem_iff_isSome_getElem?, getElem?_alter_eq]
  split
  · rfl
  · exact Std.ExtTreeMap.mem_iff_isSome_getElem?.symm

omit [DecidableEq K] in
theorem effective_of_mem (h : key x ∈ m) : Effective key val m x := .inr h

omit [DecidableEq K] in
/-- The removal of what is stored, if it has an effect at all. -/
theorem Effective.mem (h : Effective key val m x) (hnone : val x = none) : key x ∈ m := by
  rcases h with h | h
  · rw [hnone] at h
    cases h
  · exact h

theorem alter_of_not_effective (h : ¬ Effective key val m x) :
    m.alter (key x) (fun _ => val x) = m := by
  rw [Effective, not_or, Bool.not_eq_true, Option.isSome_eq_false_iff,
    Option.isNone_iff_eq_none] at h
  refine alter_eq_self ?_
  rw [h.1, Std.ExtTreeMap.getElem?_eq_none h.2]

theorem effective_alter_iff {y : X} (hne : key x ≠ key y) :
    Effective key val (m.alter (key x) fun _ => val x) y ↔ Effective key val m y := by
  simp only [Effective, mem_alter_iff, if_neg hne]

omit [DecidableEq K] in
theorem effects_cons_of_effective (h : Effective key val m x) :
    effects key val (x :: l) m = x :: effects key val l (m.alter (key x) fun _ => val x) :=
  if_pos h

theorem effects_cons_of_not_effective (h : ¬ Effective key val m x) :
    effects key val (x :: l) m = effects key val l m := by
  rw [effects, if_neg h, alter_of_not_effective h]

/-! ## Which keys have an effect -/

omit [DecidableEq K] in
theorem mem_effects_of_isSome (hx : x ∈ l) (hval : (val x).isSome = true) :
    x ∈ effects key val l m := by
  induction l generalizing m with
  | nil => cases hx
  | cons y l ih =>
      rcases List.mem_cons.mp hx with rfl | hx
      · rw [effects_cons_of_effective (.inl hval)]
        exact List.mem_cons_self
      · rw [effects]
        split
        · exact List.mem_cons_of_mem _ (ih hx)
        · exact ih hx

theorem key_mem_effects_of_mem {k : K} (hk : k ∈ m) (hl : k ∈ l.map key) :
    k ∈ (effects key val l m).map key := by
  induction l generalizing m with
  | nil => cases hl
  | cons y l ih =>
      by_cases hy : key y = k
      · rw [effects_cons_of_effective (effective_of_mem (hy ▸ hk)), List.map_cons, hy]
        exact List.mem_cons_self
      · have hk' : k ∈ m.alter (key y) (fun _ => val y) := mem_alter_iff.mpr (by rwa [if_neg hy])
        have hl' : k ∈ l.map key := by simpa [Ne.symm hy] using hl
        rw [effects]
        split
        · exact List.mem_cons_of_mem _ (ih hk' hl')
        · exact ih hk' hl'

/-! ## One effect for each key -/

theorem Unrepeated.tail (h : Unrepeated key val m (x :: l)) :
    Unrepeated key val (m.alter (key x) fun _ => val x) l := by
  obtain ⟨hx, hl⟩ := List.pairwise_cons.mp h
  refine hl.imp_of_mem fun {a b} ha hb hab heq => ⟨(hab heq).1, fun hmem => ?_⟩
  rw [mem_alter_iff] at hmem
  split at hmem
  · rename_i hkey
    rw [(hx a ha hkey).1] at hmem
    cases hmem
  · exact (hab heq).2 hmem

omit [DecidableEq K] in
theorem unrepeated_of_nodup (h : (l.map key).Nodup) : Unrepeated key val m l := by
  rw [List.Nodup, List.pairwise_map] at h
  exact h.imp fun hne heq => (hne heq).elim

/-- Keys with one effect at most are keys whose writes do not repeat an effect. -/
theorem unrepeated_of_nodup_effects (h : ((effects key val l m).map key).Nodup) :
    Unrepeated key val m l := by
  induction l generalizing m with
  | nil => exact List.Pairwise.nil
  | cons x l ih =>
      have hrest : ((effects key val l (m.alter (key x) fun _ => val x)).map key).Nodup := by
        rw [effects] at h
        split at h
        · exact (List.nodup_cons.mp h).2
        · exact h
      have hfresh : Effective key val m x →
          key x ∉ (effects key val l (m.alter (key x) fun _ => val x)).map key := by
        intro heff
        rw [effects_cons_of_effective heff] at h
        exact (List.nodup_cons.mp h).1
      -- an effect at the head leaves no effect for the later writes at its key
      have hhead : ∀ y ∈ l, key x = key y → val x = none ∧ (key x ∈ m → val y = none) := by
        intro y hy hkey
        constructor
        · by_contra hsome
          have hsome : (val x).isSome = true := Option.isSome_iff_ne_none.mpr hsome
          refine hfresh (.inl hsome) (key_mem_effects_of_mem ?_ ?_)
          · exact mem_alter_iff.mpr (by rwa [if_pos rfl])
          · exact hkey ▸ List.mem_map_of_mem hy
        · intro hmem
          by_contra hsome
          have hsome : (val y).isSome = true := Option.isSome_iff_ne_none.mpr hsome
          exact hfresh (.inr hmem) (hkey ▸ List.mem_map_of_mem (mem_effects_of_isSome hy hsome))
      refine List.pairwise_cons.mpr ⟨hhead, ?_⟩
      refine (ih hrest).imp_of_mem fun {a b} ha hb hab heq => ⟨(hab heq).1, fun hmem => ?_⟩
      by_cases hkey : key x = key a
      · exact (hhead b hb (hkey.trans heq)).2 (hkey ▸ hmem)
      · exact (hab heq).2 (mem_alter_iff.mpr (by rwa [if_neg hkey]))

/-- Then the effects come in the order of the first mentions. -/
theorem Unrepeated.map_key_effects (h : Unrepeated key val m l) :
    (effects key val l m).map key = ((l.filter (Effective key val m)).map key).eraseDups := by
  induction l generalizing m with
  | nil => rfl
  | cons x l ih =>
      by_cases heff : Effective key val m x
      swap
      · have htail := h.tail
        rw [alter_of_not_effective heff] at htail
        rw [effects_cons_of_not_effective heff, List.filter_cons_of_neg (by simpa using heff),
          ih htail]
      rw [effects_cons_of_effective heff, List.filter_cons_of_pos (by simpa using heff),
        List.map_cons, List.map_cons, List.eraseDups_cons, ih h.tail, List.filter_map,
        List.filter_filter]
      refine congrArg (fun l => key x :: (l.map key).eraseDups) (List.filter_congr fun y hy => ?_)
      by_cases hkey : key x = key y
      · obtain ⟨hnone, hremove⟩ := (List.pairwise_cons.mp h).1 y hy hkey
        have hnot : ¬ Effective key val (m.alter (key x) fun _ => val x) y := by
          rw [Effective, hremove (heff.mem hnone), mem_alter_iff, if_pos hkey, hnone]
          simp
        rw [decide_eq_false hnot]
        simp [hkey]
      · simp [effective_alter_iff hkey, Ne.symm hkey]

/-- Under distinct keys, the effects are decided by what is stored at first. -/
theorem effects_eq_filter (h : (l.map key).Nodup) :
    effects key val l m = l.filter (Effective key val m) := by
  induction l generalizing m with
  | nil => rfl
  | cons x l ih =>
      obtain ⟨hx, hl⟩ := List.nodup_cons.mp h
      have hrest : effects key val l (m.alter (key x) fun _ => val x) =
          l.filter (Effective key val m) := by
        rw [ih hl]
        refine List.filter_congr fun y hy => ?_
        have hne : key x ≠ key y := fun heq => hx (heq ▸ List.mem_map_of_mem hy)
        exact decide_eq_decide.mpr (effective_alter_iff hne)
      by_cases heff : Effective key val m x
      · rw [effects_cons_of_effective heff, hrest, List.filter_cons_of_pos (by simpa using heff)]
      · rw [effects, if_neg heff, hrest, List.filter_cons_of_neg (by simpa using heff)]

/-- The last writes have their effects in the order of the last mentions. -/
theorem Unrepeated.map_key_effects_keepLast (h : Unrepeated key val m l) :
    (effects key val (keepLast key l) m).map key =
      ((l.filter (Effective key val m)).map key).dedup := by
  rw [effects_eq_filter (nodup_keepLast l)]
  induction l with
  | nil => rfl
  | cons x l ih =>
      obtain ⟨hx, hl⟩ := List.pairwise_cons.mp h
      by_cases hlater : key x ∈ l.map key
      · rw [keepLast, if_pos hlater, ih hl]
        by_cases heff : Effective key val m x
        · obtain ⟨y, hy, hkey⟩ := List.mem_map.mp hlater
          have hmem : key y ∈ m := hkey ▸ heff.mem (hx y hy hkey.symm).1
          have hyeff : y ∈ l.filter (Effective key val m) :=
            List.mem_filter.mpr ⟨hy, by simpa using effective_of_mem hmem⟩
          have hy' : key x ∈ (l.filter (Effective key val m)).map key :=
            hkey ▸ List.mem_map_of_mem hyeff
          rw [List.filter_cons_of_pos (by simpa using heff), List.map_cons,
            List.dedup_cons_of_mem hy']
        · rw [List.filter_cons_of_neg (by simpa using heff)]
      · rw [keepLast, if_neg hlater]
        by_cases heff : Effective key val m x
        · have hfresh : key x ∉ (l.filter (Effective key val m)).map key := fun hmem =>
            hlater (List.map_subset _ (List.filter_subset_self _) hmem)
          rw [List.filter_cons_of_pos (by simpa using heff), List.map_cons, ih hl,
            List.filter_cons_of_pos (by simpa using heff), List.map_cons,
            List.dedup_cons_of_notMem hfresh]
        · rw [List.filter_cons_of_neg (by simpa using heff), ih hl,
            List.filter_cons_of_neg (by simpa using heff)]

/-- Each effect is what its key ends with. -/
theorem Unrepeated.getElem?_overwrite (h : Unrepeated key val m l) (hx : x ∈ effects key val l m) :
    (overwrite key val l m)[key x]? = val x := by
  induction l generalizing m with
  | nil => cases hx
  | cons y l ih =>
      have hcons : overwrite key val (y :: l) m =
          overwrite key val l (m.alter (key y) fun _ => val y) := rfl
      rw [hcons]
      by_cases heff : Effective key val m y
      swap
      · rw [effects, if_neg heff] at hx
        exact ih h.tail hx
      rw [effects_cons_of_effective heff] at hx
      rcases List.mem_cons.mp hx with rfl | hx
      · by_cases hlater : key x ∈ l.map key
        · have hremove : ∀ z ∈ l, key z = key x → val z = val x := by
            intro z hz hkey
            obtain ⟨hnone, hnone'⟩ := (List.pairwise_cons.mp h).1 z hz hkey.symm
            rw [hnone, hnone' (heff.mem hnone)]
          exact getElem?_overwrite_of_mem hremove hlater
        · rw [getElem?_overwrite_of_not_mem hlater, getElem?_alter_eq, if_pos rfl]
      · exact ih h.tail hx

/-- Where the first and the last mentions come in the same order, the effects are those of the
last writes. -/
theorem Unrepeated.effects_eq_keepLast (h : Unrepeated key val m l)
    (horder : ((l.filter (Effective key val m)).map key).eraseDups =
      ((l.filter (Effective key val m)).map key).dedup) :
    (effects key val l m).map (fun x => (key x, val x)) =
      (effects key val (keepLast key l) m).map (fun x => (key x, val x)) := by
  have hread : ∀ {l' : List X}, Unrepeated key val m l' →
      overwrite key val l' m = overwrite key val l m →
      (effects key val l' m).map (fun x => (key x, val x)) =
        ((effects key val l' m).map key).map fun k => (k, (overwrite key val l m)[k]?) := by
    intro l' hl' heq
    rw [List.map_map]
    refine List.map_congr_left fun x hx => ?_
    rw [Function.comp_apply, ← heq, hl'.getElem?_overwrite hx]
  rw [hread h rfl, hread (unrepeated_of_nodup (nodup_keepLast l)) (overwrite_keepLast l m),
    h.map_key_effects, h.map_key_effects_keepLast, horder]

end KeyedFold
