import Mathlib.Data.List.Forall2
import Mathlib.Data.Set.Defs
import Mathlib.Tactic.Common

/-! # Executions that return a value, return an error or panic -/

inductive Panic where
  | index
  | unwrap
  | divideByZero
  | overflow
  deriving DecidableEq, Repr

/-- An abandoned execution either returned an error to its caller or panicked. -/
inductive Fault (ε : Type*) where
  | err (e : ε)
  | panic (p : Panic)
  deriving DecidableEq, Repr

abbrev Exec (ε α : Type*) := Except (Fault ε) α

namespace Exec

universe u v w

variable {ε ε' : Type u} {α β : Type v}

/-- Return the error `e` to the caller. -/
def fail (e : ε) : Exec ε α := .error (.err e)

def panic (p : Panic) : Exec ε α := .error (.panic p)

/-- Take the value out of an option, panicking when there is none. -/
def orPanic (p : Panic) : Option α → Exec ε α
  | some a => .ok a
  | none => .error (.panic p)

/-- Take the value out of an option, returning `e` when there is none. -/
def orErr (e : ε) : Option α → Exec ε α
  | some a => .ok a
  | none => .error (.err e)

/-- Go on when `p` holds, return `e` when it does not. -/
def ensure (p : Prop) [Decidable p] (e : ε) : Exec ε PUnit :=
  if p then .ok ⟨⟩ else .error (.err e)

def mapErr (f : ε → ε') : Exec ε α → Exec ε' α
  | .ok a => .ok a
  | .error (.err e) => .error (.err (f e))
  | .error (.panic p) => .error (.panic p)

/-- The panic that ends the execution, if any. -/
def panicked : Exec ε α → Option Panic
  | .error (.panic p) => some p
  | _ => none

/-- The execution does not end in one of the panics. -/
def Avoids (bad : Set Panic) (x : Exec ε α) : Prop := ∀ p ∈ bad, x ≠ .error (.panic p)

/-- The execution ends without a panic. -/
abbrev NoPanic (x : Exec ε α) : Prop := Avoids Set.univ x

/-! ## Single operations -/

@[simp] theorem orPanic_some (p : Panic) (a : α) : (orPanic p (some a) : Exec ε α) = .ok a := rfl

@[simp] theorem orErr_some (e : ε) (a : α) : orErr e (some a) = .ok a := rfl

theorem orPanic_eq_ok_iff {p : Panic} {o : Option α} {a : α} :
    (orPanic p o : Exec ε α) = .ok a ↔ o = some a := by
  cases o <;> simp [orPanic]

theorem orErr_eq_ok_iff {e : ε} {o : Option α} {a : α} : orErr e o = .ok a ↔ o = some a := by
  cases o <;> simp [orErr]

theorem ensure_pos {p : Prop} [Decidable p] {e : ε} (h : p) : ensure p e = .ok ⟨⟩ := if_pos h

theorem ensure_neg {p : Prop} [Decidable p] {e : ε} (h : ¬ p) : ensure p e = .error (.err e) :=
  if_neg h

theorem ensure_eq_ok_iff {p : Prop} [Decidable p] {e : ε} {u : PUnit} :
    ensure p e = .ok u ↔ p := by
  unfold ensure
  split <;> simp_all

theorem mapErr_eq_ok_iff {f : ε → ε'} {x : Exec ε α} {a : α} :
    mapErr f x = .ok a ↔ x = .ok a := by
  rcases x with (_ | _) | _ <;> simp [mapErr]

theorem toOption_eq_some_iff {x : Exec ε α} {a : α} : x.toOption = some a ↔ x = .ok a := by
  cases x <;> simp [Except.toOption]

theorem bind_eq_ok_iff {x : Exec ε α} {f : α → Exec ε β} {b : β} :
    (x >>= f) = .ok b ↔ ∃ a, x = .ok a ∧ f a = .ok b := by
  cases x <;> simp [bind, Except.bind]

@[simp] theorem ok_bind {a : α} {f : α → Exec ε β} : ((.ok a : Exec ε α) >>= f) = f a := rfl

@[simp] theorem error_bind {e : Fault ε} {f : α → Exec ε β} :
    ((.error e : Exec ε α) >>= f) = .error e := rfl

/-! ## Absence of panics -/

theorem panicked_eq_some_iff {x : Exec ε α} {p : Panic} :
    x.panicked = some p ↔ x = .error (.panic p) := by
  rcases x with (_ | _) | _ <;> simp [panicked]

theorem Avoids.ok {bad : Set Panic} (a : α) : Avoids bad (.ok a : Exec ε α) := by
  intro p _ h
  cases h

theorem Avoids.fail {bad : Set Panic} (e : ε) : Avoids bad (.error (.err e) : Exec ε α) := by
  intro p _ h
  cases h

theorem Avoids.orErr {bad : Set Panic} (e : ε) (o : Option α) : Avoids bad (Exec.orErr e o) := by
  cases o with
  | none => exact Avoids.fail e
  | some a => exact Avoids.ok a

theorem Avoids.orPanic {bad : Set Panic} {p : Panic} (hp : p ∉ bad) (o : Option α) :
    Avoids bad (Exec.orPanic p o : Exec ε α) := by
  cases o with
  | some a => exact Avoids.ok a
  | none =>
      intro q hq h
      cases h
      exact hp hq

theorem Avoids.ensure {bad : Set Panic} (p : Prop) [Decidable p] (e : ε) :
    Avoids bad (Exec.ensure p e) := by
  unfold Exec.ensure
  split
  · exact Avoids.ok _
  · exact Avoids.fail e

theorem Avoids.mapErr {bad : Set Panic} {f : ε → ε'} {x : Exec ε α} (h : Avoids bad x) :
    Avoids bad (Exec.mapErr f x) := by
  rcases x with (e | p) | a
  · exact Avoids.fail (f e)
  · intro q hq heq
    cases heq
    exact h p hq rfl
  · exact Avoids.ok a

theorem Avoids.bind {bad : Set Panic} {x : Exec ε α} {f : α → Exec ε β} (hx : Avoids bad x)
    (hf : ∀ a, x = .ok a → Avoids bad (f a)) : Avoids bad (x >>= f) := by
  rcases x with (e | p) | a
  · exact Avoids.fail e
  · intro q hq heq
    cases heq
    exact hx p hq rfl
  · exact hf a rfl

section MapM

variable {α : Type w} {f : α → Exec ε β} {l : List α} {l' : List β}

/-- A successful traversal is pointwise success. -/
theorem mapM_eq_ok_iff :
    l.mapM f = .ok l' ↔ List.Forall₂ (fun a b => f a = .ok b) l l' := by
  induction l generalizing l' with
  | nil => cases l' <;> simp [pure, Except.pure]
  | cons a l ih =>
      rw [List.mapM_cons, bind_eq_ok_iff, List.forall₂_cons_left_iff]
      constructor
      · rintro ⟨b, hb, h⟩
        obtain ⟨bs, hbs, h⟩ := bind_eq_ok_iff.mp h
        cases h
        exact ⟨b, bs, hb, ih.mp hbs, rfl⟩
      · rintro ⟨b, bs, hb, hbs, rfl⟩
        exact ⟨b, hb, bind_eq_ok_iff.mpr ⟨bs, ih.mpr hbs, rfl⟩⟩

theorem exists_mapM_eq_ok (h : ∀ a ∈ l, ∃ b, f a = .ok b) : ∃ l', l.mapM f = .ok l' := by
  induction l with
  | nil => exact ⟨[], rfl⟩
  | cons a l ih =>
      obtain ⟨b, hb⟩ := h a (by simp)
      obtain ⟨l', hl'⟩ := ih fun x hx => h x (by simp [hx])
      exact ⟨b :: l', by rw [List.mapM_cons, hb, hl']; rfl⟩

/-- The results of a successful traversal are the results on its elements. -/
theorem mem_iff_of_mapM_eq_ok (h : l.mapM f = .ok l') {b : β} :
    b ∈ l' ↔ ∃ a ∈ l, f a = .ok b := by
  have hall := mapM_eq_ok_iff.mp h
  clear h
  induction hall with
  | nil => simp
  | cons hab _ ih => simp [ih, hab, eq_comm]

/-- A successful traversal succeeds on every element. -/
theorem exists_mem_of_mapM_eq_ok (h : l.mapM f = .ok l') {a : α} (ha : a ∈ l) :
    ∃ b ∈ l', f a = .ok b := by
  have hall := mapM_eq_ok_iff.mp h
  clear h
  induction hall with
  | nil => cases ha
  | @cons a' b l l' hab _ ih =>
      rcases List.mem_cons.mp ha with rfl | ha
      · exact ⟨b, by simp, hab⟩
      · obtain ⟨b', hb', hab'⟩ := ih ha
        exact ⟨b', by simp [hb'], hab'⟩

theorem exists_mapM_eq_ok_iff : (∃ l', l.mapM f = .ok l') ↔ ∀ a ∈ l, ∃ b, f a = .ok b := by
  refine ⟨fun ⟨l', h⟩ a ha => ?_, exists_mapM_eq_ok⟩
  obtain ⟨b, -, hb⟩ := exists_mem_of_mapM_eq_ok h ha
  exact ⟨b, hb⟩

/-- A traversal whose elements can fail with one fault only fails with it. -/
theorem mapM_eq_error {e : Fault ε} (hone : ∀ a ∈ l, (∃ b, f a = .ok b) ∨ f a = .error e)
    (hex : ∃ a ∈ l, f a = .error e) : l.mapM f = .error e := by
  induction l with
  | nil => simp at hex
  | cons a l ih =>
      rw [List.mapM_cons]
      rcases hone a (by simp) with ⟨b, hb⟩ | ha
      · have hl : ∃ x ∈ l, f x = .error e := by
          obtain ⟨x, hx, hfail⟩ := hex
          rcases List.mem_cons.mp hx with rfl | hx
          · rw [hb] at hfail
            cases hfail
          · exact ⟨x, hx, hfail⟩
        rw [hb, ok_bind, ih (fun x hx => hone x (by simp [hx])) hl]
        rfl
      · rw [ha]
        rfl

/-- A traversal that keeps keys apart does not repeat a key. -/
theorem nodup_map_of_mapM_eq_ok {κ κ' : Type*} (h : l.mapM f = .ok l') {key : α → κ} {key' : β → κ'}
    (hkey : ∀ a ∈ l, ∀ a' ∈ l, ∀ b b', f a = .ok b → f a' = .ok b' → key' b = key' b' →
      key a = key a')
    (hl : (l.map key).Nodup) : (l'.map key').Nodup := by
  have hall := mapM_eq_ok_iff.mp h
  clear h
  induction hall with
  | nil => simp
  | @cons a b l l' hab hall ih =>
      rw [List.map_cons, List.nodup_cons] at hl ⊢
      refine ⟨fun hmem => ?_, ih (fun a ha a' ha' => hkey a (by simp [ha]) a' (by simp [ha'])) hl.2⟩
      obtain ⟨b', hb', heq⟩ := List.mem_map.mp hmem
      obtain ⟨a', ha', hab'⟩ := (mem_iff_of_mapM_eq_ok (mapM_eq_ok_iff.mpr hall)).mp hb'
      refine hl.1 (List.mem_map.mpr ⟨a', ha', ?_⟩)
      exact hkey a' (by simp [ha']) a (by simp) b' b hab' hab heq

theorem Avoids.mapM {bad : Set Panic} (h : ∀ a ∈ l, Avoids bad (f a)) :
    Avoids bad (l.mapM f) := by
  induction l with
  | nil => exact Avoids.ok []
  | cons a l ih =>
      rw [List.mapM_cons]
      refine Avoids.bind (h a (by simp)) fun b _ => ?_
      exact Avoids.bind (ih fun x hx => h x (by simp [hx])) fun bs _ => Avoids.ok (b :: bs)

end MapM

/-- What each iteration of a successful loop does to a part of its state, the loop does. -/
theorem foldlM_eq_ok {σ : Type v} {γ : Type*} (part : σ → γ) {f : σ → α → Exec ε σ}
    {g : γ → α → γ} (hf : ∀ s a s', f s a = .ok s' → part s' = g (part s) a) {l : List α}
    {s s' : σ} (h : l.foldlM f s = .ok s') : part s' = l.foldl g (part s) := by
  induction l generalizing s with
  | nil =>
      cases h
      rfl
  | cons a l ih =>
      rw [List.foldlM_cons] at h
      obtain ⟨s₁, h₁, h⟩ := bind_eq_ok_iff.mp h
      rw [List.foldl_cons, ← hf s a s₁ h₁]
      exact ih h

/-- A loop whose iterations all succeed is a fold. -/
theorem foldlM_eq_ok_foldl {σ : Type v} {f : σ → α → Exec ε σ} {g : σ → α → σ} {l : List α}
    (hf : ∀ s, ∀ a ∈ l, f s a = .ok (g s a)) (s : σ) : l.foldlM f s = .ok (l.foldl g s) := by
  induction l generalizing s with
  | nil => rfl
  | cons a l ih =>
      rw [List.foldlM_cons, hf s a (by simp), ok_bind, List.foldl_cons]
      exact ih (fun s x hx => hf s x (by simp [hx])) (g s a)

theorem exists_foldlM_eq_ok {σ : Type v} {f : σ → α → Exec ε σ} {l : List α}
    (hf : ∀ s, ∀ a ∈ l, ∃ s', f s a = .ok s') (s : σ) : ∃ s', l.foldlM f s = .ok s' := by
  induction l generalizing s with
  | nil => exact ⟨s, rfl⟩
  | cons a l ih =>
      obtain ⟨s₁, h₁⟩ := hf s a (by simp)
      obtain ⟨s', h'⟩ := ih (fun s x hx => hf s x (by simp [hx])) s₁
      exact ⟨s', by rw [List.foldlM_cons, h₁, ok_bind, h']⟩

/-- Each iteration of a successful loop succeeds. -/
theorem exists_of_foldlM_eq_ok {σ : Type v} {f : σ → α → Exec ε σ} {l : List α} {s s' : σ}
    (h : l.foldlM f s = .ok s') {a : α} (ha : a ∈ l) : ∃ s₁ s₂, f s₁ a = .ok s₂ := by
  induction l generalizing s with
  | nil => cases ha
  | cons a' l ih =>
      rw [List.foldlM_cons] at h
      obtain ⟨s₁, h₁, h⟩ := bind_eq_ok_iff.mp h
      rcases List.mem_cons.mp ha with rfl | ha
      · exact ⟨s, s₁, h₁⟩
      · exact ih h ha

theorem forM_eq_ok_iff {f : α → Exec ε PUnit} {l : List α} :
    forM l f = .ok ⟨⟩ ↔ ∀ a ∈ l, f a = .ok ⟨⟩ := by
  induction l with
  | nil => simp [pure, Except.pure]
  | cons a l ih =>
      rw [List.forM_cons, bind_eq_ok_iff, List.forall_mem_cons, ← ih]
      constructor
      · rintro ⟨⟨⟩, ha, hl⟩
        exact ⟨ha, hl⟩
      · rintro ⟨ha, hl⟩
        exact ⟨⟨⟩, ha, hl⟩

theorem forM_eq_error {f : α → Exec ε PUnit} {l : List α} {e : Fault ε}
    (hone : ∀ a ∈ l, f a = .ok ⟨⟩ ∨ f a = .error e) (hex : ∃ a ∈ l, f a = .error e) :
    forM l f = .error e := by
  induction l with
  | nil => simp at hex
  | cons a l ih =>
      rw [List.forM_cons]
      rcases hone a (by simp) with hok | herr
      · rw [hok, ok_bind]
        refine ih (fun x hx => hone x (by simp [hx])) ?_
        simpa [hok] using hex
      · rw [herr, error_bind]

theorem Avoids.forM {bad : Set Panic} {f : α → Exec ε PUnit} {l : List α}
    (h : ∀ a ∈ l, Avoids bad (f a)) : Avoids bad (forM l f) := by
  induction l with
  | nil => exact Avoids.ok PUnit.unit
  | cons a l ih =>
      rw [List.forM_cons]
      exact Avoids.bind (h a (by simp)) fun _ _ => ih fun x hx => h x (by simp [hx])

theorem Avoids.foldlM {bad : Set Panic} {σ : Type v} {f : σ → α → Exec ε σ} {l : List α}
    (h : ∀ s a, Avoids bad (f s a)) (s : σ) : Avoids bad (l.foldlM f s) := by
  induction l generalizing s with
  | nil => exact Avoids.ok s
  | cons a l ih =>
      rw [List.foldlM_cons]
      exact Avoids.bind (h s a) fun s' _ => ih s'

/-- A failing traversal fails with the fault of one of its elements. -/
theorem exists_of_forM_eq_error {f : α → Exec ε PUnit} {l : List α} {e : Fault ε}
    (h : forM l f = .error e) : ∃ a ∈ l, f a = .error e := by
  induction l with
  | nil => cases h
  | cons a l ih =>
      rw [List.forM_cons] at h
      cases ha : f a with
      | error e' =>
          rw [ha, error_bind] at h
          exact ⟨a, by simp, by rw [ha, h]⟩
      | ok u =>
          rw [ha, ok_bind] at h
          obtain ⟨b, hb, hf⟩ := ih h
          exact ⟨b, by simp [hb], hf⟩

end Exec
