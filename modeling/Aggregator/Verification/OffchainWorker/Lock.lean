import Aggregator.Verification.OffchainWorker.RateLimit

/-! # The lock of a node

As long as no worker holds the lock beyond its deadline, at most one worker is between taking
the lock and releasing it. A worker that panics keeps the others out until the deadline. -/

namespace Aggregator

variable {T : Config}

/-- The worker has taken the lock and has not released it. -/
@[simp] def WorkerPhase.critical : WorkerPhase → Bool
  | .locked => true
  | .updated => true
  | .bumped => true
  | _ => false

namespace Node

/-- No worker holds the lock when its deadline passes. -/
def InTime (σ : Node T) : NodeAction T → Prop
  | .elapse millis => ∀ b, (σ.phase b).critical = true →
      ∀ deadline ∈ σ.ocwWorkerLock, σ.now + millis ≤ deadline
  | .worker _ _ _ => True

/-- A worker that holds the lock is the only one, and its lock has not expired. -/
structure Exclusive (σ : Node T) : Prop where
  unique : ∀ b b', (σ.phase b).critical = true → (σ.phase b').critical = true → b = b'
  held : ∀ b, (σ.phase b).critical = true → ∃ deadline ∈ σ.ocwWorkerLock, σ.now ≤ deadline

/-- The lock does not expire later than a worker that takes it now would set it. -/
def Bounded (σ : Node T) : Prop :=
  ∀ deadline ∈ σ.ocwWorkerLock, deadline ≤ σ.now + ocwLockDuration

variable {σ : Node T}

theorem critical_enter {b m : T.BlockNumber} {phase : WorkerPhase}
    (h : ((σ.enter b phase).phase m).critical = true) :
    m = b ∧ phase.critical = true ∨ (σ.phase m).critical = true := by
  rw [phase_enter] at h
  split at h
  · rename_i hm
    exact .inl ⟨hm, h⟩
  · exact .inr h

/-- A step that takes no lock. -/
theorem Exclusive.enter (h : σ.Exclusive) {b : T.BlockNumber} {phase : WorkerPhase}
    (hphase : phase.critical = true → (σ.phase b).critical = true) :
    (σ.enter b phase).Exclusive := by
  have hold : ∀ m, ((σ.enter b phase).phase m).critical = true → (σ.phase m).critical = true := by
    intro m hm
    rcases critical_enter hm with ⟨rfl, hnew⟩ | hsame
    · exact hphase hnew
    · exact hsame
  exact ⟨fun m m' hm hm' => h.unique m m' (hold m hm) (hold m' hm'),
    fun m hm => h.held m (hold m hm)⟩

theorem Exclusive.lock (h : σ.Exclusive) {b : T.BlockNumber} {deadline : ℕ}
    (hlock : tryLock σ.ocwWorkerLock σ.now = some deadline) :
    ({ σ with ocwWorkerLock := some deadline }.enter b .locked).Exclusive := by
  have hnone : ∀ m, (σ.phase m).critical ≠ true := by
    intro m hm
    obtain ⟨d, hd, hle⟩ := h.held m hm
    rw [Option.mem_def.mp hd, tryLock] at hlock
    rw [if_neg (by omega)] at hlock
    cases hlock
  have honly : ∀ m, (({ σ with ocwWorkerLock := some deadline }.enter b .locked).phase m).critical =
      true → m = b := by
    intro m hm
    rcases critical_enter hm with ⟨rfl, -⟩ | hm
    · rfl
    · exact (hnone m hm).elim
  have hlater : σ.now ≤ deadline := by
    unfold tryLock at hlock
    split at hlock
    · split at hlock
      · cases hlock
        omega
      · cases hlock
    · cases hlock
      omega
  exact ⟨fun m m' hm hm' => (honly m hm).trans (honly m' hm').symm,
    fun m _ => ⟨deadline, rfl, hlater⟩⟩

theorem Exclusive.release (h : σ.Exclusive) {b : T.BlockNumber} {phase : WorkerPhase}
    (hb : (σ.phase b).critical = true) (hphase : phase.critical = false) :
    ({ σ with ocwWorkerLock := none }.enter b phase).Exclusive := by
  have hnone : ∀ m, (({ σ with ocwWorkerLock := none }.enter b phase).phase m).critical ≠ true := by
    intro m hm
    rw [phase_enter] at hm
    split at hm
    · rw [hphase] at hm
      cases hm
    · rename_i hne
      exact hne (h.unique m b hm hb)
  exact ⟨fun m _ hm => (hnone m hm).elim, fun m hm => (hnone m hm).elim⟩

theorem Exclusive.step (h : σ.Exclusive) {a : NodeAction T} (ha : σ.InTime a) :
    (σ.step a).Exclusive := by
  cases a with
  | elapse millis =>
      refine ⟨h.unique, fun b hb => ?_⟩
      obtain ⟨deadline, hd, -⟩ := h.held b hb
      exact ⟨deadline, hd, ha b hb deadline hd⟩
  | worker b env s =>
      change (σ.worker b env s).Exclusive
      unfold worker
      cases hphase : σ.phase b with
      | entered =>
          refine h.enter fun hcritical => ?_
          split at hcritical <;> cases hcritical
      | triggered =>
          dsimp only
          split
          · rename_i deadline hlock
            exact h.lock hlock
          · exact h.enter fun hcritical => nomatch hcritical
      | locked =>
          have hrounds : { σ with rounds := σ.rounds ++ [b] }.Exclusive := ⟨h.unique, h.held⟩
          exact hrounds.enter fun _ => by simp [hphase]
      | updated =>
          dsimp only
          split
          · rename_i nextTrigger _
            have hbump : { σ with nextOffchainTrigger := .value nextTrigger }.Exclusive :=
              ⟨h.unique, h.held⟩
            exact hbump.enter fun _ => by simp [hphase]
          · exact h.enter fun hcritical => nomatch hcritical
      | bumped => exact h.release (by simp [hphase]) rfl
      | returned => exact h
      | panicked => exact h

theorem Bounded.step (h : σ.Bounded) (a : NodeAction T) : (σ.step a).Bounded := by
  cases a with
  | elapse millis =>
      intro deadline hd
      exact (h deadline hd).trans (by simp only [Node.step]; omega)
  | worker b env s =>
      change (σ.worker b env s).Bounded
      unfold worker
      cases σ.phase b with
      | triggered =>
          dsimp only
          split
          · rename_i deadline hlock
            intro d hd
            cases hd
            unfold tryLock at hlock
            split at hlock
            · split at hlock
              · cases hlock
                exact le_rfl
              · cases hlock
            · cases hlock
              exact le_rfl
          · exact h
      | updated =>
          dsimp only
          split <;> exact h
      | bumped => exact fun d hd => nomatch hd
      | entered => exact h
      | locked => exact h
      | returned => exact h
      | panicked => exact h

theorem Bounded.run (h : σ.Bounded) (actions : List (NodeAction T)) : (σ.run actions).Bounded := by
  induction actions generalizing σ with
  | nil => exact h
  | cons a actions ih => exact ih (h.step a)

/-- The lock of a reachable state expires before the time of one lock has passed. -/
theorem Bounded.tryLock_eq_some (h : σ.Bounded) {millis : ℕ} (hmillis : ocwLockDuration < millis) :
    tryLock σ.ocwWorkerLock (σ.now + millis) = some (σ.now + millis + ocwLockDuration) := by
  unfold tryLock
  split
  · rename_i deadline hlock
    have hle := h deadline hlock
    rw [if_pos (by omega)]
  · rfl

end Node

end Aggregator
