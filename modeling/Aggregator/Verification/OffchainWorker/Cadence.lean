import Aggregator.Verification.OffchainWorker.Lock

/-! # Workers one after the other

When the workers of successive blocks do not overlap, a round is left out only because of an
earlier round less than the delay before it. -/

namespace Aggregator

variable {T : Config}

namespace Node

variable {σ : Node T} {b : T.BlockNumber} {env : Environment T} {s : ChainState T}

/-! ## The steps of one worker -/

theorem enter_enter (phase phase' : WorkerPhase) :
    (σ.enter b phase).enter b phase' = σ.enter b phase' := by
  simp [enter]

theorem worker_of_ended {phase : WorkerPhase} (hended : phase = .returned ∨ phase = .panicked) :
    (σ.enter b phase).worker b env s = σ.enter b phase := by
  have hphase : (σ.enter b phase).phase b = phase := by rw [phase_enter, if_pos rfl]
  unfold worker
  rw [hphase]
  rcases hended with rfl | rfl <;> rfl

theorem worker_of_entered (hphase : σ.phase b = .entered) :
    σ.worker b env s = σ.enter b
      (if shouldTriggerOffchain σ.nextOffchainTrigger b then .triggered else .returned) := by
  unfold worker
  rw [hphase]

theorem worker_of_triggered :
    (σ.enter b .triggered).worker b env s = match tryLock σ.ocwWorkerLock σ.now with
      | some deadline => { σ with ocwWorkerLock := some deadline }.enter b .locked
      | none => σ.enter b .returned := by
  have hphase : (σ.enter b .triggered).phase b = .triggered := by rw [phase_enter, if_pos rfl]
  unfold worker
  rw [hphase]
  change (match tryLock σ.ocwWorkerLock σ.now with
    | some deadline =>
        ({ σ with ocwWorkerLock := some deadline }.enter b .triggered).enter b .locked
    | none => (σ.enter b .triggered).enter b .returned) = _
  simp only [enter_enter]

theorem worker_of_locked :
    (σ.enter b .locked).worker b env s = { σ with rounds := σ.rounds ++ [b] }.enter b
      (.afterRound (fetchPricesAndUpdateBestPaths env s b).panicked) := by
  have hphase : (σ.enter b .locked).phase b = .locked := by rw [phase_enter, if_pos rfl]
  unfold worker
  rw [hphase]
  change ({ σ with rounds := σ.rounds ++ [b] }.enter b .locked).enter b _ = _
  rw [enter_enter]

theorem worker_of_updated :
    (σ.enter b .updated).worker b env s =
      match (T.add b T.offchainTriggerDelay : Exec PEmpty T.BlockNumber) with
      | .ok nextTrigger => { σ with nextOffchainTrigger := .value nextTrigger }.enter b .bumped
      | .error _ => σ.enter b .panicked := by
  have hphase : (σ.enter b .updated).phase b = .updated := by rw [phase_enter, if_pos rfl]
  unfold worker
  rw [hphase]
  dsimp only
  cases (T.add b T.offchainTriggerDelay : Exec PEmpty T.BlockNumber) with
  | ok nextTrigger =>
      change ({ σ with nextOffchainTrigger := .value nextTrigger }.enter b .updated).enter b _ = _
      rw [enter_enter]
  | error e => exact enter_enter ..

theorem worker_of_bumped :
    (σ.enter b .bumped).worker b env s = { σ with ocwWorkerLock := none }.enter b .returned := by
  have hphase : (σ.enter b .bumped).phase b = .bumped := by rw [phase_enter, if_pos rfl]
  unfold worker
  rw [hphase]
  change ({ σ with ocwWorkerLock := none }.enter b .bumped).enter b _ = _
  rw [enter_enter]

/-- Five steps of a worker that nobody interrupts are the worker as a whole. -/
theorem run_replicate_worker (hphase : σ.phase b = .entered) :
    σ.run (List.replicate 5 (.worker b env s)) = σ.offchainWorker b env s := by
  change ((((σ.worker b env s).worker b env s).worker b env s).worker b env s).worker b env s = _
  rw [worker_of_entered hphase]
  unfold offchainWorker
  by_cases htrigger : shouldTriggerOffchain σ.nextOffchainTrigger b = true
  swap
  · simp only [if_neg htrigger, worker_of_ended (.inl rfl)]
  simp only [if_pos htrigger, worker_of_triggered]
  cases tryLock σ.ocwWorkerLock σ.now with
  | none => simp only [worker_of_ended (.inl rfl)]
  | some deadline =>
      simp only [worker_of_locked]
      cases (fetchPricesAndUpdateBestPaths env s b).panicked with
      | some p => simp only [WorkerPhase.afterRound, worker_of_ended (.inr rfl)]
      | none =>
          simp only [WorkerPhase.afterRound, worker_of_updated]
          cases (T.add b T.offchainTriggerDelay : Exec PEmpty T.BlockNumber) with
          | error e => simp only [worker_of_ended (.inr rfl)]
          | ok nextTrigger => simp only [worker_of_bumped]

/-! ## The worker as a whole -/

theorem shouldTriggerOffchain_mono {next : Retrieved T.BlockNumber} {m : T.BlockNumber}
    (hle : b ≤ m) (h : shouldTriggerOffchain next b = true) :
    shouldTriggerOffchain next m = true := by
  cases next with
  | value n => exact decide_eq_true (BitVec.le_trans (of_decide_eq_true h) hle)
  | missing => rfl
  | undecodable => cases h

theorem phase_offchainWorker {m : T.BlockNumber} (hm : m ≠ b) :
    (σ.offchainWorker b env s).phase m = σ.phase m := by
  have henter : ∀ (τ : Node T) phase, τ.phase = σ.phase → (τ.enter b phase).phase m = σ.phase m :=
    fun τ phase hτ => by rw [phase_enter, if_neg hm, hτ]
  unfold offchainWorker
  dsimp only
  split
  · split
    · split
      · split <;> exact henter _ _ rfl
      · exact henter _ _ rfl
    · exact henter _ _ rfl
  · exact henter _ _ rfl

theorem rounds_offchainWorker {deadline : ℕ}
    (hfree : tryLock σ.ocwWorkerLock σ.now = some deadline) :
    (σ.offchainWorker b env s).rounds =
      σ.rounds ++ if shouldTriggerOffchain σ.nextOffchainTrigger b then [b] else [] := by
  unfold offchainWorker
  rw [hfree]
  dsimp only
  split
  · split
    · split <;> rfl
    · rfl
  · exact (List.append_nil _).symm

theorem nextOffchainTrigger_offchainWorker {deadline : ℕ}
    (hfree : tryLock σ.ocwWorkerLock σ.now = some deadline)
    (hfits : b.toNat + T.offchainTriggerDelay.toNat < 2 ^ T.blockNumberBits) :
    (σ.offchainWorker b env s).nextOffchainTrigger =
      if shouldTriggerOffchain σ.nextOffchainTrigger b = true ∧
          (fetchPricesAndUpdateBestPaths env s b).panicked = none then
        .value (b + T.offchainTriggerDelay) else σ.nextOffchainTrigger := by
  unfold offchainWorker
  rw [hfree, Config.add_of_lt hfits]
  dsimp only
  by_cases htrigger : shouldTriggerOffchain σ.nextOffchainTrigger b = true
  · rw [if_pos htrigger]
    cases (fetchPricesAndUpdateBestPaths env s b).panicked with
    | none => rw [if_pos ⟨htrigger, rfl⟩]; rfl
    | some p => rw [if_neg (fun h => nomatch h.2)]; rfl
  · rw [if_neg htrigger, if_neg (fun h => htrigger h.1)]
    rfl

end Node

/-! ## Turns -/

/-- The worker of a block, some time after the one before it. -/
structure Turn (T : Config) where
  millis : ℕ
  blockNumber : T.BlockNumber
  env : Environment T
  chain : ChainState T

/-- Time passes, and the worker does its steps. -/
def Turn.actions (t : Turn T) : List (NodeAction T) :=
  .elapse t.millis :: List.replicate 5 (.worker t.blockNumber t.env t.chain)

/-- The round of the worker does not panic. -/
def Turn.Completes (t : Turn T) : Prop :=
  (fetchPricesAndUpdateBestPaths t.env t.chain t.blockNumber).panicked = none

instance (t : Turn T) : Decidable t.Completes :=
  inferInstanceAs (Decidable
    ((fetchPricesAndUpdateBestPaths t.env t.chain t.blockNumber).panicked = none))

/-- The block is not before the first trigger, and not less than the delay after a completed
round of an earlier one. -/
def Turn.Due (next : Retrieved T.BlockNumber) (turns : List (Turn T)) (rounds : List T.BlockNumber)
    (b : T.BlockNumber) : Prop :=
  shouldTriggerOffchain next b = true ∧
    ∀ t ∈ turns, t.blockNumber < b → t.blockNumber ∈ rounds → t.Completes →
      t.blockNumber.toNat + T.offchainTriggerDelay.toNat ≤ b.toNat

namespace Node

variable {σ : Node T} {next : Retrieved T.BlockNumber} {turns : List (Turn T)}

/-- What the node is like after the turns. -/
structure Paced (next : Retrieved T.BlockNumber) (turns : List (Turn T)) (σ : Node T) : Prop where
  bounded : σ.Bounded
  phase : ∀ b, (∀ t ∈ turns, t.blockNumber ≠ b) → σ.phase b = .entered
  sublist : σ.rounds.Sublist (turns.map Turn.blockNumber)
  trigger : ∀ b, shouldTriggerOffchain σ.nextOffchainTrigger b = true ↔
    shouldTriggerOffchain next b = true ∧ ∀ t ∈ turns, t.blockNumber ∈ σ.rounds → t.Completes →
      t.blockNumber.toNat + T.offchainTriggerDelay.toNat ≤ b.toNat
  rounds : ∀ t ∈ turns, t.blockNumber ∈ σ.rounds ↔ Turn.Due next turns σ.rounds t.blockNumber

theorem paced_start {lock : Option ℕ} {now : ℕ}
    (hlock : ∀ deadline ∈ lock, deadline ≤ now + ocwLockDuration) :
    (start next lock now).Paced next [] where
  bounded := hlock
  phase _ _ := rfl
  sublist := List.Sublist.refl _
  trigger _ := by simp [start]
  rounds _ ht := nomatch ht

theorem run_turn (h : σ.Paced next turns) {t : Turn T}
    (hlater : ∀ t' ∈ turns, t'.blockNumber < t.blockNumber) :
    σ.run t.actions =
      ({ σ with now := σ.now + t.millis } : Node T).offchainWorker t.blockNumber t.env t.chain := by
  have hphase : σ.phase t.blockNumber = .entered :=
    h.phase _ fun t' ht' heq => absurd (hlater t' ht') (heq ▸ BitVec.lt_irrefl _)
  exact run_replicate_worker (σ := { σ with now := σ.now + t.millis }) hphase

theorem Paced.step (h : σ.Paced next turns) {t : Turn T}
    (hlater : ∀ t' ∈ turns, t'.blockNumber < t.blockNumber)
    (hmillis : ocwLockDuration < t.millis)
    (hfits : t.blockNumber.toNat + T.offchainTriggerDelay.toNat < 2 ^ T.blockNumberBits) :
    (σ.run t.actions).Paced next (turns ++ [t]) := by
  have hrun := run_turn h hlater
  have hfree := h.bounded.tryLock_eq_some hmillis
  have hrounds : (σ.run t.actions).rounds = σ.rounds ++
      if shouldTriggerOffchain σ.nextOffchainTrigger t.blockNumber then [t.blockNumber]
      else [] := by
    rw [hrun]
    exact rounds_offchainWorker (σ := { σ with now := σ.now + t.millis }) hfree
  have htrigger : (σ.run t.actions).nextOffchainTrigger =
      if shouldTriggerOffchain σ.nextOffchainTrigger t.blockNumber = true ∧ t.Completes then
        .value (t.blockNumber + T.offchainTriggerDelay) else σ.nextOffchainTrigger := by
    rw [hrun]
    exact nextOffchainTrigger_offchainWorker (σ := { σ with now := σ.now + t.millis }) hfree hfits
  have hne : ∀ t' ∈ turns, t'.blockNumber ≠ t.blockNumber := fun t' ht' heq =>
    absurd (hlater t' ht') (heq ▸ BitVec.lt_irrefl _)
  have hnew : t.blockNumber ∉ σ.rounds := fun hmem => by
    obtain ⟨t', ht', heq⟩ := List.mem_map.mp (h.sublist.subset hmem)
    exact hne t' ht' heq
  -- the rounds of the earlier turns are those from before
  have hold : ∀ t' ∈ turns, t'.blockNumber ∈ (σ.run t.actions).rounds ↔
      t'.blockNumber ∈ σ.rounds := by
    intro t' ht'
    rw [hrounds, List.mem_append]
    refine or_iff_left fun hmem => ?_
    split at hmem
    · exact hne t' ht' (List.mem_singleton.mp hmem)
    · cases hmem
  have hlast : t.blockNumber ∈ (σ.run t.actions).rounds ↔
      shouldTriggerOffchain σ.nextOffchainTrigger t.blockNumber = true := by
    rw [hrounds, List.mem_append, or_iff_right hnew]
    split
    · rename_i hdue
      simp [hdue]
    · rename_i hdue
      simp [hdue]
  constructor
  case bounded => exact h.bounded.run _
  case phase =>
    intro b hb
    have hturns : ∀ t' ∈ turns, t'.blockNumber ≠ b := fun t' ht' =>
      hb t' (List.mem_append_left _ ht')
    rw [hrun, phase_offchainWorker (hb t (by simp)).symm]
    exact h.phase b hturns
  case sublist =>
    rw [hrounds, List.map_append]
    refine h.sublist.append ?_
    split
    · exact List.Sublist.refl _
    · exact List.nil_sublist _
  case trigger =>
    intro b
    rw [htrigger]
    by_cases hround : shouldTriggerOffchain σ.nextOffchainTrigger t.blockNumber = true ∧ t.Completes
    swap
    · -- the turn has no round, or one that panics and leaves the trigger
      rw [if_neg hround, h.trigger]
      refine and_congr_right fun _ => ⟨fun hall t' ht' hmem hcompletes => ?_,
        fun hall t' ht' hmem => ?_⟩
      · rcases List.mem_append.mp ht' with ht' | ht'
        · exact hall t' ht' ((hold t' ht').mp hmem) hcompletes
        · obtain rfl := List.mem_singleton.mp ht'
          exact (hround ⟨hlast.mp hmem, hcompletes⟩).elim
      · exact hall t' (List.mem_append_left _ ht') ((hold t' ht').mpr hmem)
    have hnext : shouldTriggerOffchain (.value (t.blockNumber + T.offchainTriggerDelay)) b = true ↔
        t.blockNumber.toNat + T.offchainTriggerDelay.toNat ≤ b.toNat := by
      rw [shouldTriggerOffchain, decide_eq_true_iff, BitVec.le_def, BitVec.toNat_add,
        Nat.mod_eq_of_lt hfits]
    rw [if_pos hround, hnext]
    obtain ⟨hfirst, hpast⟩ := (h.trigger _).mp hround.1
    constructor
    · intro hle
      have hlt : t.blockNumber ≤ b := BitVec.le_def.mpr ((Nat.le_add_right _ _).trans hle)
      refine ⟨shouldTriggerOffchain_mono hlt hfirst, fun t' ht' hmem hcompletes => ?_⟩
      rcases List.mem_append.mp ht' with ht' | ht'
      · exact (hpast t' ht' ((hold t' ht').mp hmem) hcompletes).trans (BitVec.le_def.mp hlt)
      · rwa [List.mem_singleton.mp ht']
    · rintro ⟨-, hall⟩
      exact hall t (by simp) (hlast.mpr hround.1) hround.2
  case rounds =>
    intro t' ht'
    rcases List.mem_append.mp ht' with ht' | ht'
    · rw [hold t' ht', h.rounds t' ht', Turn.Due, Turn.Due]
      refine and_congr_right fun _ => ⟨fun hall t₀ ht₀ hlt hmem => ?_,
        fun hall t₀ ht₀ hlt hmem => ?_⟩
      · rcases List.mem_append.mp ht₀ with ht₀ | ht₀
        · exact hall t₀ ht₀ hlt ((hold t₀ ht₀).mp hmem)
        · rw [List.mem_singleton.mp ht₀] at hlt
          exact (BitVec.lt_irrefl _ (BitVec.lt_trans hlt (hlater t' ht'))).elim
      · exact hall t₀ (List.mem_append_left _ ht₀) hlt ((hold t₀ ht₀).mpr hmem)
    · obtain rfl := List.mem_singleton.mp ht'
      rw [hlast, h.trigger, Turn.Due]
      refine and_congr_right fun _ => ⟨fun hall t₀ ht₀ hlt hmem => ?_,
        fun hall t₀ ht₀ hmem => ?_⟩
      · rcases List.mem_append.mp ht₀ with ht₀ | ht₀
        · exact hall t₀ ht₀ ((hold t₀ ht₀).mp hmem)
        · rw [List.mem_singleton.mp ht₀] at hlt
          exact (BitVec.lt_irrefl _ hlt).elim
      · exact hall t₀ (List.mem_append_left _ ht₀) (hlater t₀ ht₀) ((hold t₀ ht₀).mpr hmem)

/-- When the workers of later and later blocks do not overlap, the round of a block is run
exactly when the block is due: the only rounds left out are those before the first trigger and
those less than the delay after a completed round. -/
theorem run_cadence {lock : Option ℕ} {now : ℕ}
    (hlock : ∀ deadline ∈ lock, deadline ≤ now + ocwLockDuration)
    (hsorted : turns.Pairwise fun t t' => t.blockNumber < t'.blockNumber)
    (hmillis : ∀ t ∈ turns, ocwLockDuration < t.millis)
    (hfits : ∀ t ∈ turns,
      t.blockNumber.toNat + T.offchainTriggerDelay.toNat < 2 ^ T.blockNumberBits) :
    ((start next lock now).run (turns.flatMap Turn.actions)).rounds.Sublist
        (turns.map Turn.blockNumber) ∧
      ∀ t ∈ turns,
        t.blockNumber ∈ ((start next lock now).run (turns.flatMap Turn.actions)).rounds ↔
          Turn.Due next turns ((start next lock now).run (turns.flatMap Turn.actions)).rounds
            t.blockNumber := by
  have hpaced : ((start next lock now).run (turns.flatMap Turn.actions)).Paced next turns := by
    induction turns using List.reverseRecOn with
    | nil => exact paced_start hlock
    | append_singleton turns t ih =>
        obtain ⟨hturns, -, hlater⟩ := List.pairwise_append.mp hsorted
        have hprev := ih hturns (fun t' ht' => hmillis t' (List.mem_append_left _ ht'))
          fun t' ht' => hfits t' (List.mem_append_left _ ht')
        have hstep := hprev.step (fun t' ht' => hlater t' ht' t (by simp)) (hmillis t (by simp))
          (hfits t (by simp))
        simpa [run] using hstep
  exact ⟨hpaced.sublist, hpaced.rounds⟩

/-! ## A block every six seconds -/

def sampleTurns : List (Turn (nodeRuntime Algo.Log2.rational)) :=
  [1, 2, 3, 4, 5].map fun b => ⟨6000, b, mockEnvironment _ 50000, ChainState.genesis _⟩

theorem run_cadence_sampleTurns :
    ((start .missing none 0).run (sampleTurns.flatMap Turn.actions)).rounds.Sublist
        (sampleTurns.map Turn.blockNumber) ∧
      ∀ t ∈ sampleTurns,
        t.blockNumber ∈ ((start .missing none 0).run (sampleTurns.flatMap Turn.actions)).rounds ↔
          Turn.Due .missing sampleTurns
            ((start .missing none 0).run (sampleTurns.flatMap Turn.actions)).rounds
            t.blockNumber :=
  run_cadence (by simp) (by decide) (by decide) (by decide)

example : ((start .missing none 0).run (sampleTurns.flatMap Turn.actions)).rounds = [1, 4] := by
  decide +kernel

end Node

end Aggregator
