import Aggregator.Library.Run
import Aggregator.Library.Throttle
import Aggregator.Model.Runtime
import Aggregator.Model.Worker
import Aggregator.Verification.LongestPaths.Logarithm
import Aggregator.Verification.Pallet.Dispatch

/-! # The delay between rounds

Workers check the trigger before they hold the lock. As long as each round starts with a
check that still holds, and after the earlier rounds have moved the trigger, the node
throttles its rounds. -/

namespace Aggregator

variable {T : Config}

/-- The worker has run its round and has not moved the trigger, or never will. -/
@[simp] def WorkerPhase.pending : WorkerPhase → Bool
  | .updated => true
  | .panicked => true
  | _ => false

theorem WorkerPhase.pending_afterRound (panicked : Option Panic) :
    (WorkerPhase.afterRound panicked).pending = true := by
  cases panicked <;> rfl

namespace Node

def pendingRounds (σ : Node T) : List T.BlockNumber :=
  σ.rounds.filter fun b => (σ.phase b).pending

/-- A round starts when its check still holds and no earlier round is pending, and moves the
trigger without overflow. -/
def Timely (σ : Node T) : NodeAction T → Prop
  | .worker b _ _ =>
      (σ.phase b = .locked →
        shouldTriggerOffchain σ.nextOffchainTrigger b = true ∧ σ.pendingRounds = []) ∧
      (σ.phase b = .updated → b.toNat + T.offchainTriggerDelay.toNat < 2 ^ T.blockNumberBits)
  | .elapse _ => True

instance (σ : Node T) : ∀ a, Decidable (σ.Timely a)
  | .worker b _ _ => inferInstanceAs (Decidable ((σ.phase b = .locked →
      shouldTriggerOffchain σ.nextOffchainTrigger b = true ∧ σ.pendingRounds = []) ∧
      (σ.phase b = .updated → b.toNat + T.offchainTriggerDelay.toNat < 2 ^ T.blockNumberBits)))
  | .elapse _ => isTrue trivial

/-! ## The node throttles its rounds -/

/-- The bound is the trigger, and the running task is the pending round. -/
structure Refines (σ : Node T) (τ : Throttle.State ℕ) : Prop where
  rounds : σ.rounds.map BitVec.toNat = τ.started
  bound : ∀ b, shouldTriggerOffchain σ.nextOffchainTrigger b = true → ∀ n ∈ τ.bound, n ≤ b.toNat
  pending : ∀ m, (σ.phase m).pending = true → m ∈ σ.rounds ∧ τ.running = some m.toNat
  running : ∀ n ∈ τ.running, ∃ m, m.toNat = n ∧ (σ.phase m).pending = true

variable {σ : Node T} {τ : Throttle.State ℕ}

theorem phase_enter (b m : T.BlockNumber) (phase : WorkerPhase) :
    (σ.enter b phase).phase m = if m = b then phase else σ.phase m :=
  Function.update_apply ..

theorem pending_enter {b : T.BlockNumber} {phase : WorkerPhase}
    (h : phase.pending = (σ.phase b).pending) (m : T.BlockNumber) :
    ((σ.enter b phase).phase m).pending = (σ.phase m).pending := by
  rw [phase_enter]
  split
  · rename_i hm
    rw [hm, h]
  · rfl

/-- A step that neither starts a round nor ends one. -/
theorem Refines.enter (h : σ.Refines τ) {b : T.BlockNumber} {phase : WorkerPhase}
    (hphase : phase.pending = (σ.phase b).pending) : (σ.enter b phase).Refines τ := by
  refine ⟨h.rounds, h.bound, ?_, ?_⟩
  · intro m hm
    exact h.pending m (pending_enter hphase m ▸ hm)
  · intro n hn
    obtain ⟨m, hm, hpending⟩ := h.running n hn
    exact ⟨m, hm, (pending_enter hphase m).trans hpending⟩

theorem Refines.setLock (h : σ.Refines τ) (ocwWorkerLock : Option ℕ) :
    { σ with ocwWorkerLock }.Refines τ :=
  ⟨h.rounds, h.bound, h.pending, h.running⟩

theorem Refines.elapse (h : σ.Refines τ) (now : ℕ) : { σ with now }.Refines τ :=
  ⟨h.rounds, h.bound, h.pending, h.running⟩

theorem Refines.startRound (h : σ.Refines τ) {b : T.BlockNumber} (phase : WorkerPhase)
    (hphase : phase.pending = true)
    (hcheck : shouldTriggerOffchain σ.nextOffchainTrigger b = true)
    (hnone : σ.pendingRounds = []) (after : ℕ → ℕ) :
    ∃ τ', Throttle.Step after τ τ' ∧
      ({ σ with rounds := σ.rounds ++ [b] }.enter b phase).Refines τ' := by
  have hfree : ∀ m, (σ.phase m).pending = false := fun m => by
    by_contra hm
    rw [Bool.not_eq_false] at hm
    exact List.filter_eq_nil_iff.mp hnone m (h.pending m hm).1 hm
  obtain ⟨bound, ended, running⟩ := τ
  obtain rfl : running = none := by
    by_contra hrunning
    obtain ⟨n, hn⟩ := Option.ne_none_iff_exists'.mp hrunning
    obtain ⟨m, -, hm⟩ := h.running n hn
    rw [hfree m] at hm
    cases hm
  refine ⟨_, .start (b := b.toNat) (h.bound b hcheck), ?_, h.bound, ?_, ?_⟩
  · have hrounds : σ.rounds.map BitVec.toNat = ended := by
      simpa [Throttle.State.started] using h.rounds
    simp [Throttle.State.started, Node.enter, hrounds]
  · intro m hm
    rw [phase_enter] at hm
    split at hm
    · rename_i heq
      subst heq
      exact ⟨List.mem_append_right _ (List.mem_singleton.mpr rfl), rfl⟩
    · rw [hfree m] at hm
      cases hm
  · intro n hn
    refine ⟨b, Option.some.inj hn, ?_⟩
    rw [phase_enter, if_pos rfl, hphase]

theorem Refines.moveTrigger (h : σ.Refines τ) {b nextTrigger : T.BlockNumber}
    (hpending : (σ.phase b).pending = true) (after : ℕ → ℕ)
    (hafter : after b.toNat = nextTrigger.toNat) :
    ∃ τ', Throttle.Step after τ τ' ∧
      ({ σ with nextOffchainTrigger := .value nextTrigger }.enter b .bumped).Refines τ' := by
  obtain ⟨bound, ended, running⟩ := τ
  obtain rfl : running = some b.toNat := (h.pending b hpending).2
  refine ⟨_, .finish, ?_, ?_, ?_, by simp⟩
  · simpa [Throttle.State.started, Node.enter] using h.rounds
  · intro b' hb' n hn
    have hle : nextTrigger ≤ b' := of_decide_eq_true hb'
    rw [← Option.some.inj hn, hafter]
    exact BitVec.le_def.mp hle
  · intro m hm
    rw [phase_enter] at hm
    split at hm
    · cases hm
    · rename_i hne
      have heq := Option.some.inj (h.pending m hm).2
      exact (hne (BitVec.eq_of_toNat_eq heq.symm)).elim

/-- A timely step of a worker starts a task, ends one, or changes none. -/
theorem Refines.worker (h : σ.Refines τ) {b : T.BlockNumber} {env : Environment T}
    {s : ChainState T} (htimely : σ.Timely (.worker b env s)) :
    ∃ τ', (τ' = τ ∨ Throttle.Step (· + T.offchainTriggerDelay.toNat) τ τ') ∧
      (σ.worker b env s).Refines τ' := by
  unfold Node.worker
  cases hphase : σ.phase b with
  | entered =>
      refine ⟨τ, .inl rfl, h.enter ?_⟩
      split <;> simp [hphase]
  | triggered =>
      refine ⟨τ, .inl rfl, ?_⟩
      dsimp only
      split
      · exact (h.setLock _).enter (by simp [hphase])
      · exact h.enter (by simp [hphase])
  | locked =>
      obtain ⟨hcheck, hnone⟩ := htimely.1 hphase
      obtain ⟨τ', hstep, href⟩ :=
        h.startRound _ (WorkerPhase.pending_afterRound _) hcheck hnone _
      exact ⟨τ', .inr hstep, href⟩
  | updated =>
      have hfits := htimely.2 hphase
      have hnext : b.toNat + T.offchainTriggerDelay.toNat = (b + T.offchainTriggerDelay).toNat := by
        rw [BitVec.toNat_add, Nat.mod_eq_of_lt hfits]
      simp only [Config.add_of_lt hfits]
      obtain ⟨τ', hstep, href⟩ := h.moveTrigger (by simp [hphase])
        (· + T.offchainTriggerDelay.toNat) hnext
      exact ⟨τ', .inr hstep, href⟩
  | bumped =>
      exact ⟨τ, .inl rfl, (h.setLock none).enter (by simp [hphase])⟩
  | returned => exact ⟨τ, .inl rfl, h⟩
  | panicked => exact ⟨τ, .inl rfl, h⟩

/-- The rounds of the node lie apart, with its trigger as the bound. -/
def Throttled (σ : Node T) : Prop :=
  ∃ τ, Throttle.Spaced (· + T.offchainTriggerDelay.toNat) τ ∧ σ.Refines τ

theorem throttled_start (next : Retrieved T.BlockNumber) (lock : Option ℕ) (now : ℕ) :
    (Node.start next lock now).Throttled := by
  cases next with
  | value v =>
      refine ⟨_, Throttle.spaced_init (some v.toNat), rfl, ?_,
        by simp [Node.start], by simp⟩
      intro b hb n hn
      have hle : v ≤ b := of_decide_eq_true hb
      rw [← Option.some.inj hn]
      exact BitVec.le_def.mp hle
  | missing =>
      exact ⟨_, Throttle.spaced_init none, rfl, by simp,
        by simp [Node.start], by simp⟩
  | undecodable =>
      exact ⟨_, Throttle.spaced_init none, rfl, by simp,
        by simp [Node.start], by simp⟩

theorem Throttled.step (h : σ.Throttled) {a : NodeAction T} (ha : σ.Timely a) :
    (σ.step a).Throttled := by
  obtain ⟨τ, hspaced, href⟩ := h
  cases a with
  | elapse millis => exact ⟨τ, hspaced, href.elapse _⟩
  | worker b env s =>
      obtain ⟨τ', rfl | hstep, href'⟩ := href.worker ha
      · exact ⟨τ', hspaced, href'⟩
      · exact ⟨τ', hspaced.step (fun n => Nat.le_add_right n _) hstep, href'⟩

theorem Throttled.spaced (h : σ.Throttled) {b b' : T.BlockNumber} (hb : b ∈ σ.rounds)
    (hb' : b' ∈ σ.rounds) (hlt : b < b') :
    b.toNat + T.offchainTriggerDelay.toNat ≤ b'.toNat := by
  obtain ⟨τ, hspaced, href⟩ := h
  have hstarted : ∀ {m}, m ∈ σ.rounds → m.toNat ∈ τ.started := fun hm =>
    href.rounds ▸ List.mem_map_of_mem hm
  exact hspaced.le_of_lt (fun n => Nat.le_add_right n _) (hstarted hb) (hstarted hb')
    (BitVec.lt_def.mp hlt)

/-! ## Runs -/

/-- In a run of timely steps, rounds lie apart by at least the delay. -/
theorem run_spaced (next : Retrieved T.BlockNumber) (lock : Option ℕ) (now : ℕ)
    {actions : List (NodeAction T)}
    (htimely : Run.Along Node.step Node.Timely (Node.start next lock now) actions) :
    ∀ b ∈ ((Node.start next lock now).run actions).rounds,
      ∀ b' ∈ ((Node.start next lock now).run actions).rounds, b < b' →
        b.toNat + T.offchainTriggerDelay.toNat ≤ b'.toNat := by
  have hlast : ((Node.start next lock now).run actions).Throttled :=
    (htimely.invariant (fun _ _ h ha => h.step ha) (throttled_start next lock now)).2
  intro b hb b' hb' hlt
  exact hlast.spaced hb hb' hlt

/-! ## Workers of the node's runtime -/

/-- The workers of the blocks do one step each, in this order. -/
def schedule (blocks : List (BitVec 32)) : List (NodeAction (nodeRuntime Algo.Log2.rational)) :=
  blocks.map fun b => .worker b (mockEnvironment _ 50000) (ChainState.genesis _)

theorem run_spaced_schedule :
    1 ∈ ((Node.start .missing none 0).run (schedule [1, 1, 1, 2, 1, 1, 4, 4, 4, 4])).rounds ∧
      4 ∈ ((Node.start .missing none 0).run (schedule [1, 1, 1, 2, 1, 1, 4, 4, 4, 4])).rounds ∧
      (1 : BitVec 32).toNat + (nodeRuntime Algo.Log2.rational).offchainTriggerDelay.toNat ≤
        (4 : BitVec 32).toNat := by
  have hfirst : 1 ∈ ((Node.start .missing none 0).run
      (schedule [1, 1, 1, 2, 1, 1, 4, 4, 4, 4])).rounds := by decide +kernel
  have hsecond : 4 ∈ ((Node.start .missing none 0).run
      (schedule [1, 1, 1, 2, 1, 1, 4, 4, 4, 4])).rounds := by decide +kernel
  exact ⟨hfirst, hsecond,
    run_spaced .missing none 0 (by decide +kernel) 1 hfirst 4 hsecond (by decide)⟩

/-- Two workers check the trigger before one of them moves it, and both run their rounds. -/
theorem run_schedule :
    ∃ b ∈ ((Node.start .missing none 0).run (schedule [1, 2, 1, 1, 1, 1, 2, 2])).rounds,
      ∃ b' ∈ ((Node.start .missing none 0).run (schedule [1, 2, 1, 1, 1, 1, 2, 2])).rounds,
        b < b' ∧ ¬ b.toNat + (nodeRuntime Algo.Log2.rational).offchainTriggerDelay.toNat ≤ b'.toNat :=
  ⟨1, by decide +kernel, 2, by decide +kernel, by decide, by decide⟩

end Node

end Aggregator
