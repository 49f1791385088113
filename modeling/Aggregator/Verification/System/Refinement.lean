import Aggregator.Verification.Network.Serializability
import Aggregator.Verification.Pallet.Authorization

/-! # The system refines the network

A worker may read an old block. Its round is moved to the moment when that block was the
newest one, where it changes nothing but what is in flight. -/

namespace Aggregator

variable {T : Config} {N : Type}

namespace Network

/-! ## An inserted round -/

/-- The second network has at least as much in flight. -/
structure Extends (σ τ : Network T) : Prop where
  chain : σ.chain = τ.chain
  applied : σ.applied = τ.applied
  inFlight : σ.inFlight ⊆ τ.inFlight

theorem Extends.step {σ τ : Network T} (h : Extends σ τ) (a : Action T) :
    Extends (σ.step a) (τ.step a) := by
  obtain ⟨hchain, happlied, hinFlight⟩ := h
  cases a with
  | advance =>
      dsimp only [Network.step]
      exact ⟨congrArg ChainState.advance hchain, happlied, hinFlight⟩
  | dispatch origin call =>
      dsimp only [Network.step, dispatch]
      rw [hchain]
      cases call.dispatch origin τ.chain with
      | ok chain => exact ⟨rfl, congrArg (· ++ call.submitted) happlied, hinFlight⟩
      | error fault => exact ⟨hchain, happlied, hinFlight⟩
  | round env blockNumber =>
      dsimp only [Network.step]
      rw [round_eq, round_eq, hchain]
      refine ⟨rfl, happlied, fun r hr => ?_⟩
      exact List.mem_append.mpr ((List.mem_append.mp hr).imp id fun hr => hinFlight hr)

theorem Extends.honest {σ τ : Network T} (h : Extends σ τ) {a : Action T} (ha : σ.Honest a) :
    τ.Honest a := by
  unfold Honest at ha ⊢
  split
  · exact fun payload hpayload => List.map_subset _ h.inFlight (ha payload hpayload)
  · trivial

theorem Extends.rounds_eq {σ τ : Network T} (h : Extends σ τ) (actions : List (Action T)) :
    σ.rounds actions = τ.rounds actions := by
  induction actions generalizing σ τ with
  | nil => rfl
  | cons a actions ih =>
      have hnext := ih (h.step a)
      cases a with
      | round env blockNumber =>
          simp only [rounds, h.chain]
          exact congrArg (List.cons _) hnext
      | dispatch origin call => exact hnext
      | advance => exact hnext

theorem extends_step_round (σ : Network T) (env : Environment T) (blockNumber : T.BlockNumber) :
    Extends σ (σ.step (.round env blockNumber)) := by
  dsimp only [Network.step]
  rw [round_eq]
  exact ⟨rfl, rfl, List.subset_append_right _ _⟩

theorem inFlight_subset_run (σ : Network T) (actions : List (Action T)) :
    σ.inFlight ⊆ (σ.run actions).inFlight := by
  induction actions generalizing σ with
  | nil => exact List.Subset.refl _
  | cons a actions ih =>
      refine List.Subset.trans ?_ (ih (σ.step a))
      cases a with
      | advance => exact List.Subset.refl _
      | round env blockNumber => exact (extends_step_round σ env blockNumber).inFlight
      | dispatch origin call =>
          dsimp only [Network.step, dispatch]
          split <;> exact List.Subset.refl _

theorem Extends.run {σ τ : Network T} (h : Extends σ τ) (actions : List (Action T)) :
    Extends (σ.run actions) (τ.run actions) := by
  induction actions generalizing σ τ with
  | nil => exact h
  | cons a actions ih => exact ih (h.step a)

section Insert

variable (σ : Network T) (pre post : List (Action T)) (env : Environment T)
  (blockNumber : T.BlockNumber)

theorem extends_insert :
    Extends (σ.run (pre ++ post)) (σ.run (pre ++ .round env blockNumber :: post)) := by
  rw [run_append, run_append]
  exact (extends_step_round _ env blockNumber).run post

theorem honest_insert (h : Run.Along step Honest σ (pre ++ post)) :
    Run.Along step Honest σ (pre ++ .round env blockNumber :: post) := by
  obtain ⟨hpre, hpost⟩ := Run.along_append.mp h
  refine Run.along_append.mpr ⟨hpre, trivial, ?_⟩
  exact (hpost.transfer (fun _ _ _ h ha => ⟨h.step _, h.honest ha⟩)
    (extends_step_round _ env blockNumber)).1

theorem mem_rounds_insert {mk : T.Signature → Round T}
    (h : mk ∈ σ.rounds (pre ++ .round env blockNumber :: post)) :
    mk ∈ σ.rounds (pre ++ post) ∨
      mk = fun signature => ⟨(σ.run pre).chain.monitoredPairs, env, blockNumber, signature⟩ := by
  rw [rounds_append] at h ⊢
  have hpost := (extends_step_round (σ.run pre) env blockNumber).rounds_eq post
  rcases List.mem_append.mp h with h | h
  · exact .inl (List.mem_append_left _ h)
  · rcases List.mem_cons.mp h with h | h
    · exact .inr h
    · exact .inl (List.mem_append_right _ (hpost ▸ h))

end Insert

end Network

namespace System

variable [DecidableEq N]

/-! ## The simulation -/

/-- Payloads that the validator accepts were sent by rounds. -/
def Honest (σ : System T N) : SystemAction T N → Prop
  | .block (.extrinsic (.unsigned call)) => (validateUnsigned σ.chain call).isOk = true →
      ∀ payload ∈ call.submitted, payload ∈ σ.pool.map InFlight.payload
  | _ => True

instance [DecidableEq T.Payload] (σ : System T N) : ∀ a, Decidable (σ.Honest a)
  | .block (.extrinsic (.unsigned call)) => inferInstanceAs
      (Decidable ((validateUnsigned σ.chain call).isOk = true →
        ∀ payload ∈ call.submitted, payload ∈ σ.pool.map InFlight.payload))
  | .block (.extrinsic (.root _)) => isTrue trivial
  | .block (.extrinsic (.signed _ _)) => isTrue trivial
  | .block .advance => isTrue trivial
  | .worker _ _ _ => isTrue trivial
  | .elapse _ _ => isTrue trivial

/-- A worker that held the lock has run the round on the state after its block. -/
def RanRound (start : System T N) (history : List (SystemAction T N)) (r : Round T) : Prop :=
  ∃ pre n post s, history = pre ++ .worker n r.blockNumber r.env :: post ∧
    ((start.run pre).nodes n).phase r.blockNumber = .locked ∧
    (start.run pre).imported r.blockNumber = some s ∧ r.monitoredPairs = s.monitoredPairs

theorem run_append_singleton (start : System T N) (history : List (SystemAction T N))
    (a : SystemAction T N) : start.run (history ++ [a]) = (start.run history).step a := by
  simp [run]

theorem RanRound.append {start : System T N} {history : List (SystemAction T N)} {r : Round T}
    (h : RanRound start history r) (a : SystemAction T N) : RanRound start (history ++ [a]) r := by
  obtain ⟨pre, n, post, s, rfl, hphase, himported, hpairs⟩ := h
  exact ⟨pre, n, post ++ [a], s, by simp, hphase, himported, hpairs⟩

/-- The actions lead the network where the history leads the system, with every round at the
block that its worker read. -/
structure Simulated (start : System T N) (history : List (SystemAction T N))
    (actions : List (Action T)) : Prop where
  chain : ((Network.genesis T).run actions).chain = (start.run history).chain
  applied : ((Network.genesis T).run actions).applied = (start.run history).applied
  pool : (start.run history).pool ⊆ ((Network.genesis T).run actions).inFlight
  imported : ∀ b s, (start.run history).imported b = some s →
    ∃ pre post, actions = pre ++ post ∧ ((Network.genesis T).run pre).chain = s
  rounds : ∀ mk ∈ (Network.genesis T).rounds actions, ∀ signature,
    RanRound start history (mk signature)
  honest : Run.Along step Honest start history →
    Run.Along Network.step Network.Honest (Network.genesis T) actions

variable {start : System T N} {history : List (SystemAction T N)} {actions : List (Action T)}

/-- A step that leaves everything but the nodes alone. -/
theorem Simulated.stutter (h : Simulated start history actions) {a : SystemAction T N}
    (hchain : ((start.run history).step a).chain = (start.run history).chain)
    (happlied : ((start.run history).step a).applied = (start.run history).applied)
    (hpool : ((start.run history).step a).pool = (start.run history).pool)
    (himported : ((start.run history).step a).imported = (start.run history).imported) :
    Simulated start (history ++ [a]) actions where
  chain := by rw [run_append_singleton, hchain, h.chain]
  applied := by rw [run_append_singleton, happlied, h.applied]
  pool := by
    rw [run_append_singleton, hpool]
    exact h.pool
  imported := by
    rw [run_append_singleton, himported]
    exact h.imported
  rounds mk hmk signature := (h.rounds mk hmk signature).append a
  honest hhonest := h.honest (Run.along_append.mp hhonest).1

/-- A step of the chain that is one of the network. -/
theorem Simulated.extend (h : Simulated start history actions) {a : SystemAction T N}
    {a' : Action T} (hround : ∀ σ : Network T, σ.rounds [a'] = [])
    (hinFlight : (((Network.genesis T).run actions).step a').inFlight =
      ((Network.genesis T).run actions).inFlight)
    (hchain : (((Network.genesis T).run actions).step a').chain =
      ((start.run history).step a).chain)
    (happlied : (((Network.genesis T).run actions).step a').applied =
      ((start.run history).step a).applied)
    (hpool : ((start.run history).step a).pool = (start.run history).pool)
    (himported : ∀ b s, ((start.run history).step a).imported b = some s →
      (start.run history).imported b = some s ∨ s = (start.run history).chain)
    (hhonest : (start.run history).Honest a → ((Network.genesis T).run actions).Honest a') :
    Simulated start (history ++ [a]) (actions ++ [a']) where
  chain := by
    rw [run_append_singleton, Network.run_append]
    exact hchain
  applied := by
    rw [run_append_singleton, Network.run_append]
    exact happlied
  pool := by
    rw [run_append_singleton, hpool, Network.run_append]
    exact List.Subset.trans h.pool (hinFlight ▸ List.Subset.refl _)
  imported := by
    intro b s hs
    rw [run_append_singleton] at hs
    rcases himported b s hs with hs | rfl
    · obtain ⟨pre, post, rfl, hpre⟩ := h.imported b s hs
      exact ⟨pre, post ++ [a'], List.append_assoc .., hpre⟩
    · exact ⟨actions, [a'], rfl, h.chain⟩
  rounds mk hmk signature := by
    rw [Network.rounds_append, hround, List.append_nil] at hmk
    exact (h.rounds mk hmk signature).append a
  honest halong := by
    obtain ⟨hpre, hlast, -⟩ := Run.along_append.mp halong
    exact Run.along_append.mpr ⟨h.honest hpre, hhonest hlast, trivial⟩

/-- The round of a worker goes to where its block was the newest one. -/
theorem Simulated.insert (h : Simulated start history actions) {n : N} {b : T.BlockNumber}
    {env : Environment T} {s : ChainState T} (hs : (start.run history).imported b = some s)
    (hphase : ((start.run history).nodes n).phase b = .locked) :
    ∃ actions', Simulated start (history ++ [.worker n b env]) actions' := by
  obtain ⟨pre, post, rfl, rfl⟩ := h.imported b s hs
  have hext := Network.extends_insert (Network.genesis T) pre post env b
  have hstep : start.run (history ++ [.worker n b env]) = { start.run history with
      nodes := Function.update (start.run history).nodes n
        (((start.run history).nodes n).worker b env ((Network.genesis T).run pre).chain)
      pool := sentBy env ((Network.genesis T).run pre).chain b ++ (start.run history).pool } := by
    rw [run_append_singleton]
    simp only [step, worker, hs, hphase, if_pos]
  refine ⟨pre ++ .round env b :: post, ?_, ?_, ?_, ?_, ?_, ?_⟩
  · rw [hstep, ← hext.chain, h.chain]
  · rw [hstep, ← hext.applied, h.applied]
  · rw [hstep]
    refine List.append_subset.mpr ⟨?_, List.Subset.trans h.pool hext.inFlight⟩
    rw [Network.run_append]
    refine List.Subset.trans ?_ (Network.inFlight_subset_run _ post)
    change _ ⊆ (Network.round _ env b).inFlight
    rw [Network.round_eq]
    exact List.subset_append_left _ _
  · intro b' s' hs'
    rw [hstep] at hs'
    obtain ⟨pre', post', hsplit, rfl⟩ := h.imported b' s' hs'
    rcases List.append_eq_append_iff.mp hsplit with ⟨mid, rfl, rfl⟩ | ⟨mid, rfl, rfl⟩
    · refine ⟨pre ++ .round env b :: mid, post', by simp, ?_⟩
      exact (Network.extends_insert _ pre mid env b).chain.symm
    · exact ⟨pre', mid ++ .round env b :: post, by simp, rfl⟩
  · intro mk hmk signature
    rcases Network.mem_rounds_insert _ pre post env b hmk with hmk | rfl
    · exact (h.rounds mk hmk signature).append _
    · exact ⟨history, n, [], _, rfl, hphase, hs, rfl⟩
  · intro halong
    exact Network.honest_insert _ pre post env b (h.honest (Run.along_append.mp halong).1)

theorem Simulated.advance (h : Simulated start history actions) :
    Simulated start (history ++ [.block .advance]) (actions ++ [.advance]) := by
  refine h.extend (fun _ => rfl) rfl (congrArg ChainState.advance h.chain) h.applied rfl ?_
    fun _ => trivial
  intro b s hs
  simp only [step, block, Function.update_apply] at hs
  split at hs
  · exact .inr (Option.some.inj hs).symm
  · exact .inl hs

theorem Simulated.extrinsic (h : Simulated start history actions) {x : Extrinsic T}
    {s : ChainState T} (hx : x.execute (start.run history).chain = some s) :
    Simulated start (history ++ [.block (.extrinsic x)])
      (actions ++ [.dispatch x.origin x.call]) := by
  have hok := Extrinsic.dispatch_call hx
  rw [← h.chain] at hok
  have hnext : ((Network.genesis T).run actions).step (.dispatch x.origin x.call) =
      { (Network.genesis T).run actions with
        chain := s
        applied := ((Network.genesis T).run actions).applied ++ x.call.submitted } := by
    simp only [Network.step, Network.dispatch, hok]
  have hstep : (start.run history).step (.block (.extrinsic x)) = { start.run history with
      chain := s
      applied := (start.run history).applied ++ x.call.submitted } := by
    simp [step, block, BlockStep.apply, Extrinsic.submitted, hx]
  refine h.extend (fun _ => rfl) (by rw [hnext]) (by rw [hnext, hstep]) ?_ (by rw [hstep]) ?_ ?_
  · rw [hnext, hstep, h.applied]
  · rw [hstep]
    exact fun b s hs => .inl hs
  · intro hhonest
    cases x with
    | root call => trivial
    | signed who call => trivial
    | unsigned call =>
        intro payload hpayload
        refine List.map_subset _ h.pool (hhonest ?_ payload hpayload)
        dsimp only [Extrinsic.execute] at hx
        split at hx
        · rename_i v hv
          rw [hv]
          rfl
        · cases hx

theorem exists_simulated (nodes : N → Retrieved T.BlockNumber × Option ℕ × ℕ)
    (history : List (SystemAction T N)) : ∃ actions, Simulated (genesis nodes) history actions := by
  induction history using List.reverseRecOn with
  | nil =>
      refine ⟨[], rfl, rfl, List.Subset.refl _, ?_, ?_, fun _ => trivial⟩
      · exact fun b s hs => nomatch hs
      · exact fun mk hmk => nomatch hmk
  | append_singleton history a ih =>
      obtain ⟨actions, h⟩ := ih
      cases a with
      | elapse n millis => exact ⟨actions, h.stutter rfl rfl rfl rfl⟩
      | block step =>
          cases step with
          | advance => exact ⟨_, h.advance⟩
          | extrinsic x =>
              cases hx : x.execute ((genesis nodes).run history).chain with
              | some s => exact ⟨_, h.extrinsic hx⟩
              | none =>
                  refine ⟨actions, h.stutter ?_ ?_ rfl rfl⟩
                  · simp [step, block, BlockStep.apply, hx]
                  · simp [step, block, Extrinsic.submitted, hx]
      | worker n b env =>
          cases hs : ((genesis nodes).run history).imported b with
          | none =>
              refine ⟨actions, h.stutter ?_ ?_ ?_ ?_⟩ <;> simp [step, worker, hs]
          | some s =>
              by_cases hphase : (((genesis nodes).run history).nodes n).phase b = .locked
              · exact h.insert hs hphase
              · refine ⟨actions, h.stutter ?_ ?_ ?_ ?_⟩ <;> simp [step, worker, hs, hphase]

/-! ## One node -/

/-- What an action of the system does on a node. -/
def nodeAction (σ : System T N) (n : N) : SystemAction T N → List (NodeAction T)
  | .block _ => []
  | .worker m b env =>
      if m = n then (σ.imported b).toList.map fun s => .worker b env s else []
  | .elapse m millis => if m = n then [.elapse millis] else []

def nodeActions (σ : System T N) (n : N) : List (SystemAction T N) → List (NodeAction T)
  | [] => []
  | a :: history => σ.nodeAction n a ++ (σ.step a).nodeActions n history

theorem nodes_step (σ : System T N) (n : N) (a : SystemAction T N) :
    (σ.step a).nodes n = (σ.nodes n).run (σ.nodeAction n a) := by
  cases a with
  | block step => cases step <;> rfl
  | elapse m millis =>
      simp only [step, nodeAction, Function.update_apply]
      by_cases h : m = n
      · subst h
        rw [if_pos rfl, if_pos rfl]
        rfl
      · rw [if_neg h, if_neg (Ne.symm h)]
        rfl
  | worker m b env =>
      simp only [step, worker, nodeAction]
      cases hs : σ.imported b with
      | none => simp [Node.run]
      | some s =>
          simp only [Function.update_apply]
          by_cases h : m = n
          · subst h
            rw [if_pos rfl, if_pos rfl]
            rfl
          · rw [if_neg h, if_neg (Ne.symm h)]
            rfl

theorem nodes_run (σ : System T N) (n : N) (history : List (SystemAction T N)) :
    (σ.run history).nodes n = (σ.nodes n).run (σ.nodeActions n history) := by
  induction history generalizing σ with
  | nil => rfl
  | cons a history ih =>
      change ((σ.step a).run history).nodes n = _
      rw [ih, nodes_step, nodeActions]
      exact (List.foldl_append ..).symm

/-- Every run of the system is one of the network, in which rounds read the newest block and
payloads wait longer, and on each node a run of its workers. -/
theorem run_refines (nodes : N → Retrieved T.BlockNumber × Option ℕ × ℕ)
    (history : List (SystemAction T N)) :
    (∃ actions : List (Action T),
      ((Network.genesis T).run actions).chain = ((genesis nodes).run history).chain ∧
      ((Network.genesis T).run actions).applied = ((genesis nodes).run history).applied ∧
      ((genesis nodes).run history).pool ⊆ ((Network.genesis T).run actions).inFlight ∧
      ∀ mk ∈ (Network.genesis T).rounds actions, ∀ signature,
        RanRound (genesis nodes) history (mk signature)) ∧
    ∀ n, ((genesis nodes).run history).nodes n =
      (Node.start (nodes n).1 (nodes n).2.1 (nodes n).2.2).run
        ((genesis nodes).nodeActions n history) := by
  obtain ⟨actions, h⟩ := exists_simulated nodes history
  exact ⟨⟨actions, h.chain, h.applied, h.pool, h.rounds⟩, fun n => nodes_run _ n history⟩

end System

end Aggregator
