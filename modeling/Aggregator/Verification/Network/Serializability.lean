import Aggregator.Library.Run
import Aggregator.Model.System
import Aggregator.Verification.Network
import Aggregator.Verification.OffchainWorker.SerialRounds

/-! # Concurrent rounds are serial rounds

Where only payloads of rounds are submitted, the stored best paths are those of a run of
rounds one after the other, in the order in which they read the chain. -/

namespace Aggregator

variable {T : Config}

/-! ## What a round and a submission depend on -/

theorem sentBy_eq_of_mem {env : Environment T} {s : ChainState T} {blockNumber : T.BlockNumber}
    {r : InFlight T} (h : r ∈ sentBy env s blockNumber) : sentBy env s blockNumber = [r] := by
  unfold sentBy at h ⊢
  split
  · rename_i hcalc hround
    rw [hcalc, hround] at h
    rw [List.mem_singleton.mp h]
  · rename_i hnone
    split at h
    · rename_i hcalc hround
      exact (hnone _ _ hcalc hround).elim
    · cases h

/-- The stored part of the state that submissions write and rounds read. -/
structure SameStore (s s' : ChainState T) : Prop where
  bestPaths : s.bestPaths = s'.bestPaths
  nonce : s.unsignedTxNonce = s'.unsignedTxNonce

theorem SameStore.fetchPricesAndUpdateBestPaths_eq {s s' : ChainState T} (h : SameStore s s')
    (env : Environment T) (blockNumber : T.BlockNumber)
    (hpairs : s.monitoredPairs = s'.monitoredPairs) :
    fetchPricesAndUpdateBestPaths env s blockNumber =
      fetchPricesAndUpdateBestPaths env s' blockNumber := by
  unfold fetchPricesAndUpdateBestPaths fetchedPairs
  rw [h.bestPaths, h.nonce, hpairs]

theorem SameStore.sentBy_eq {s s' : ChainState T} (h : SameStore s s') (env : Environment T)
    (blockNumber : T.BlockNumber) (hpairs : s.monitoredPairs = s'.monitoredPairs) :
    sentBy env s blockNumber = sentBy env s' blockNumber := by
  unfold sentBy
  rw [h.fetchPricesAndUpdateBestPaths_eq env blockNumber hpairs, h.bestPaths]
  unfold fetchedPairs
  rw [hpairs]

theorem SameStore.sent_eq {s s' : ChainState T} (h : SameStore s s') {env : Environment T}
    {blockNumber : T.BlockNumber} {r : InFlight T} (hr : r ∈ sentBy env s blockNumber)
    (signature : T.Signature) :
    (Round.mk s.monitoredPairs env blockNumber signature).sent s' = [r.payload] := by
  have hread : SameStore ((Round.mk s.monitoredPairs env blockNumber signature).read s') s :=
    ⟨h.bestPaths.symm, h.nonce.symm⟩
  unfold Round.sent
  rw [hread.sentBy_eq env blockNumber rfl, sentBy_eq_of_mem hr]
  rfl

theorem SameStore.exists_submit {s s' s₁ : ChainState T} (h : SameStore s s') {payload : T.Payload}
    {signature : T.Signature} (hok : ocwSubmitBestPathsChanges .none payload signature s = .ok s₁)
    (signature' : T.Signature) :
    ∃ s₁', ocwSubmitBestPathsChanges .none payload signature' s' = .ok s₁' ∧
      SameStore s₁ s₁' := by
  unfold ocwSubmitBestPathsChanges at hok ⊢
  obtain ⟨⟨⟩, horigin, hok⟩ := Exec.bind_eq_ok_iff.mp hok
  obtain ⟨⟨⟩, hnonce, hok⟩ := Exec.bind_eq_ok_iff.mp hok
  obtain ⟨⟨bestPaths, entries⟩, hfold, hok⟩ := Exec.bind_eq_ok_iff.mp hok
  obtain ⟨nonce, hadd, hok⟩ := Exec.bind_eq_ok_iff.mp hok
  simp only [horigin, Exec.ok_bind, ← h.bestPaths, ← h.nonce, hnonce, hfold, hadd]
  refine ⟨_, rfl, ?_⟩
  cases entries with
  | nil =>
      cases hok
      exact ⟨rfl, rfl⟩
  | cons entry entries =>
      cases hok
      exact ⟨rfl, rfl⟩

/-- A round that reads what another one has read sends and stores the same. -/
theorem SameStore.exists_roundAndApply {s₀ s s' s₁ : ChainState T} {env : Environment T}
    {blockNumber : T.BlockNumber} {r : InFlight T} (hr : r ∈ sentBy env s₀ blockNumber)
    (h₀ : SameStore s₀ s) (h : SameStore s s') {signature : T.Signature}
    (hok : ocwSubmitBestPathsChanges .none r.payload signature s' = .ok s₁) :
    ∃ s₂, roundAndApply env { s with monitoredPairs := s₀.monitoredPairs } blockNumber signature =
      some (r.newBestPaths, s₂) ∧ SameStore s₁ s₂ := by
  obtain ⟨hcalc, hround, -⟩ := mem_sentBy_iff.mp hr
  let read : ChainState T := { s with monitoredPairs := s₀.monitoredPairs }
  have hread : SameStore s₀ read := ⟨h₀.bestPaths, h₀.nonce⟩
  have hsubmitted : SameStore s' read := ⟨h.bestPaths.symm, h.nonce.symm⟩
  obtain ⟨s₂, hsubmit, hsame⟩ := hsubmitted.exists_submit hok signature
  have hcalc' : T.bestPathCalculator (fetchedPairs env read) = .ok r.newBestPaths := hcalc
  rw [hread.fetchPricesAndUpdateBestPaths_eq env blockNumber rfl] at hround
  exact ⟨s₂, roundAndApply_eq_some_iff.mpr ⟨hcalc', r.payload, hround, hsubmit⟩, hsame⟩

/-! ## The rounds of a run -/

/-- The round, up to the signature of its payload. -/
def Round.unsigned (r : Round T) : T.Signature → Round T := fun signature => { r with signature }

namespace Network

/-- The rounds that the actions run, with the pairs monitored when they read the chain. -/
def rounds (σ : Network T) : List (Action T) → List (T.Signature → Round T)
  | [] => []
  | .round env blockNumber :: actions =>
      (fun signature => ⟨σ.chain.monitoredPairs, env, blockNumber, signature⟩) ::
        rounds (σ.step (.round env blockNumber)) actions
  | a :: actions => rounds (σ.step a) actions

theorem rounds_append (σ : Network T) (as bs : List (Action T)) :
    σ.rounds (as ++ bs) = σ.rounds as ++ (σ.run as).rounds bs := by
  induction as generalizing σ with
  | nil => rfl
  | cons a as ih =>
      cases a with
      | round env blockNumber =>
          simp only [List.cons_append, rounds, ih]
          rfl
      | dispatch origin call => exact ih _
      | advance => exact ih _

theorem run_append (σ : Network T) (as bs : List (Action T)) :
    σ.run (as ++ bs) = (σ.run as).run bs :=
  List.foldl_append ..

theorem round_eq (σ : Network T) (env : Environment T) (blockNumber : T.BlockNumber) :
    σ.round env blockNumber =
      { σ with inFlight := sentBy env σ.chain blockNumber ++ σ.inFlight } := by
  unfold round sentBy
  cases T.bestPathCalculator (fetchedPairs env σ.chain) with
  | error fault => rfl
  | ok newBestPaths =>
      cases fetchPricesAndUpdateBestPaths env σ.chain blockNumber with
      | error fault => rfl
      | ok sent => cases sent <;> rfl

/-- Only payloads that rounds have sent are submitted. -/
def Honest (σ : Network T) : Action T → Prop
  | .dispatch .none call => ∀ payload ∈ call.submitted, payload ∈ σ.inFlight.map InFlight.payload
  | _ => True

instance [DecidableEq T.Payload] (σ : Network T) : ∀ a, Decidable (σ.Honest a)
  | .dispatch .none call => inferInstanceAs
      (Decidable (∀ payload ∈ call.submitted, payload ∈ σ.inFlight.map InFlight.payload))
  | .dispatch .root _ => isTrue trivial
  | .dispatch (.signed _) _ => isTrue trivial
  | .round _ _ => isTrue trivial
  | .advance => isTrue trivial

/-- What is in flight was sent by a round of the run. -/
theorem exists_round_of_mem_inFlight {actions : List (Action T)} {r : InFlight T}
    (hr : r ∈ ((genesis T).run actions).inFlight) :
    ∃ pre env blockNumber post, actions = pre ++ .round env blockNumber :: post ∧
      r ∈ sentBy env ((genesis T).run pre).chain blockNumber := by
  induction actions using List.reverseRecOn with
  | nil => cases hr
  | append_singleton actions a ih =>
      have hold : r ∈ ((genesis T).run actions).inFlight →
          ∃ pre env blockNumber post, actions ++ [a] = pre ++ .round env blockNumber :: post ∧
            r ∈ sentBy env ((genesis T).run pre).chain blockNumber := by
        intro hr
        obtain ⟨pre, env, blockNumber, post, rfl, hsent⟩ := ih hr
        exact ⟨pre, env, blockNumber, post ++ [a], by simp, hsent⟩
      rw [run_append] at hr
      cases a with
      | advance => exact hold hr
      | dispatch origin call =>
          dsimp only [run, List.foldl, step, dispatch] at hr
          split at hr <;> exact hold hr
      | round env blockNumber =>
          change r ∈ (round _ env blockNumber).inFlight at hr
          rw [round_eq] at hr
          rcases List.mem_append.mp hr with hsent | hr
          · exact ⟨actions, env, blockNumber, [], rfl, hsent⟩
          · exact hold hr

theorem versioned_applied : Optimistic.Versioned (fun σ τ : Network T => ∃ a, τ = σ.step a)
    (fun σ => σ.applied.length) (fun σ => σ.applied) := by
  rintro σ - ⟨a, rfl⟩
  rcases step_cases σ a with ⟨-, -, happlied⟩ | ⟨payload, -, -, -, -, -, happlied⟩
  · exact .inl ⟨congrArg List.length happlied, happlied⟩
  · right
    dsimp only
    rw [happlied, List.length_append]
    exact Nat.lt_add_one _

/-- While the expected nonce is the same, so are the best paths. -/
theorem sameStore_run {pre post : List (Action T)}
    (hcount : ((genesis T).run (pre ++ post)).applied.length < 2 ^ 64)
    (hnonce : ((genesis T).run (pre ++ post)).chain.unsignedTxNonce =
      ((genesis T).run pre).chain.unsignedTxNonce) :
    ((genesis T).run (pre ++ post)).applied = ((genesis T).run pre).applied ∧
      SameStore ((genesis T).run pre).chain ((genesis T).run (pre ++ post)).chain := by
  have hrun : Relation.ReflTransGen (fun σ τ : Network T => ∃ a, τ = σ.step a)
      ((genesis T).run pre) ((genesis T).run (pre ++ post)) := by
    rw [run_append]
    exact reflTransGen_run _ post
  have hle := versioned.version_le hrun
  have heq : BitVec.ofNat 64 ((genesis T).run (pre ++ post)).applied.length =
      BitVec.ofNat 64 ((genesis T).run pre).applied.length := by
    rw [← (reachable_run _).inOrder.expected, ← (reachable_run _).inOrder.expected, hnonce]
  have hversion := eq_of_ofNat_eq hcount (hle.trans_lt hcount) heq
  exact ⟨versioned_applied.value_eq hrun hversion, (versioned.value_eq hrun hversion).symm,
    hnonce.symm⟩

/-! ## Strict serializability -/

/-- The rounds, one after the other, store what the run has stored. -/
structure Serializes (actions : List (Action T)) (serial : List (Round T)) : Prop where
  order : (serial.map Round.unsigned).Sublist ((genesis T).rounds actions)
  sent : (ChainState.genesis T).sentInRounds serial = ((genesis T).run actions).applied
  succeed : Run.Along (fun s r => r.apply s) Round.Succeeds (ChainState.genesis T) serial
  store : SameStore ((ChainState.genesis T).runRounds serial) ((genesis T).run actions).chain

theorem Serializes.append {actions : List (Action T)} {serial : List (Round T)} {a : Action T}
    (h : Serializes actions serial)
    (hbest : (((genesis T).run actions).step a).chain.bestPaths =
      ((genesis T).run actions).chain.bestPaths)
    (hnonce : (((genesis T).run actions).step a).chain.unsignedTxNonce =
      ((genesis T).run actions).chain.unsignedTxNonce)
    (happlied : (((genesis T).run actions).step a).applied =
      ((genesis T).run actions).applied) :
    Serializes (actions ++ [a]) serial := by
  constructor
  · rw [rounds_append]
    exact h.order.trans (List.sublist_append_left _ _)
  · rw [run_append, h.sent]
    exact happlied.symm
  · exact h.succeed
  · rw [run_append]
    exact ⟨h.store.bestPaths.trans hbest.symm, h.store.nonce.trans hnonce.symm⟩

/-- A submission that is recorded has succeeded. -/
theorem submit_eq_ok {σ : Network T} {payload : T.Payload} {signature : T.Signature}
    (happlied : (σ.step (.dispatch .none (.ocwSubmitBestPathsChanges payload signature))).applied =
      σ.applied ++ [payload]) :
    ocwSubmitBestPathsChanges .none payload signature σ.chain =
      .ok (σ.step (.dispatch .none (.ocwSubmitBestPathsChanges payload signature))).chain := by
  dsimp only [step, dispatch, Call.dispatch] at happlied ⊢
  cases hok : ocwSubmitBestPathsChanges .none payload signature σ.chain with
  | ok chain => rfl
  | error fault =>
      rw [hok] at happlied
      exact absurd happlied.symm (by simp)

/-- The round whose payload is applied comes last. It read the chain after all rounds that
were applied before. -/
theorem Serializes.submit {pre post : List (Action T)} {serial : List (Round T)}
    {env : Environment T} {blockNumber : T.BlockNumber} {r : InFlight T} {signature : T.Signature}
    (h : Serializes pre serial) (hsent : r ∈ sentBy env ((genesis T).run pre).chain blockNumber)
    (hexpected : ((genesis T).run (pre ++ .round env blockNumber :: post)).chain.unsignedTxNonce =
      r.payload.nonce)
    (hcount : ((genesis T).run (pre ++ .round env blockNumber :: post)).applied.length < 2 ^ 64)
    (happlied : ((genesis T).run (pre ++ .round env blockNumber :: post ++
        [.dispatch .none (.ocwSubmitBestPathsChanges r.payload signature)])).applied =
      ((genesis T).run (pre ++ .round env blockNumber :: post)).applied ++ [r.payload]) :
    Serializes (pre ++ .round env blockNumber :: post ++
        [.dispatch .none (.ocwSubmitBestPathsChanges r.payload signature)])
      (serial ++ [⟨((genesis T).run pre).chain.monitoredPairs, env, blockNumber, signature⟩]) := by
  obtain ⟨-, hround, -⟩ := mem_sentBy_iff.mp hsent
  obtain ⟨-, -, -, hread⟩ := fetchPricesAndUpdateBestPaths_eq_ok hround
  obtain ⟨hold, hsame⟩ := sameStore_run hcount (hexpected.trans hread)
  rw [run_append] at happlied
  have hserial : SameStore ((genesis T).run pre).chain ((ChainState.genesis T).runRounds serial) :=
    ⟨h.store.bestPaths.symm, h.store.nonce.symm⟩
  obtain ⟨s₂, hboth, hstore⟩ := SameStore.exists_roundAndApply hsent hserial
    ⟨h.store.bestPaths.trans hsame.bestPaths, h.store.nonce.trans hsame.nonce⟩
    (submit_eq_ok happlied)
  constructor
  · rw [rounds_append, rounds_append, List.map_append]
    refine List.Sublist.trans ?_ (List.sublist_append_left _ _)
    exact h.order.append (List.Sublist.cons_cons _ (List.nil_sublist _))
  · rw [run_append, ChainState.sentInRounds_append_singleton, h.sent, happlied, hold,
      hserial.sent_eq hsent signature]
  · refine Run.along_append.mpr ⟨h.succeed, ?_, trivial⟩
    exact Option.isSome_iff_exists.mpr ⟨_, hboth⟩
  · rw [run_append, ChainState.runRounds_append_singleton]
    unfold Round.apply Round.read
    dsimp only
    rw [hboth]
    exact ⟨hstore.bestPaths.symm, hstore.nonce.symm⟩

/-- Every run is serialized in the order in which its rounds read the chain. -/
theorem exists_serializes {actions : List (Action T)}
    (hhonest : Run.Along step Honest (genesis T) actions)
    (hcount : ((genesis T).run actions).applied.length < 2 ^ 64) :
    ∃ serial, Serializes actions serial := by
  induction hlen : actions.length using Nat.strongRecOn generalizing actions with
  | ind len ih =>
      cases actions using List.reverseRecOn with
      | nil => exact ⟨[], List.nil_sublist _, rfl, trivial, rfl, rfl⟩
      | append_singleton actions a =>
          obtain ⟨halong, hlast, -⟩ := Run.along_append.mp hhonest
          rw [run_append] at hcount
          have hstep := step_cases ((genesis T).run actions) a
          rcases hstep with ⟨hbest, hnonce, happlied⟩ | ⟨payload, signature, rfl, hexpected,
            hbest, hnonce, happlied⟩
          · have hcount' : ((genesis T).run actions).applied.length < 2 ^ 64 := by
              rw [← happlied]
              exact hcount
            obtain ⟨serial, hserial⟩ := ih _ (by simp [← hlen]) halong hcount' rfl
            exact ⟨serial, hserial.append hbest hnonce happlied⟩
          · have hcount' : ((genesis T).run actions).applied.length < 2 ^ 64 := by
              have hlt : (((genesis T).run actions).applied ++ [payload]).length < 2 ^ 64 := by
                rw [← happlied]
                exact hcount
              rw [List.length_append] at hlt
              exact (Nat.le_add_right _ _).trans_lt hlt
            obtain ⟨r, hr, rfl⟩ := List.mem_map.mp (hlast payload (List.mem_singleton.mpr rfl))
            obtain ⟨pre, env, blockNumber, post, rfl, hsent⟩ := exists_round_of_mem_inFlight hr
            obtain ⟨hpre, -⟩ := Run.along_append.mp halong
            have hle := versioned.version_le
              (reflTransGen_run ((genesis T).run pre) (.round env blockNumber :: post))
            rw [← run_append] at hle
            obtain ⟨serial, hserial⟩ := ih pre.length (by simp [← hlen]) hpre
              (hle.trans_lt hcount') rfl
            refine ⟨_, hserial.submit hsent hexpected hcount' ?_⟩
            rw [run_append]
            exact happlied

/-- Where only payloads of rounds are submitted, the best paths and the nonce are those of a
serial run of rounds of the run, in the order in which they read the chain, which send and
apply the same payloads. -/
theorem run_strictlySerializable {actions : List (Action T)}
    (hhonest : Run.Along step Honest (genesis T) actions)
    (hcount : ((genesis T).run actions).applied.length < 2 ^ 64) :
    ∃ serial : List (Round T),
      (serial.map Round.unsigned).Sublist ((genesis T).rounds actions) ∧
      (ChainState.genesis T).sentInRounds serial = ((genesis T).run actions).applied ∧
      Run.Along (fun s r => r.apply s) Round.Succeeds (ChainState.genesis T) serial ∧
      ((ChainState.genesis T).runRounds serial).bestPaths =
        ((genesis T).run actions).chain.bestPaths ∧
      ((ChainState.genesis T).runRounds serial).unsignedTxNonce =
        ((genesis T).run actions).chain.unsignedTxNonce := by
  obtain ⟨serial, h⟩ := exists_serializes hhonest hcount
  exact ⟨serial, h.order, h.sent, h.succeed, h.store.bestPaths, h.store.nonce⟩

theorem run_strictlySerializable_sampleRun :
    ∃ serial : List (Round (nodeRuntime Algo.Log2.rational)),
      (serial.map Round.unsigned).Sublist ((genesis _).rounds sampleRun) ∧
      (ChainState.genesis _).sentInRounds serial = ((genesis _).run sampleRun).applied ∧
      Run.Along (fun s r => r.apply s) Round.Succeeds (ChainState.genesis _) serial ∧
      ((ChainState.genesis _).runRounds serial).bestPaths =
        ((genesis _).run sampleRun).chain.bestPaths ∧
      ((ChainState.genesis _).runRounds serial).unsignedTxNonce =
        ((genesis _).run sampleRun).chain.unsignedTxNonce :=
  run_strictlySerializable (by decide +kernel) (by decide +kernel)

end Network

end Aggregator
