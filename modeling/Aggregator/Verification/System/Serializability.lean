import Aggregator.Verification.System.Refinement

/-! # Workers of many nodes store what serial rounds store

What is proved about rounds one after the other holds at every moment of a run in which the
whitelisted keys sign only payloads of rounds. -/

namespace Aggregator

open FloydWarshallCalculator

variable {T : Config} {N : Type} [DecidableEq N]

namespace System

variable {nodes : N → Retrieved T.BlockNumber × Option ℕ × ℕ} {history : List (SystemAction T N)}

/-- The rounds are of the history, succeed one after the other, and store what is stored. -/
structure Serializes (start : System T N) (history : List (SystemAction T N))
    (serial : List (Round T)) : Prop where
  ran : ∀ r ∈ serial, RanRound start history r
  sent : (ChainState.genesis T).sentInRounds serial = (start.run history).applied
  succeed : Run.Along (fun s r => r.apply s) Round.Succeeds (ChainState.genesis T) serial
  store : SameStore ((ChainState.genesis T).runRounds serial) (start.run history).chain

theorem exists_serializes (hhonest : Run.Along step Honest (genesis nodes) history)
    (hcount : ((genesis nodes).run history).applied.length < 2 ^ 64) :
    ∃ serial, Serializes (genesis nodes) history serial := by
  obtain ⟨actions, h⟩ := exists_simulated nodes history
  rw [← h.applied] at hcount
  obtain ⟨serial, hserial⟩ := Network.exists_serializes (h.honest hhonest) hcount
  refine ⟨serial, fun r hr => ?_, ?_, hserial.succeed, ?_⟩
  · have hmk := hserial.order.subset (List.mem_map_of_mem hr)
    exact h.rounds _ hmk r.signature
  · rw [hserial.sent, h.applied]
  · rw [← h.chain]
    exact hserial.store

/-- What the workers of all nodes, interleaved with blocks in any way, have stored is what
rounds of theirs store that succeed one after the other and send the same payloads. -/
theorem run_serializable (hhonest : Run.Along step Honest (genesis nodes) history)
    (hcount : ((genesis nodes).run history).applied.length < 2 ^ 64) :
    ∃ serial : List (Round T), (∀ r ∈ serial, RanRound (genesis nodes) history r) ∧
      (ChainState.genesis T).sentInRounds serial = ((genesis nodes).run history).applied ∧
      Run.Along (fun s r => r.apply s) Round.Succeeds (ChainState.genesis T) serial ∧
      ((ChainState.genesis T).runRounds serial).bestPaths =
        ((genesis nodes).run history).chain.bestPaths ∧
      ((ChainState.genesis T).runRounds serial).unsignedTxNonce =
        ((genesis nodes).run history).chain.unsignedTxNonce := by
  obtain ⟨serial, h⟩ := exists_serializes hhonest hcount
  exact ⟨serial, h.ran, h.sent, h.succeed, h.store.bestPaths, h.store.nonce⟩

/-! ## Routes -/

/-- A stored path leads from its source to its target over pairs that were monitored when a
worker fetched their prices, and costs their product. -/
structure Route (r : Round T) (pair : Pair T.Currency) (path : T.Path) : Prop where
  walk : EdgeWalk.IsWalk PathStep.source PathStep.target pair.source path.steps pair.target
  monitored : ∀ step ∈ path.steps, ⟨step.pair, step.provider⟩ ∈ r.monitoredPairs
  fetched : ∀ step ∈ path.steps,
    r.env.getPrice step.provider step.pair.source step.pair.target = some step.cost
  totalCost : path.totalCost.toNat = asU128 (stepProduct path.steps * precision)

theorem route_of_calculates {α : Type} [AddCommGroup α] [LinearOrder α] [IsOrderedAddMonoid α]
    (L : Algo.Log2 ℚ α) (hcalc : T.bestPathCalculator = calcBestPaths L) {r : Round T}
    {pair : Pair T.Currency} {path : T.Path} (h : r.Calculates pair path) : Route r pair path := by
  obtain ⟨newBestPaths, hnew, hpath⟩ := h
  rw [hcalc] at hnew
  obtain ⟨-, hwalk, htotal⟩ := (bestPricePaths_of_eq_ok L hnew).sound pair path hpath
  refine ⟨hwalk.1, fun step hstep => ?_, fun step hstep => ?_, htotal⟩
  · exact (Round.mem_fetched_iff.mp (hwalk.2 step hstep).1).1
  · exact (Round.mem_fetched_iff.mp (hwalk.2 step hstep).1).2

theorem exists_calculates (hhonest : Run.Along step Honest (genesis nodes) history)
    (hcount : ((genesis nodes).run history).applied.length < 2 ^ 64) {pair : Pair T.Currency}
    {path : T.Path} (hpath : ((genesis nodes).run history).chain.bestPaths[pair]? = some path) :
    ∃ r, RanRound (genesis nodes) history r ∧ r.Calculates pair path := by
  obtain ⟨serial, h⟩ := exists_serializes hhonest hcount
  rw [← h.store.bestPaths] at hpath
  obtain ⟨r, hr, hcalculates⟩ := ChainState.stored_runRounds hpath
  exact ⟨r, h.ran r hr, hcalculates⟩

/-- At every moment each stored path is a route that the round of some worker has found. -/
theorem run_routes {α : Type} [AddCommGroup α] [LinearOrder α] [IsOrderedAddMonoid α]
    (L : Algo.Log2 ℚ α) (hcalc : T.bestPathCalculator = calcBestPaths L)
    (hhonest : Run.Along step Honest (genesis nodes) history)
    (hcount : ((genesis nodes).run history).applied.length < 2 ^ 64) (pair : Pair T.Currency)
    (path : T.Path) (hpath : ((genesis nodes).run history).chain.bestPaths[pair]? = some path) :
    ∃ r, RanRound (genesis nodes) history r ∧ Route r pair path := by
  obtain ⟨r, hran, hcalculates⟩ := exists_calculates hhonest hcount hpath
  exact ⟨r, hran, route_of_calculates L hcalc hcalculates⟩

/-! ## The payload of a change -/

/-- What is in the pool was sent by the round of a worker of its block. -/
theorem exists_worker_of_mem_pool {r : InFlight T}
    (hr : r ∈ ((genesis nodes).run history).pool) :
    ∃ pre n env post s, history = pre ++ .worker n r.payload.blockNumber env :: post ∧
      (((genesis nodes).run pre).nodes n).phase r.payload.blockNumber = .locked ∧
      ((genesis nodes).run pre).imported r.payload.blockNumber = some s ∧
      r ∈ sentBy env s r.payload.blockNumber := by
  induction history using List.reverseRecOn with
  | nil => cases hr
  | append_singleton history a ih =>
      by_cases hold : r ∈ ((genesis nodes).run history).pool
      · obtain ⟨pre, n, env, post, s, rfl, hphase, himported, hsent⟩ := ih hold
        exact ⟨pre, n, env, post ++ [a], s, by simp, hphase, himported, hsent⟩
      rw [run_append_singleton] at hr
      cases a with
      | elapse n millis => exact (hold hr).elim
      | block step => cases step <;> exact (hold hr).elim
      | worker n b env =>
          simp only [step, worker] at hr
          split at hr
          · rename_i s himported
            dsimp only at hr
            split at hr
            · rename_i hphase
              rcases List.mem_append.mp hr with hsent | hr
              · obtain ⟨-, hround, -⟩ := mem_sentBy_iff.mp hsent
                obtain ⟨-, -, -, -, rfl, -⟩ :=
                  fetchPricesAndUpdateBestPaths_eq_ok_some_iff.mp hround
                exact ⟨history, n, env, [], s, rfl, hphase, himported, hsent⟩
              · exact (hold hr).elim
            · exact (hold hr).elim
          · exact (hold hr).elim

/-- A step that changes the best paths is an accepted submission. -/
theorem exists_submission_of_step {σ : System T N} {a : SystemAction T N}
    (hne : (σ.step a).chain.bestPaths ≠ σ.chain.bestPaths) :
    ∃ payload signature,
      a = .block (.extrinsic (.unsigned (.ocwSubmitBestPathsChanges payload signature))) ∧
      (validateUnsigned σ.chain (.ocwSubmitBestPathsChanges payload signature)).isOk = true ∧
      ocwSubmitBestPathsChanges .none payload signature σ.chain = .ok (σ.step a).chain ∧
      T.verify payload.publicKey payload signature = true ∧
      T.intoAccount payload.publicKey ∈ σ.chain.whitelistedOffchainAuthorities ∧
      σ.chain.blockNumber.toNat ≤ payload.blockNumber.toNat + T.maxTxPoolStayTime.toNat := by
  cases a with
  | elapse n millis => exact (hne rfl).elim
  | worker n b env =>
      refine (hne ?_).elim
      simp only [step, worker]
      split <;> rfl
  | block step =>
      have hchain : (σ.step (.block step)).chain = step.apply σ.chain := by cases step <;> rfl
      rw [hchain] at hne ⊢
      obtain ⟨payload, signature, rfl, hok, hverify, hlisted, hrecent⟩ :=
        BlockStep.authorized (.inl hne)
      have hvalid : (validateUnsigned σ.chain
          (.ocwSubmitBestPathsChanges payload signature)).isOk = true := by
        cases hv : validateUnsigned σ.chain (.ocwSubmitBestPathsChanges payload signature) with
        | ok v => rfl
        | error fault => exact (hne (by simp [BlockStep.apply, Extrinsic.execute, hv])).elim
      exact ⟨payload, signature, rfl, hvalid, hok, hverify, hlisted, hrecent⟩

theorem imported_blockNumber {b : T.BlockNumber} {s : ChainState T}
    (h : ((genesis nodes).run history).imported b = some s) : s.blockNumber = b := by
  induction history using List.reverseRecOn with
  | nil => cases h
  | append_singleton history a ih =>
      rw [run_append_singleton] at h
      cases a with
      | elapse n millis => exact ih h
      | worker n b' env =>
          simp only [step, worker] at h
          split at h <;> exact ih h
      | block step =>
          cases step with
          | extrinsic x => exact ih h
          | advance =>
              simp only [System.step, block, Function.update_apply] at h
              split at h
              · rename_i hb
                cases h
                exact hb.symm
              · exact ih h

/-- What a submission of a round rests on: a worker of a recent block read the best paths
that the submission changes, and fetched the prices. -/
def Fresh (start : System T N) (history : List (SystemAction T N)) (r : InFlight T) : Prop :=
  ∃ pre n env post s, history = pre ++ .worker n r.payload.blockNumber env :: post ∧
    ((start.run pre).nodes n).phase r.payload.blockNumber = .locked ∧
    (start.run pre).imported r.payload.blockNumber = some s ∧
    r ∈ sentBy env s r.payload.blockNumber ∧
    s.bestPaths = (start.run history).chain.bestPaths ∧
    (start.run history).chain.blockNumber.toNat ≤
      s.blockNumber.toNat + T.maxTxPoolStayTime.toNat

/-- Whenever the best paths change, a whitelisted key submits a payload with the current nonce.
If the round of a worker has sent this payload, it has calculated it from the best paths of that
moment, read on a block that is not older than the stay in the pool. -/
theorem run_fresh {a : SystemAction T N}
    (hcount : ((genesis nodes).run history).applied.length < 2 ^ 64)
    (hne : ((genesis nodes).run (history ++ [a])).chain.bestPaths ≠
      ((genesis nodes).run history).chain.bestPaths) :
    ∃ payload signature,
      a = .block (.extrinsic (.unsigned (.ocwSubmitBestPathsChanges payload signature))) ∧
      ((genesis nodes).run (history ++ [a])).chain.bestPaths =
        applyChanges payload.changes ((genesis nodes).run history).chain.bestPaths ∧
      payload.nonce = ((genesis nodes).run history).chain.unsignedTxNonce ∧
      T.verify payload.publicKey payload signature = true ∧
      T.intoAccount payload.publicKey ∈
        ((genesis nodes).run history).chain.whitelistedOffchainAuthorities ∧
      ((genesis nodes).run history).chain.blockNumber.toNat ≤
        payload.blockNumber.toNat + T.maxTxPoolStayTime.toNat ∧
      ∀ r ∈ ((genesis nodes).run history).pool, r.payload = payload →
        Fresh (genesis nodes) history r := by
  rw [run_append_singleton] at hne ⊢
  obtain ⟨payload, signature, rfl, -, hok, hverify, hlisted, hrecent⟩ :=
    exists_submission_of_step hne
  obtain ⟨-, hnonce, events, hchain⟩ := ocwSubmitBestPathsChanges_eq_ok hok
  refine ⟨payload, signature, rfl, by rw [hchain], hnonce.symm, hverify, hlisted, hrecent, ?_⟩
  rintro r hr rfl
  obtain ⟨pre, n, env, post, s, rfl, hphase, himported, hsent⟩ := exists_worker_of_mem_pool hr
  refine ⟨pre, n, env, post, s, rfl, hphase, himported, hsent, ?_, ?_⟩
  · obtain ⟨actions, h⟩ :=
      exists_simulated nodes (pre ++ .worker n r.payload.blockNumber env :: post)
    rw [← h.applied] at hcount
    rw [← h.chain] at hnonce ⊢
    obtain ⟨hseen, -⟩ := (Network.reachable_run actions).snapshot hcount (h.pool hr) hnonce
    exact (mem_sentBy_iff.mp hsent).2.2.symm.trans hseen.symm
  · rw [imported_blockNumber himported]
    exact hrecent

/-! ## Pairs -/

/-- A round's payload removes nothing. -/
theorem mem_applyChanges_of_mem {env : Environment T} {s : ChainState T} {b : T.BlockNumber}
    {r : InFlight T} (hr : r ∈ sentBy env s b) {bestPaths : T.BestPaths} {pair : Pair T.Currency}
    (hpair : pair ∈ bestPaths) : pair ∈ applyChanges r.payload.changes bestPaths := by
  obtain ⟨-, hround, -⟩ := mem_sentBy_iff.mp hr
  obtain ⟨newBestPaths, -, hchanges, -⟩ := fetchPricesAndUpdateBestPaths_eq_ok hround
  rw [KeyedFold.mem_iff_exists] at hpair ⊢
  by_cases hmem : ∃ change ∈ r.payload.changes, change.pair = pair
  · obtain ⟨change, hchange, rfl⟩ := hmem
    obtain ⟨pair, path, rfl, hpath, -⟩ := (mem_selectChanges hchanges).mp hchange
    refine ⟨path, getElem?_applyChanges_of_mem (fun change' hchange' hpair' => ?_)
      ⟨_, hchange, rfl⟩⟩
    obtain ⟨pair', path', rfl, hpath', -⟩ := (mem_selectChanges hchanges).mp hchange'
    obtain rfl : pair' = pair := hpair'
    exact hpath'.symm.trans hpath
  · rw [getElem?_applyChanges_of_not_mem fun change hchange hpair' =>
      hmem ⟨change, hchange, hpair'⟩]
    exact hpair

theorem mem_bestPaths_step {a : SystemAction T N}
    (ha : ((genesis nodes).run history).Honest a) {pair : Pair T.Currency}
    (hpair : pair ∈ ((genesis nodes).run history).chain.bestPaths) :
    pair ∈ (((genesis nodes).run history).step a).chain.bestPaths := by
  by_cases hsame : (((genesis nodes).run history).step a).chain.bestPaths =
      ((genesis nodes).run history).chain.bestPaths
  · rw [hsame]
    exact hpair
  · obtain ⟨payload, signature, rfl, hvalid, hok, -⟩ := exists_submission_of_step hsame
    obtain ⟨r, hr, rfl⟩ := List.mem_map.mp (ha hvalid payload (List.mem_singleton.mpr rfl))
    obtain ⟨-, -, events, hchain⟩ := ocwSubmitBestPathsChanges_eq_ok hok
    obtain ⟨-, -, env, -, s, -, -, -, hsent⟩ := exists_worker_of_mem_pool hr
    rw [hchain]
    exact mem_applyChanges_of_mem hsent hpair

/-- A pair that is stored stays, also when it is monitored no longer or has no price any more:
the stored pairs are those that the rounds of the submitted payloads have calculated. -/
theorem run_pairs (hhonest : Run.Along step Honest (genesis nodes) history)
    (hcount : ((genesis nodes).run history).applied.length < 2 ^ 64) :
    (∀ pre post, history = pre ++ post → ∀ pair ∈ ((genesis nodes).run pre).chain.bestPaths,
      pair ∈ ((genesis nodes).run history).chain.bestPaths) ∧
    ∃ serial : List (Round T), (∀ r ∈ serial, RanRound (genesis nodes) history r) ∧
      (ChainState.genesis T).sentInRounds serial = ((genesis nodes).run history).applied ∧
      ∀ pair : Pair T.Currency, pair ∈ ((genesis nodes).run history).chain.bestPaths ↔
        ∃ r ∈ serial, ∃ path, r.Calculates pair path := by
  constructor
  · rintro pre post rfl pair hpair
    clear hcount
    induction post using List.reverseRecOn with
    | nil => simpa using hpair
    | append_singleton post a ih =>
        rw [← List.append_assoc] at hhonest ⊢
        rw [run_append_singleton]
        exact mem_bestPaths_step (Run.along_append.mp hhonest).2.1
          (ih (Run.along_append.mp hhonest).1)
  · obtain ⟨serial, h⟩ := exists_serializes hhonest hcount
    refine ⟨serial, h.ran, h.sent, fun pair => ?_⟩
    rw [← h.store.bestPaths]
    exact ChainState.mem_runRounds_iff h.succeed

/-! ## Two nodes of the runtime -/

/-- Both nodes run a round on the block in which root has added a pair. -/
def roundsOfBoth (env env' : Environment (nodeRuntime Algo.Log2.rational)) :
    List (SystemAction (nodeRuntime Algo.Log2.rational) (Fin 2)) :=
  [.block (.extrinsic (.root (.addWhitelistedOffchainAuthority 7))),
    .block (.extrinsic (.root (.submitMonitoredPairs [⟨⟨⟨btc, usdt⟩, .cryptoCompare⟩, .add⟩]))),
    .block .advance] ++ List.replicate 5 (.worker 0 0 env) ++ List.replicate 5 (.worker 1 0 env')

/-- Empty storage on both nodes. -/
def sampleNodes : Fin 2 → Retrieved (nodeRuntime Algo.Log2.rational).BlockNumber × Option ℕ × ℕ :=
  fun _ => (.missing, none, 0)

/-- The rounds find different prices. -/
def sampleRounds : List (SystemAction (nodeRuntime Algo.Log2.rational) (Fin 2)) :=
  roundsOfBoth (mockEnvironment _ 50000) (mockEnvironment _ 60000)

/-- The submission of the payload that was sent last. -/
def sampleSubmission (history : List (SystemAction (nodeRuntime Algo.Log2.rational) (Fin 2))) :
    SystemAction (nodeRuntime Algo.Log2.rational) (Fin 2) :=
  match ((genesis sampleNodes).run history).pool with
  | r :: _ =>
      .block (.extrinsic (.unsigned (.ocwSubmitBestPathsChanges r.payload r.payload.publicKey)))
  | [] => .block .advance

theorem run_serializable_sampleRounds :
    ∃ serial : List (Round (nodeRuntime Algo.Log2.rational)),
      (∀ r ∈ serial, RanRound (genesis sampleNodes)
        (sampleRounds ++ [sampleSubmission sampleRounds]) r) ∧
      (ChainState.genesis _).sentInRounds serial = ((genesis sampleNodes).run
        (sampleRounds ++ [sampleSubmission sampleRounds])).applied ∧
      Run.Along (fun s r => r.apply s) Round.Succeeds (ChainState.genesis _) serial ∧
      ((ChainState.genesis _).runRounds serial).bestPaths = ((genesis sampleNodes).run
        (sampleRounds ++ [sampleSubmission sampleRounds])).chain.bestPaths ∧
      ((ChainState.genesis _).runRounds serial).unsignedTxNonce = ((genesis sampleNodes).run
        (sampleRounds ++ [sampleSubmission sampleRounds])).chain.unsignedTxNonce :=
  run_serializable (by decide +kernel) (by decide +kernel)

theorem btc_stored_sampleRounds :
    (((genesis sampleNodes).run (sampleRounds ++
      [sampleSubmission sampleRounds])).chain.bestPaths[(⟨btc, usdt⟩ :
        Pair (List UInt8))]?).isSome = true := by
  decide +kernel

theorem run_routes_sampleRounds :
    ∃ path, ((genesis sampleNodes).run (sampleRounds ++
        [sampleSubmission sampleRounds])).chain.bestPaths[(⟨btc, usdt⟩ : Pair (List UInt8))]? =
          some path ∧
      ∃ r, RanRound (genesis sampleNodes) (sampleRounds ++ [sampleSubmission sampleRounds]) r ∧
        Route r ⟨btc, usdt⟩ path := by
  obtain ⟨path, hpath⟩ := Option.isSome_iff_exists.mp btc_stored_sampleRounds
  exact ⟨path, hpath, run_routes Algo.Log2.rational rfl (by decide +kernel) (by decide +kernel) _ _
    hpath⟩

theorem run_fresh_sampleRounds :
    ∃ payload signature, sampleSubmission sampleRounds =
        .block (.extrinsic (.unsigned (.ocwSubmitBestPathsChanges payload signature))) ∧
      ((genesis sampleNodes).run (sampleRounds ++
          [sampleSubmission sampleRounds])).chain.bestPaths =
        applyChanges payload.changes ((genesis sampleNodes).run sampleRounds).chain.bestPaths ∧
      payload.nonce = ((genesis sampleNodes).run sampleRounds).chain.unsignedTxNonce ∧
      (nodeRuntime Algo.Log2.rational).verify payload.publicKey payload signature = true ∧
      (nodeRuntime Algo.Log2.rational).intoAccount payload.publicKey ∈
        ((genesis sampleNodes).run sampleRounds).chain.whitelistedOffchainAuthorities ∧
      ((genesis sampleNodes).run sampleRounds).chain.blockNumber.toNat ≤
        payload.blockNumber.toNat + (nodeRuntime Algo.Log2.rational).maxTxPoolStayTime.toNat ∧
      (∃ r ∈ ((genesis sampleNodes).run sampleRounds).pool, r.payload = payload) ∧
      ∀ r ∈ ((genesis sampleNodes).run sampleRounds).pool, r.payload = payload →
        Fresh (genesis sampleNodes) sampleRounds r := by
  have hpair : (⟨btc, usdt⟩ : Pair (List UInt8)) ∈ ((genesis sampleNodes).run (sampleRounds ++
      [sampleSubmission sampleRounds])).chain.bestPaths := by decide +kernel
  have habsent : (⟨btc, usdt⟩ : Pair (List UInt8)) ∉
      ((genesis sampleNodes).run sampleRounds).chain.bestPaths := by decide +kernel
  have hchanged : ((genesis sampleNodes).run (sampleRounds ++
      [sampleSubmission sampleRounds])).chain.bestPaths ≠
        ((genesis sampleNodes).run sampleRounds).chain.bestPaths := fun heq => habsent (heq ▸ hpair)
  obtain ⟨payload, signature, heq, happlied, hnonce, hverify, hlisted, hrecent, hfresh⟩ :=
    run_fresh (by decide +kernel) hchanged
  -- the submission is that of the payload sent last
  have hsent : ∃ r ∈ ((genesis sampleNodes).run sampleRounds).pool, r.payload = payload := by
    unfold sampleSubmission at heq
    split at heq
    · rename_i r rest hpool
      simp only [SystemAction.block.injEq, BlockStep.extrinsic.injEq, Extrinsic.unsigned.injEq,
        Call.ocwSubmitBestPathsChanges.injEq] at heq
      exact ⟨r, by simp [hpool], heq.1⟩
    · cases heq
  exact ⟨payload, signature, heq, happlied, hnonce, hverify, hlisted, hrecent, hsent, hfresh⟩

theorem run_pairs_sampleRounds :
    (∀ pre post, sampleRounds ++ [sampleSubmission sampleRounds] = pre ++ post →
      ∀ pair ∈ ((genesis sampleNodes).run pre).chain.bestPaths,
        pair ∈ ((genesis sampleNodes).run (sampleRounds ++
          [sampleSubmission sampleRounds])).chain.bestPaths) ∧
    ∃ serial : List (Round (nodeRuntime Algo.Log2.rational)),
      (∀ r ∈ serial, RanRound (genesis sampleNodes)
        (sampleRounds ++ [sampleSubmission sampleRounds]) r) ∧
      (ChainState.genesis _).sentInRounds serial = ((genesis sampleNodes).run
        (sampleRounds ++ [sampleSubmission sampleRounds])).applied ∧
      ∀ pair : Pair (List UInt8), pair ∈ ((genesis sampleNodes).run
          (sampleRounds ++ [sampleSubmission sampleRounds])).chain.bestPaths ↔
        ∃ r ∈ serial, ∃ path, r.Calculates pair path :=
  run_pairs (by decide +kernel) (by decide +kernel)

end System

end Aggregator
