import Aggregator.Verification.OffchainWorker.Quiescence
import Aggregator.Verification.System.Serializability

/-! # Unchanged prices on all nodes

While the workers fetch the same prices, the first payload that is applied is the last, and
stores the totals along these prices. -/

namespace Aggregator.System

open FloydWarshallCalculator

variable {T : Config} {N : Type} [DecidableEq N]
  {nodes : N → Retrieved T.BlockNumber × Option ℕ × ℕ} {history : List (SystemAction T N)}

theorem length_submitted_le (s : ChainState T) (x : Extrinsic T) :
    (x.submitted s).length ≤ 1 := by
  unfold Extrinsic.submitted
  split
  · cases x.call <;> simp [Call.submitted]
  · simp

theorem length_applied_step (σ : System T N) (a : SystemAction T N) :
    (σ.step a).applied.length ≤ σ.applied.length + 1 := by
  cases a with
  | elapse n millis => exact Nat.le_succ _
  | worker n b env =>
      simp only [step, worker]
      split <;> exact Nat.le_succ _
  | block step =>
      cases step with
      | advance => exact Nat.le_succ _
      | extrinsic x =>
          simp only [System.step, block, List.length_append]
          exact Nat.add_le_add_left (length_submitted_le _ x) _

theorem length_sent_le (r : Round T) (s : ChainState T) : (r.sent s).length ≤ 1 := by
  rw [Round.sent, List.length_map]
  unfold sentBy
  split <;> simp

/-- A round that succeeds on an empty storage stores what it calculates. -/
theorem samePrices_apply_genesis {r : Round T} (h : r.Succeeds (ChainState.genesis T)) :
    ∃ newBestPaths, T.bestPathCalculator r.fetched = .ok newBestPaths ∧
      SamePrices (r.apply (ChainState.genesis T)).bestPaths newBestPaths := by
  have hsettles : r.Settles (ChainState.genesis T) := .inl h
  obtain ⟨newBestPaths, changes, hnew, hchanges, happly⟩ := hsettles.exists_changes
  refine ⟨newBestPaths, hnew, fun pair => ?_⟩
  rw [happly]
  rcases getElem?_applyChanges_selectChanges hchanges pair with ⟨path, hpath, heq, -⟩ | ⟨heq, hkept⟩
  · rw [heq, hpath]
  · cases hpath : newBestPaths[pair]? with
    | none =>
        rw [heq]
        rfl
    | some path =>
        obtain ⟨old, hold, -⟩ := hkept path hpath
        cases hold

variable {α : Type} [AddCommGroup α] [LinearOrder α] [IsOrderedAddMonoid α] (L : Algo.Log2 ℚ α)

/-- The stored totals are those that every round calculates. -/
def Converged (start : System T N) (history : List (SystemAction T N)) : Prop :=
  ∀ r, RanRound start history r → ∃ newBestPaths,
    T.bestPathCalculator r.fetched = .ok newBestPaths ∧
      SamePrices (start.run history).chain.bestPaths newBestPaths

/-- Of rounds on the same prices that succeed one after the other there is one at most, and it
stores what all of them calculate. -/
theorem Serializes.quiet {serial : List (Round T)} (h : Serializes (genesis nodes) history serial)
    (hcalc : T.bestPathCalculator = calcBestPaths L)
    (hprices : ∀ r r' : Round T, RanRound (genesis nodes) history r →
      RanRound (genesis nodes) history r' → r.fetched.Perm r'.fetched) :
    ((genesis nodes).run history).applied.length ≤ 1 ∧
      (((genesis nodes).run history).applied ≠ [] → Converged (genesis nodes) history) := by
  rw [← h.sent]
  cases serial with
  | nil => exact ⟨zero_le_one, fun hne => (hne rfl).elim⟩
  | cons r rounds =>
      obtain ⟨hsucceeds, -⟩ := h.succeed
      have hsettles : r.Settles (ChainState.genesis T) := .inl hsucceeds
      have hran : RanRound (genesis nodes) history r := h.ran r List.mem_cons_self
      obtain ⟨hsent, hstored⟩ := ChainState.runRounds_quiet hcalc hsettles fun r' hr' =>
        hprices r r' hran (h.ran r' (List.mem_cons_of_mem _ hr'))
      rw [ChainState.sentInRounds, hsent, List.append_nil]
      refine ⟨length_sent_le r _, fun _ r' hr' => ?_⟩
      obtain ⟨newBestPaths, hnew, hfirst⟩ := samePrices_apply_genesis hsucceeds
      obtain ⟨newBestPaths', hnew', hsame⟩ :=
        Round.exists_samePrices hcalc (hprices r r' hran hr') hnew
      refine ⟨newBestPaths', hnew', fun pair => ?_⟩
      rw [← h.store.bestPaths, ← hsame pair, ← hfirst pair, ← hstored]
      rfl

/-- As long as all workers of all nodes fetch the same prices, in whatever order their storage
iterates, at most one payload is applied, and then the stored totals are those along these
prices. -/
theorem run_quiet (hcalc : T.bestPathCalculator = calcBestPaths L)
    (hhonest : Run.Along step Honest (genesis nodes) history)
    (hprices : ∀ r r' : Round T, RanRound (genesis nodes) history r →
      RanRound (genesis nodes) history r' → r.fetched.Perm r'.fetched) :
    ((genesis nodes).run history).applied.length ≤ 1 ∧
      (((genesis nodes).run history).applied ≠ [] → Converged (genesis nodes) history) := by
  -- one step applies one payload, so the nonce has not overflowed
  have hcount : ((genesis nodes).run history).applied.length < 2 ^ 64 := by
    induction history using List.reverseRecOn with
    | nil => exact Nat.two_pow_pos 64
    | append_singleton history a ih =>
        have hran : ∀ r r' : Round T, RanRound (genesis nodes) history r →
            RanRound (genesis nodes) history r' → r.fetched.Perm r'.fetched :=
          fun r r' hr hr' => hprices r r' (hr.append a) (hr'.append a)
        have hbefore := (Run.along_append.mp hhonest).1
        obtain ⟨serial, h⟩ := exists_serializes hbefore (ih hbefore hran)
        have hone := (h.quiet L hcalc hran).1
        have hstep := length_applied_step ((genesis nodes).run history) a
        rw [run_append_singleton]
        omega
  obtain ⟨serial, h⟩ := exists_serializes hhonest hcount
  exact h.quiet L hcalc hprices

/-! ## Two nodes of the runtime -/

/-- Both nodes run a round at one price, and both payloads are submitted. -/
def equalRounds : List (SystemAction (nodeRuntime Algo.Log2.rational) (Fin 2)) :=
  let sent := roundsOfBoth (mockEnvironment _ 50000) (mockEnvironment _ 50000)
  sent ++ [sampleSubmission sent, sampleSubmission sent]

/-- The prices that a round at this step fetches. -/
def fetchedAt (history : List (SystemAction (nodeRuntime Algo.Log2.rational) (Fin 2))) (k : ℕ) :
    Option (List (PairAndPrice (List UInt8) Provider 128)) :=
  match history[k]? with
  | some (.worker _ b env) =>
      (((genesis sampleNodes).run (history.take k)).imported b).map (fetchedPairs env)
  | _ => none

theorem exists_fetchedAt {history : List (SystemAction (nodeRuntime Algo.Log2.rational) (Fin 2))}
    {r : Round (nodeRuntime Algo.Log2.rational)} (h : RanRound (genesis sampleNodes) history r) :
    ∃ k < history.length, fetchedAt history k = some r.fetched := by
  obtain ⟨pre, n, post, s, rfl, -, himported, hpairs⟩ := h
  refine ⟨pre.length, by simp, ?_⟩
  have hread : fetchedPairs r.env s = r.fetched := by
    unfold Round.fetched fetchedPairs Round.read
    rw [hpairs]
  rw [fetchedAt, List.getElem?_append_right le_rfl, Nat.sub_self, List.take_left]
  change (((genesis sampleNodes).run pre).imported r.blockNumber).map (fetchedPairs r.env) = _
  rw [himported, Option.map_some, hread]

theorem run_quiet_equalRounds :
    ((genesis sampleNodes).run equalRounds).applied.length ≤ 1 ∧
      Converged (genesis sampleNodes) equalRounds := by
  have hfetched : ∀ quotes ∈ (List.range equalRounds.length).filterMap (fetchedAt equalRounds),
      quotes = [(⟨⟨btc, usdt⟩, .cryptoCompare⟩, 50000)] := by decide +kernel
  have hsame : ∀ r : Round (nodeRuntime Algo.Log2.rational),
      RanRound (genesis sampleNodes) equalRounds r →
        r.fetched = [(⟨⟨btc, usdt⟩, .cryptoCompare⟩, 50000)] := by
    intro r hr
    obtain ⟨k, hk, hr⟩ := exists_fetchedAt hr
    exact hfetched _ (List.mem_filterMap.mpr ⟨k, List.mem_range.mpr hk, hr⟩)
  have happlied : ((genesis sampleNodes).run equalRounds).applied.length ≠ 0 := by decide +kernel
  have hhonest : Run.Along step Honest (genesis sampleNodes) equalRounds := by decide +kernel
  obtain ⟨hone, hconverged⟩ := run_quiet Algo.Log2.rational rfl hhonest
    fun r r' hr hr' => by rw [hsame r hr, hsame r' hr']
  exact ⟨hone, hconverged fun hnil => happlied (congrArg List.length hnil)⟩

end Aggregator.System
