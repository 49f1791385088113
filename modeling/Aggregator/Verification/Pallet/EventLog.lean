import Aggregator.Library.EventLog
import Aggregator.Verification.Pallet.Authorization
import Aggregator.Verification.Pallet.MonitoredPairs
import Aggregator.Verification.Pallet.Submission

/-! # The events of the chain

A client that keeps all events knows the total costs, the monitored pairs and the authorities,
and can check the price of every trade. -/

namespace Aggregator

variable {T : Config}

/-! ## Replaying -/

/-- What the events tell of the storage. -/
structure View (T : Config) where
  totalCosts : TotalCosts T
  monitoredPairs : MonitoredPairs T
  authorities : BTreeMap T.AccountId Unit

def ChainState.view (s : ChainState T) : View T :=
  ⟨Aggregator.totalCosts s.bestPaths, s.monitoredPairs, s.whitelistedOffchainAuthorities⟩

def MonitoredPairsEntry.replay (m : MonitoredPairs T) (entry : MonitoredPairsEntry T) :
    MonitoredPairs T :=
  (ProviderPairOperation.mk entry.providerPair entry.2.2.2).perform m

local instance accountTransCmp :
    Std.TransCmp (compare : T.AccountId → T.AccountId → Ordering) :=
  KeyedFold.transCmp _

def Event.replay (v : View T) : Event T → View T
  | .bestPricesSubmitted changes =>
      { v with totalCosts := changes.foldl BestPricesEntry.replay v.totalCosts }
  | .monitoredPairsSubmitted changes =>
      { v with monitoredPairs := changes.foldl MonitoredPairsEntry.replay v.monitoredPairs }
  | .tradePerformed _ _ _ _ _ _ => v
  | .whitelistedOffchainAuthorityAdded offchainAuthority =>
      { v with authorities := v.authorities.insert offchainAuthority ⟨⟩ }

/-- A trade is at the cost that is stored, no event of changes is empty, and each listed
provider pair differs. -/
def Event.Audited (v : View T) : Event T → Prop
  | .bestPricesSubmitted changes => changes ≠ []
  | .monitoredPairsSubmitted changes => changes ≠ [] ∧ ∀ entry ∈ changes,
      MonitoredPairsEntry.Differs v.monitoredPairs
        (changes.foldl MonitoredPairsEntry.replay v.monitoredPairs) entry
  | .tradePerformed _ source target cost sourceAmount targetAmount =>
      v.totalCosts[(⟨source, target⟩ : Pair T.Currency)]? = some cost ∧
        targetAmount = sourceAmount * cost
  | .whitelistedOffchainAuthorityAdded _ => True

/-! ## Entries of the monitored pairs -/

theorem foldl_perform_filter {operations : List (ProviderPairOperation T.Currency Provider)}
    (hnd : (operations.map ProviderPairOperation.providerPair).Nodup) (m : MonitoredPairs T) :
    (operations.filter fun op => m[op.providerPair]? ≠ op.indicator).foldl
        ProviderPairOperation.perform m =
      operations.foldl ProviderPairOperation.perform m := by
  induction operations generalizing m with
  | nil => rfl
  | cons op operations ih =>
      rw [List.map_cons, List.nodup_cons] at hnd
      have hfilter : operations.filter (fun x => (op.perform m)[x.providerPair]? ≠ x.indicator) =
          operations.filter fun x => m[x.providerPair]? ≠ x.indicator := by
        refine List.filter_congr fun x hx => ?_
        have hne : op.providerPair ≠ x.providerPair := fun h =>
          hnd.1 (List.mem_map.mpr ⟨x, hx, h.symm⟩)
        rw [perform_eq_alter, KeyedFold.getElem?_alter_eq, if_neg hne]
      rw [List.foldl_cons, ← ih hnd.2, hfilter]
      by_cases h : m[op.providerPair]? = op.indicator
      · rw [perform_eq_alter, KeyedFold.alter_eq_self h.symm]
        simp [h]
      · simp [h]

theorem foldl_replay_netChanges (operations : List (ProviderPairOperation T.Currency Provider))
    (before : MonitoredPairs T) :
    (netChanges operations before).foldl MonitoredPairsEntry.replay before =
      operations.foldl ProviderPairOperation.perform before := by
  rw [netChanges, List.foldl_map]
  change List.foldl ProviderPairOperation.perform before _ = _
  rw [foldl_perform_filter (nodup_dedupe operations), foldl_perform, foldl_perform,
    dedupe_eq_keepLast, KeyedFold.overwrite_keepLast]

/-! ## Entries of the best paths -/

/-- A change that succeeds is recorded, whether or not its message is printed. -/
theorem applyChange_eq_ok_recordChange {acc acc' : T.BestPaths × List (BestPricesEntry T)}
    {change : T.Change} (h : applyChange acc change = .ok acc') :
    acc' = recordChange acc change := by
  obtain ⟨source, target, newPath⟩ := change
  unfold applyChange at h
  cases newPath with
  | some path =>
      obtain ⟨⟨⟩, -, h⟩ := Exec.bind_eq_ok_iff.mp h
      cases h
      rfl
  | none =>
      simp only at h
      split at h
      · rename_i hmem
        obtain ⟨⟨⟩, -, h⟩ := Exec.bind_eq_ok_iff.mp h
        cases h
        rw [recordChange, changeEntries_of_mem hmem]
        rfl
      · rename_i habsent
        cases h
        rw [recordChange, changeEntries_of_not_mem habsent, List.append_nil]
        exact congrArg (fun m => (m, acc.2)) (alter_of_not_mem habsent).symm

theorem foldlM_applyChange_eq_ok_recordChange {changes : List T.Change}
    {acc acc' : T.BestPaths × List (BestPricesEntry T)}
    (h : changes.foldlM applyChange acc = .ok acc') :
    acc' = changes.foldl recordChange acc :=
  Exec.foldlM_eq_ok id (fun _ _ _ h => applyChange_eq_ok_recordChange h) h

/-! ## Calls -/

/-- The events that a step appends, with what they tell. -/
structure Deposits (s s' : ChainState T) (events : List (Event T)) : Prop where
  appended : s'.events = s.events ++ events
  replayed : events.foldl Event.replay s.view = s'.view
  audited : ∀ pre e post, events = pre ++ e :: post →
    Event.Audited (pre.foldl Event.replay s.view) e

variable {s s' : ChainState T}

theorem Deposits.nil (hevents : s'.events = s.events) (hview : s'.view = s.view) :
    Deposits s s' [] :=
  ⟨by rw [hevents, List.append_nil], hview.symm, by simp⟩

theorem Deposits.singleton {e : Event T} (hevents : s'.events = s.events ++ [e])
    (hview : e.replay s.view = s'.view) (haudit : e.Audited s.view) : Deposits s s' [e] := by
  refine ⟨hevents, hview, fun pre e' post h => ?_⟩
  cases pre with
  | nil =>
      obtain ⟨rfl, -⟩ := List.cons.inj h
      exact haudit
  | cons e'' pre => simp at h

theorem exists_deposits_ocwSubmitBestPathsChanges {origin : Origin T.AccountId}
    {payload : T.Payload} {signature : T.Signature}
    (h : ocwSubmitBestPathsChanges origin payload signature s = .ok s') :
    ∃ events, Deposits s s' events := by
  unfold ocwSubmitBestPathsChanges at h
  obtain ⟨⟨⟩, -, h⟩ := Exec.bind_eq_ok_iff.mp h
  obtain ⟨⟨⟩, -, h⟩ := Exec.bind_eq_ok_iff.mp h
  obtain ⟨⟨bestPaths, entries⟩, hfold, h⟩ := Exec.bind_eq_ok_iff.mp h
  obtain ⟨nonce, -, h⟩ := Exec.bind_eq_ok_iff.mp h
  have hrecord := foldlM_applyChange_eq_ok_recordChange hfold
  have hreplay : entries.foldl BestPricesEntry.replay (totalCosts s.bestPaths) =
      totalCosts bestPaths := by
    have hboth := @foldl_replay_recordChange T payload.changes (totalCosts s.bestPaths)
      (s.bestPaths, []) rfl
    rwa [← hrecord] at hboth
  cases entries with
  | nil =>
      cases h
      exact ⟨[], .nil rfl (congrArg (View.mk · _ _) hreplay.symm)⟩
  | cons entry entries =>
      cases h
      exact ⟨_, .singleton rfl (congrArg (View.mk · _ _) hreplay) (List.cons_ne_nil _ _)⟩

theorem exists_deposits_submitMonitoredPairs {origin : Origin T.AccountId}
    {operations : List (ProviderPairOperation T.Currency Provider)}
    (h : submitMonitoredPairs origin operations s = .ok s') : ∃ events, Deposits s s' events := by
  unfold submitMonitoredPairs at h
  obtain ⟨⟨⟩, -, h⟩ := Exec.bind_eq_ok_iff.mp h
  rw [foldl_applyOperation_dedupe] at h
  have hreplay := foldl_replay_netChanges operations s.monitoredPairs
  have hdiffers : ∀ entry ∈ netChanges operations s.monitoredPairs, entry.Differs s.monitoredPairs
      (operations.foldl ProviderPairOperation.perform s.monitoredPairs) := fun _ hentry =>
    (mem_netChanges_iff operations s.monitoredPairs).mp hentry
  rw [← hreplay] at hdiffers
  cases hnet : netChanges operations s.monitoredPairs with
  | nil =>
      rw [hnet] at h hreplay
      cases h
      exact ⟨[], .nil rfl (congrArg (View.mk _ · _) hreplay.symm)⟩
  | cons entry entries =>
      rw [hnet] at h hreplay hdiffers
      cases h
      exact ⟨_, .singleton rfl (congrArg (View.mk _ · _) hreplay)
        ⟨List.cons_ne_nil _ _, hdiffers⟩⟩

theorem exists_deposits_trade {origin : Origin T.AccountId} {source target : T.Currency}
    {amount : T.Amount} (h : trade origin source target amount s = .ok s') :
    ∃ events, Deposits s s' events := by
  unfold trade at h
  obtain ⟨owner, -, h⟩ := Exec.bind_eq_ok_iff.mp h
  split at h
  · rename_i path hpath
    obtain ⟨targetAmount, hmul, h⟩ := Exec.bind_eq_ok_iff.mp h
    cases h
    refine ⟨_, .singleton rfl rfl ⟨?_, Config.mul_eq_ok hmul⟩⟩
    rw [ChainState.view, getElem?_totalCosts, hpath]
    rfl
  · cases h

theorem exists_deposits_dispatch {origin : Origin T.AccountId} {call : Call T}
    (h : call.dispatch origin s = .ok s') : ∃ events, Deposits s s' events := by
  cases call with
  | ocwSubmitBestPathsChanges payload signature =>
      have hok : Aggregator.ocwSubmitBestPathsChanges origin payload signature s = .ok s' := h
      exact exists_deposits_ocwSubmitBestPathsChanges hok
  | submitMonitoredPairs operations => exact exists_deposits_submitMonitoredPairs h
  | trade source target amount => exact exists_deposits_trade h
  | addWhitelistedOffchainAuthority offchainAuthority =>
      obtain ⟨⟨⟩, -, h⟩ := Exec.bind_eq_ok_iff.mp h
      cases h
      exact ⟨_, .singleton rfl rfl trivial⟩

/-! ## Runs -/

/-- The events that the step appends. The next block starts with none. -/
def BlockStep.deposited (s : ChainState T) : BlockStep T → List (Event T)
  | .extrinsic x => ((BlockStep.extrinsic x).apply s).events.drop s.events.length
  | .advance => []

/-- The events of all blocks of the run. -/
def ChainState.log (s : ChainState T) (steps : List (BlockStep T)) : List (Event T) :=
  EventLog.log BlockStep.apply BlockStep.deposited s steps

theorem Deposits.drop_eq {events : List (Event T)} (h : Deposits s s' events) :
    s'.events.drop s.events.length = events := by
  rw [h.appended, List.drop_left]

theorem accounts_deposited :
    EventLog.Accounts (BlockStep.apply (T := T)) BlockStep.deposited Event.replay ChainState.view
      Event.Audited := by
  have hdeposits : ∀ (s : ChainState T) (step : BlockStep T), step ≠ .advance →
      Deposits s (step.apply s) (step.deposited s) := by
    intro s step hne
    cases step with
    | advance => exact (hne rfl).elim
    | extrinsic x =>
        cases hx : x.execute s with
        | none =>
            have happly : (BlockStep.extrinsic x).apply s = s := by simp [BlockStep.apply, hx]
            rw [BlockStep.deposited, happly, List.drop_length]
            exact .nil rfl rfl
        | some s' =>
            have happly : (BlockStep.extrinsic x).apply s = s' := by simp [BlockStep.apply, hx]
            obtain ⟨events, h⟩ := exists_deposits_dispatch (Extrinsic.dispatch_call hx)
            rw [BlockStep.deposited, happly, h.drop_eq]
            exact h
  constructor
  · intro s step
    cases step with
    | advance => rfl
    | extrinsic x => exact (hdeposits s (.extrinsic x) (by simp)).replayed
  · intro s step
    cases step with
    | advance => simp [BlockStep.deposited]
    | extrinsic x => exact (hdeposits s (.extrinsic x) (by simp)).audited

/-- The events of any run, replayed in order, lead from the total costs, the monitored pairs and
the authorities before it to those after it, and each event is right about the moment when it
was deposited. -/
theorem ChainState.run_log (s : ChainState T) (steps : List (BlockStep T)) :
    (s.log steps).foldl Event.replay s.view = (s.run steps).view ∧
      ∀ pre e post, s.log steps = pre ++ e :: post →
        Event.Audited (pre.foldl Event.replay s.view) e :=
  ⟨accounts_deposited.replay_log s steps, fun _ _ _ h => accounts_deposited.audit_log h⟩

end Aggregator
