import Aggregator.Model.Runtime
import Aggregator.Verification.LongestPaths.Logarithm
import Aggregator.Verification.Pallet.Dispatch

/-! # Submitting best paths

The event of a submission, replayed on the total costs that were stored, gives the total
costs that are stored. -/

namespace Aggregator

variable {T : Config}

abbrev TotalCosts (T : Config) := BTreeMap (Pair T.Currency) T.Amount

/-- The total cost of each pair. -/
def totalCosts (bestPaths : T.BestPaths) : TotalCosts T :=
  bestPaths.map fun _ path => path.totalCost

/-- Add sets the cost, del removes it. -/
def BestPricesEntry.replay (costs : TotalCosts T) (entry : BestPricesEntry T) : TotalCosts T :=
  match entry.2.2.2 with
  | .add => costs.insert ⟨entry.1, entry.2.1⟩ entry.2.2.1
  | .del => costs.erase ⟨entry.1, entry.2.1⟩

/-- What the event lists of a change. -/
def changeEntries (bestPaths : T.BestPaths) (change : T.Change) : List (BestPricesEntry T) :=
  match change.2.2 with
  | some path => [(change.1, change.2.1, path.totalCost, .add)]
  | none => if change.pair ∈ bestPaths then [(change.1, change.2.1, 0, .del)] else []

/-- The storage and the entries after a change. -/
def recordChange (acc : T.BestPaths × List (BestPricesEntry T)) (change : T.Change) :
    T.BestPaths × List (BestPricesEntry T) :=
  (acc.1.alter change.pair fun _ => change.2.2, acc.2 ++ changeEntries acc.1 change)

/-! ## One change -/

section Change

variable {source target : T.Currency} {bestPaths : T.BestPaths}

theorem changeEntries_of_mem (h : (⟨source, target⟩ : Pair T.Currency) ∈ bestPaths) :
    changeEntries bestPaths (source, target, none) = [(source, target, 0, .del)] :=
  if_pos h

theorem changeEntries_of_not_mem (h : (⟨source, target⟩ : Pair T.Currency) ∉ bestPaths) :
    changeEntries bestPaths (source, target, none) = [] :=
  if_neg h

/-- A removal of what is not there leaves the storage as it was. -/
theorem alter_of_not_mem {pair : Pair T.Currency} (h : pair ∉ bestPaths) :
    bestPaths.alter pair (fun _ => none) = bestPaths :=
  KeyedFold.alter_eq_self (Std.ExtTreeMap.getElem?_eq_none h).symm

theorem applyChange_eq_recordChange {newPath : Option T.Path}
    (hsource : (Conversions.toStr source).isSome) (htarget : (Conversions.toStr target).isSome)
    (acc : T.BestPaths × List (BestPricesEntry T)) :
    applyChange acc (source, target, newPath) =
      .ok (recordChange acc (source, target, newPath)) := by
  have hlog : (T.log T.build.logInfo [source, target] : Exec DispatchError _) = .ok ⟨⟩ :=
    Config.log_eq_ok_iff.mpr fun _ => by simpa using ⟨hsource, htarget⟩
  unfold applyChange
  cases newPath with
  | some path =>
      dsimp only
      rw [hlog]
      rfl
  | none =>
      dsimp only
      by_cases h : (⟨source, target⟩ : Pair T.Currency) ∈ acc.1
      · rw [if_pos h, hlog, recordChange, changeEntries_of_mem h]
        rfl
      · rw [if_neg h, recordChange, changeEntries_of_not_mem h, List.append_nil]
        exact congrArg (fun m => Except.ok (m, acc.2)) (alter_of_not_mem h).symm

theorem getElem?_totalCosts (bestPaths : T.BestPaths) (pair : Pair T.Currency) :
    (totalCosts bestPaths)[pair]? = bestPaths[pair]?.map PricePath.totalCost :=
  KeyedFold.getElem?_map_eq bestPaths _ pair

theorem totalCosts_alter (bestPaths : T.BestPaths) (pair : Pair T.Currency)
    (newPath : Option T.Path) :
    totalCosts (bestPaths.alter pair fun _ => newPath) =
      (totalCosts bestPaths).alter pair fun _ => newPath.map PricePath.totalCost := by
  refine KeyedFold.ext_getElem? fun k => ?_
  rw [getElem?_totalCosts, KeyedFold.getElem?_alter_eq, KeyedFold.getElem?_alter_eq,
    getElem?_totalCosts]
  by_cases h : pair = k
  · rw [if_pos h, if_pos h]
  · rw [if_neg h, if_neg h]

/-- The entries of a change make the difference that the change makes. -/
theorem foldl_replay_changeEntries (bestPaths : T.BestPaths) (change : T.Change) :
    (changeEntries bestPaths change).foldl BestPricesEntry.replay (totalCosts bestPaths) =
      totalCosts (bestPaths.alter change.pair fun _ => change.2.2) := by
  obtain ⟨source, target, newPath⟩ := change
  cases newPath with
  | some path =>
      rw [totalCosts_alter]
      exact KeyedFold.insert_eq_alter _ _ _
  | none =>
      by_cases h : (⟨source, target⟩ : Pair T.Currency) ∈ bestPaths
      · rw [changeEntries_of_mem h, totalCosts_alter]
        exact KeyedFold.erase_eq_alter _ _
      · rw [changeEntries_of_not_mem h]
        exact congrArg totalCosts (alter_of_not_mem h).symm

end Change

/-- A change is not listed when it removes what is not there. -/
theorem changeEntries_eq_nil_iff {bestPaths : T.BestPaths} {change : T.Change} :
    changeEntries bestPaths change = [] ↔ change.2.2 = none ∧ change.pair ∉ bestPaths := by
  unfold changeEntries
  cases change.2.2 with
  | some path => simp
  | none => simp

/-! ## All changes -/

theorem fst_foldl_recordChange (changes : List T.Change)
    (acc : T.BestPaths × List (BestPricesEntry T)) :
    (changes.foldl recordChange acc).1 = applyChanges changes acc.1 :=
  Eq.symm (List.foldl_hom Prod.fst fun _ _ => rfl)

/-- What holds of the storage and the entries after one change holds after all. -/
theorem foldl_replay_recordChange (changes : List T.Change) (costs : TotalCosts T)
    {acc : T.BestPaths × List (BestPricesEntry T)}
    (hacc : acc.2.foldl BestPricesEntry.replay costs = totalCosts acc.1) :
    (changes.foldl recordChange acc).2.foldl BestPricesEntry.replay costs =
      totalCosts (changes.foldl recordChange acc).1 := by
  induction changes generalizing acc with
  | nil => exact hacc
  | cons change changes ih =>
      refine ih ?_
      rw [recordChange, List.foldl_append, hacc]
      exact foldl_replay_changeEntries acc.1 change

/-- Nothing is listed when nothing is added and nothing removed was there. -/
theorem foldl_recordChange_eq_nil_iff (changes : List T.Change)
    (acc : T.BestPaths × List (BestPricesEntry T)) :
    (changes.foldl recordChange acc).2 = [] ↔
      acc.2 = [] ∧ ∀ change ∈ changes, change.2.2 = none ∧ change.pair ∉ acc.1 := by
  induction changes generalizing acc with
  | nil => simp
  | cons change changes ih =>
      rw [List.foldl_cons, ih, List.forall_mem_cons]
      simp only [recordChange, List.append_eq_nil_iff, changeEntries_eq_nil_iff]
      -- a change that is not listed leaves the storage as it was
      have hself : change.2.2 = none ∧ change.pair ∉ acc.1 →
          acc.1.alter change.pair (fun _ => change.2.2) = acc.1 := by
        rintro ⟨hnone, habsent⟩
        rw [hnone]
        exact alter_of_not_mem habsent
      constructor
      · rintro ⟨⟨hacc, hchange⟩, hchanges⟩
        rw [hself hchange] at hchanges
        exact ⟨hacc, hchange, hchanges⟩
      · rintro ⟨hacc, hchange, hchanges⟩
        rw [hself hchange]
        exact ⟨⟨hacc, hchange⟩, hchanges⟩

/-! ## The call -/

/-- What a submission does: the last change about a pair wins, the nonce goes up by one, and
the entries of the event turn the old total costs into the new ones. -/
structure Submission (payload : T.Payload) (s s' : ChainState T)
    (entries : List (BestPricesEntry T)) : Prop where
  bestPaths : ∀ pair : Pair T.Currency, s'.bestPaths[pair]? =
    ((payload.changes.filter fun change => change.pair = pair).getLast?.map fun change =>
      change.2.2).getD s.bestPaths[pair]?
  nonce : s'.unsignedTxNonce.toNat = s.unsignedTxNonce.toNat + 1
  monitoredPairs : s'.monitoredPairs = s.monitoredPairs
  whitelist : s'.whitelistedOffchainAuthorities = s.whitelistedOffchainAuthorities
  blockNumber : s'.blockNumber = s.blockNumber
  events : s'.events =
    if entries = [] then s.events else s.events ++ [.bestPricesSubmitted entries]
  replay : entries.foldl BestPricesEntry.replay (totalCosts s.bestPaths) = totalCosts s'.bestPaths
  silent : entries = [] ↔
    ∀ change ∈ payload.changes, change.2.2 = none ∧ change.pair ∉ s.bestPaths

theorem ocwSubmitBestPathsChanges_eq_recordChange {payload : T.Payload} {s : ChainState T}
    {nonce : BitVec 64}
    (hutf8 : ∀ change ∈ payload.changes,
      (Conversions.toStr change.1).isSome ∧ (Conversions.toStr change.2.1).isSome)
    (hnonce : s.unsignedTxNonce = payload.nonce)
    (hadd : (T.add s.unsignedTxNonce 1 : Exec DispatchError _) = .ok nonce)
    (signature : T.Signature) :
    ocwSubmitBestPathsChanges .none payload signature s = .ok { s with
      bestPaths := (payload.changes.foldl recordChange (s.bestPaths, [])).1
      unsignedTxNonce := nonce
      events := if (payload.changes.foldl recordChange (s.bestPaths, [])).2 = [] then s.events
        else s.events ++
          [.bestPricesSubmitted (payload.changes.foldl recordChange (s.bestPaths, [])).2] } := by
  have hfold := Exec.foldlM_eq_ok_foldl (f := applyChange) (g := recordChange)
    (fun acc change hchange =>
      applyChange_eq_recordChange (hutf8 change hchange).1 (hutf8 change hchange).2 acc)
    (s.bestPaths, [])
  unfold ocwSubmitBestPathsChanges
  simp only [ensureNone, Exec.ensure_pos hnonce, Exec.ok_bind, hfold, hadd]
  cases (payload.changes.foldl recordChange (s.bestPaths, [])).2 <;> rfl

/-- A payload of valid UTF-8 with the expected nonce is submitted. With another origin or
nonce the call fails. -/
theorem ocwSubmitBestPathsChanges_spec (payload : T.Payload) (signature : T.Signature)
    (s : ChainState T) :
    ((∀ change ∈ payload.changes,
        (Conversions.toStr change.1).isSome ∧ (Conversions.toStr change.2.1).isSome) →
      s.unsignedTxNonce = payload.nonce → s.unsignedTxNonce.toNat < 2 ^ 64 - 1 →
      ∃ s' entries, ocwSubmitBestPathsChanges .none payload signature s = .ok s' ∧
        Submission payload s s' entries) ∧
    (∀ origin, origin ≠ .none →
      ocwSubmitBestPathsChanges origin payload signature s = .error (.err .badOrigin)) ∧
    (s.unsignedTxNonce ≠ payload.nonce →
      ocwSubmitBestPathsChanges .none payload signature s =
        .error (.err .staleUnsignedTxError)) := by
  refine ⟨fun hutf8 hnonce hmax => ?_, fun origin horigin => ?_,
    ocwSubmitBestPathsChanges_stale⟩
  · have hfits : s.unsignedTxNonce.toNat + 1 < 2 ^ 64 := by omega
    have hrun := ocwSubmitBestPathsChanges_eq_recordChange hutf8 hnonce
      (Config.add_of_checked fun _ => hfits) signature
    refine ⟨_, (payload.changes.foldl recordChange (s.bestPaths, [])).2, hrun, ?_⟩
    constructor
    case bestPaths =>
      intro pair
      rw [fst_foldl_recordChange]
      exact getElem?_applyChanges payload.changes s.bestPaths pair
    case nonce => exact toNat_add_one hfits
    case replay => exact foldl_replay_recordChange _ _ rfl
    case silent =>
      rw [foldl_recordChange_eq_nil_iff]
      simp
    case monitoredPairs => rfl
    case whitelist => rfl
    case blockNumber => rfl
    case events => rfl
  · cases origin with
    | none => exact (horigin rfl).elim
    | _ => rfl

/-- A path added, removed and added again, and the removal of a pair that is not stored. -/
def repeatedChanges : (nodeRuntime Algo.Log2.rational).Payload where
  changes := [(btc, eth, some ⟨5, []⟩), (btc, eth, none), (usdt, eth, none),
    (btc, eth, some ⟨7, []⟩)]
  nonce := 0
  blockNumber := 1
  publicKey := 7

theorem ocwSubmitBestPathsChanges_spec_repeatedChanges :
    ∃ s' entries, ocwSubmitBestPathsChanges .none repeatedChanges 7
        (ChainState.genesis (nodeRuntime Algo.Log2.rational)).advance = .ok s' ∧
      Submission repeatedChanges (ChainState.genesis (nodeRuntime Algo.Log2.rational)).advance
        s' entries :=
  (ocwSubmitBestPathsChanges_spec repeatedChanges 7
    (ChainState.genesis (nodeRuntime Algo.Log2.rational)).advance).1
    (by decide +kernel) rfl (by decide)

end Aggregator
