import Aggregator.Library.Effects
import Aggregator.Verification.Pallet.Submission

/-! # Repeated changes in the event of a submission

The changes of a payload are applied and listed one by one. The event lists each pair once, as
it is stored in the end, exactly when no change that has an effect is overridden. -/

namespace Aggregator

open KeyedFold

variable {T : Config}

def BestPricesEntry.pair (entry : BestPricesEntry T) : Pair T.Currency := ⟨entry.1, entry.2.1⟩

/-- The entry that says what is stored for the pair. -/
def BestPricesEntry.stored (pair : Pair T.Currency) : Option T.Path → BestPricesEntry T
  | some path => (pair.source, pair.target, path.totalCost, .add)
  | none => (pair.source, pair.target, 0, .del)

/-- What a change says of its pair. -/
abbrev BestPathChange.path {C A : Type} (change : BestPathChange C A) :
    Option (PricePath C Provider A) :=
  change.2.2

/-- The changes that are listed when they are applied in order. -/
abbrev listedChanges (changes : List T.Change) (bestPaths : T.BestPaths) : List T.Change :=
  effects BestPathChange.pair BestPathChange.path changes bestPaths

/-- A change that a later one about its pair follows removes, and so does the later one where
the pair is stored; and the pairs that are added or stored are mentioned first in the order in
which they are mentioned last. -/
structure ListedOnce (changes : List T.Change) (bestPaths : T.BestPaths) : Prop where
  unrepeated : Unrepeated BestPathChange.pair BestPathChange.path bestPaths changes
  order : ((changes.filter (Effective BestPathChange.pair BestPathChange.path bestPaths)).map
      BestPathChange.pair).eraseDups =
    ((changes.filter (Effective BestPathChange.pair BestPathChange.path bestPaths)).map
      BestPathChange.pair).dedup

/-- The event lists each pair at most once, as it is stored after the call, and the call did
what it does with the last change of each pair alone. -/
structure DedupedEvent (payload : T.Payload) (signature : T.Signature) (s s' : ChainState T) :
    Prop where
  once : ∀ entries, s'.events = s.events ++ [.bestPricesSubmitted entries] →
    (entries.map BestPricesEntry.pair).Nodup
  stored : ∀ entries, s'.events = s.events ++ [.bestPricesSubmitted entries] →
    ∀ entry ∈ entries, entry = BestPricesEntry.stored entry.pair s'.bestPaths[entry.pair]?
  lastOnly : ocwSubmitBestPathsChanges .none
    { payload with changes := keepLast BestPathChange.pair payload.changes } signature s = .ok s'

/-! ## The entries -/

section Entries

def listedEntries (changes : List T.Change) (bestPaths : T.BestPaths) : List (BestPricesEntry T) :=
  (listedChanges changes bestPaths).map fun change =>
    BestPricesEntry.stored change.pair change.path

variable {changes : List T.Change} {bestPaths : T.BestPaths}

theorem changeEntries_eq (change : T.Change) :
    changeEntries bestPaths change =
      if Effective BestPathChange.pair BestPathChange.path bestPaths change then
        [BestPricesEntry.stored change.pair change.path] else [] := by
  obtain ⟨source, target, newPath⟩ := change
  cases newPath with
  | some path => exact (if_pos (.inl rfl)).symm
  | none =>
      by_cases h : (⟨source, target⟩ : Pair T.Currency) ∈ bestPaths
      · rw [changeEntries_of_mem h]
        exact (if_pos (.inr h)).symm
      · rw [changeEntries_of_not_mem h]
        refine (if_neg ?_).symm
        rintro (hsome | hmem)
        · cases hsome
        · exact h hmem

/-- The entries of the event are those of the listed changes. -/
theorem snd_foldl_recordChange (changes : List T.Change)
    (acc : T.BestPaths × List (BestPricesEntry T)) :
    (changes.foldl recordChange acc).2 = acc.2 ++ listedEntries changes acc.1 := by
  induction changes generalizing acc with
  | nil => simp [listedEntries, effects]
  | cons change changes ih =>
      rw [List.foldl_cons, ih, recordChange, changeEntries_eq]
      by_cases heff : Effective BestPathChange.pair BestPathChange.path acc.1 change
      · simp [listedEntries, listedChanges, effects, if_pos heff]
      · simp [listedEntries, listedChanges, effects, if_neg heff]

theorem pair_stored (pair : Pair T.Currency) (path : Option T.Path) :
    (BestPricesEntry.stored pair path).pair = pair := by
  cases path <;> rfl

theorem map_pair_listedEntries (changes : List T.Change) (bestPaths : T.BestPaths) :
    (listedEntries changes bestPaths).map BestPricesEntry.pair =
      (listedChanges changes bestPaths).map BestPathChange.pair := by
  rw [listedEntries, List.map_map]
  exact List.map_congr_left fun change _ => pair_stored _ _

/-- Entries that list each pair once, and as the last changes alone would, are listed once. -/
theorem ListedOnce.of_listedEntries
    (hnodup : ((listedEntries changes bestPaths).map BestPricesEntry.pair).Nodup)
    (hlast : listedEntries changes bestPaths =
      listedEntries (keepLast BestPathChange.pair changes) bestPaths) :
    ListedOnce changes bestPaths := by
  rw [map_pair_listedEntries] at hnodup
  have hunrepeated := unrepeated_of_nodup_effects hnodup
  refine ⟨hunrepeated, ?_⟩
  rw [← hunrepeated.map_key_effects, ← hunrepeated.map_key_effects_keepLast]
  have hpairs := congrArg (List.map BestPricesEntry.pair) hlast
  rwa [map_pair_listedEntries, map_pair_listedEntries] at hpairs

theorem ListedOnce.nodup_listedEntries (h : ListedOnce changes bestPaths) :
    ((listedEntries changes bestPaths).map BestPricesEntry.pair).Nodup := by
  rw [map_pair_listedEntries, h.unrepeated.map_key_effects, h.order]
  exact List.nodup_dedup _

theorem ListedOnce.listedEntries_keepLast (h : ListedOnce changes bestPaths) :
    listedEntries (keepLast BestPathChange.pair changes) bestPaths =
      listedEntries changes bestPaths := by
  have heffects := h.unrepeated.effects_eq_keepLast h.order
  simpa [listedEntries, Function.comp_def] using
    congrArg (List.map fun x => BestPricesEntry.stored x.1 x.2) heffects.symm

theorem ListedOnce.eq_stored (h : ListedOnce changes bestPaths) {entry : BestPricesEntry T}
    (hentry : entry ∈ listedEntries changes bestPaths) :
    entry = BestPricesEntry.stored entry.pair (applyChanges changes bestPaths)[entry.pair]? := by
  obtain ⟨change, hchange, rfl⟩ := List.mem_map.mp hentry
  rw [pair_stored]
  exact congrArg _ (h.unrepeated.getElem?_overwrite hchange).symm

/-- The events after a call tell its entries. -/
theorem deposited_inj {events : List (Event T)} {l l' : List (BestPricesEntry T)} :
    ((if l = [] then events else events ++ [.bestPricesSubmitted l]) =
      if l' = [] then events else events ++ [.bestPricesSubmitted l']) ↔ l = l' := by
  by_cases hl : l = []
  · by_cases hl' : l' = []
    · simp [hl, hl']
    · simp [hl, hl', Ne.symm hl']
  · by_cases hl' : l' = []
    · simp [hl, hl']
    · simp [hl, hl']

theorem deposited_eq_append_iff {events : List (Event T)} {l l' : List (BestPricesEntry T)} :
    (if l = [] then events else events ++ [.bestPricesSubmitted l]) =
      events ++ [.bestPricesSubmitted l'] ↔ l ≠ [] ∧ l = l' := by
  by_cases hl : l = []
  · simp [hl]
  · simp [hl]

end Entries

/-! ## The call -/

section Call

variable {payload : T.Payload} {signature : T.Signature} {s s' : ChainState T}

theorem exists_add_eq_ok {origin : Origin T.AccountId}
    (h : ocwSubmitBestPathsChanges origin payload signature s = .ok s') :
    ∃ nonce, (T.add s.unsignedTxNonce 1 : Exec DispatchError _) = .ok nonce := by
  unfold ocwSubmitBestPathsChanges at h
  obtain ⟨⟨⟩, -, h⟩ := Exec.bind_eq_ok_iff.mp h
  obtain ⟨⟨⟩, -, h⟩ := Exec.bind_eq_ok_iff.mp h
  obtain ⟨_, -, h⟩ := Exec.bind_eq_ok_iff.mp h
  obtain ⟨nonce, hadd, -⟩ := Exec.bind_eq_ok_iff.mp h
  exact ⟨nonce, hadd⟩

theorem ocwSubmitBestPathsChanges_eq_listed (payload : T.Payload) {nonce : BitVec 64}
    (hutf8 : ∀ change ∈ payload.changes,
      (Conversions.toStr change.1).isSome ∧ (Conversions.toStr change.2.1).isSome)
    (hnonce : s.unsignedTxNonce = payload.nonce)
    (hadd : (T.add s.unsignedTxNonce 1 : Exec DispatchError _) = .ok nonce)
    (signature : T.Signature) :
    ocwSubmitBestPathsChanges .none payload signature s = .ok { s with
      bestPaths := applyChanges payload.changes s.bestPaths
      unsignedTxNonce := nonce
      events := if listedEntries payload.changes s.bestPaths = [] then s.events
        else s.events ++ [.bestPricesSubmitted (listedEntries payload.changes s.bestPaths)] } := by
  rw [ocwSubmitBestPathsChanges_eq_recordChange hutf8 hnonce hadd signature,
    fst_foldl_recordChange, snd_foldl_recordChange, List.nil_append]

/-- The event of a submission is that of the last change of each pair exactly when no change
that has an effect is overridden and the order of the mentions is kept. -/
theorem dedupedEvent_iff
    (hutf8 : ∀ change ∈ payload.changes,
      (Conversions.toStr change.1).isSome ∧ (Conversions.toStr change.2.1).isSome)
    (hrun : ocwSubmitBestPathsChanges .none payload signature s = .ok s') :
    DedupedEvent payload signature s s' ↔ ListedOnce payload.changes s.bestPaths := by
  obtain ⟨-, hnonce, -⟩ := ocwSubmitBestPathsChanges_eq_ok hrun
  obtain ⟨nonce, hadd⟩ := exists_add_eq_ok hrun
  have hlast := ocwSubmitBestPathsChanges_eq_listed
    { payload with changes := keepLast BestPathChange.pair payload.changes }
    (fun change hchange => hutf8 change (keepLast_subset _ hchange)) hnonce hadd signature
  have hall := ocwSubmitBestPathsChanges_eq_listed payload hutf8 hnonce hadd signature
  obtain rfl := Except.ok.inj (hall.symm.trans hrun)
  constructor
  · intro h
    have hentries := deposited_inj.mp
      (congrArg ChainState.events (Except.ok.inj (h.lastOnly.symm.trans hlast)))
    refine ListedOnce.of_listedEntries ?_ hentries
    by_cases hnil : listedEntries payload.changes s.bestPaths = []
    · simp [hnil]
    · exact h.once _ (deposited_eq_append_iff.mpr ⟨hnil, rfl⟩)
  · intro h
    constructor
    case once =>
      intro entries hevents
      obtain ⟨-, rfl⟩ := deposited_eq_append_iff.mp hevents
      exact h.nodup_listedEntries
    case stored =>
      intro entries hevents entry hentry
      obtain ⟨-, rfl⟩ := deposited_eq_append_iff.mp hevents
      exact h.eq_stored hentry
    case lastOnly =>
      have hpaths : applyChanges (keepLast BestPathChange.pair payload.changes) s.bestPaths =
          applyChanges payload.changes s.bestPaths := overwrite_keepLast payload.changes s.bestPaths
      rw [hlast, h.listedEntries_keepLast, hpaths]

end Call

/-- A pair that is not stored is removed before it is added. -/
def repeatedRemoval : (nodeRuntime Algo.Log2.rational).Payload where
  changes := [(btc, eth, none), (btc, usdt, some ⟨5, []⟩), (btc, eth, some ⟨7, []⟩)]
  nonce := 0
  blockNumber := 1
  publicKey := 7

theorem dedupedEvent_iff_repeatedRemoval :
    ∃ s', ocwSubmitBestPathsChanges .none repeatedRemoval 7 (ChainState.genesis _).advance =
        .ok s' ∧
      (DedupedEvent repeatedRemoval 7 (ChainState.genesis _).advance s' ↔
        ListedOnce repeatedRemoval.changes ∅) := by
  have hutf8 : ∀ change ∈ repeatedRemoval.changes,
      (Conversions.toStr change.1).isSome ∧ (Conversions.toStr change.2.1).isSome := by
    decide +kernel
  have hrun := ocwSubmitBestPathsChanges_eq_listed _ (s := (ChainState.genesis _).advance)
    hutf8 rfl rfl 7
  exact ⟨_, hrun, dedupedEvent_iff hutf8 hrun⟩

/-- In the first block, a path added, removed and added again is listed three times. -/
theorem not_dedupedEvent_repeatedChanges :
    (∀ change ∈ repeatedChanges.changes,
      (Conversions.toStr change.1).isSome ∧ (Conversions.toStr change.2.1).isSome) ∧
    (ChainState.genesis (nodeRuntime Algo.Log2.rational)).advance.blockNumber = 1 ∧
    ∃ s', ocwSubmitBestPathsChanges .none repeatedChanges 7 (ChainState.genesis _).advance =
        .ok s' ∧
      s'.events = [.bestPricesSubmitted
        [(btc, eth, 5, .add), (btc, eth, 0, .del), (btc, eth, 7, .add)]] ∧
      ¬ DedupedEvent repeatedChanges 7 (ChainState.genesis _).advance s' := by
  have hutf8 : ∀ change ∈ repeatedChanges.changes,
      (Conversions.toStr change.1).isSome ∧ (Conversions.toStr change.2.1).isSome := by
    decide +kernel
  have hrun := ocwSubmitBestPathsChanges_eq_listed _ (s := (ChainState.genesis _).advance)
    hutf8 rfl rfl 7
  have hlisted : listedEntries repeatedChanges.changes
        (ChainState.genesis (nodeRuntime Algo.Log2.rational)).advance.bestPaths =
      [(btc, eth, 5, .add), (btc, eth, 0, .del), (btc, eth, 7, .add)] := by decide +kernel
  rw [hlisted, if_neg (List.cons_ne_nil _ _)] at hrun
  refine ⟨hutf8, rfl, _, hrun, rfl, fun h => ?_⟩
  have hnodup := h.once _ rfl
  revert hnodup
  decide +kernel

end Aggregator
