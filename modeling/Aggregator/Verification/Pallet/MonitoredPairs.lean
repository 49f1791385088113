import Aggregator.Model.Runtime
import Aggregator.Verification.LongestPaths.Logarithm
import Aggregator.Verification.Pallet.Dispatch

/-! # The monitored pairs after a list of operations

Keeping the last operation for each provider pair has the effect of all operations one by
one, and the event lists the difference they make. -/

namespace Aggregator

variable {T : Config}

abbrev MonitoredPairs (T : Config) := BTreeMap (ProviderPair T.Currency Provider) Unit

/-- Add inserts the provider pair, del removes it if present. -/
def ProviderPairOperation.perform
    (monitoredPairs : MonitoredPairs T) (op : ProviderPairOperation T.Currency Provider) :
    MonitoredPairs T :=
  match op.operation with
  | .add => monitoredPairs.insert op.providerPair ⟨⟩
  | .del => monitoredPairs.erase op.providerPair

/-- The entry that the operation leaves. -/
def ProviderPairOperation.indicator (op : ProviderPairOperation T.Currency Provider) :
    Option Unit :=
  match op.operation with
  | .add => some ⟨⟩
  | .del => none

def ProviderPairOperation.entry (op : ProviderPairOperation T.Currency Provider) :
    MonitoredPairsEntry T :=
  (op.providerPair.pair.source, op.providerPair.pair.target, op.providerPair.provider,
    op.operation)

def MonitoredPairsEntry.providerPair (entry : MonitoredPairsEntry T) :
    ProviderPair T.Currency Provider :=
  ⟨⟨entry.1, entry.2.1⟩, entry.2.2.1⟩

/-! ## The state -/

theorem mem_monitoredPairs_iff {m : MonitoredPairs T} {pp : ProviderPair T.Currency Provider} :
    pp ∈ m ↔ m[pp]? = some ⟨⟩ := by
  rw [KeyedFold.mem_iff_exists]
  exact ⟨fun ⟨_, h⟩ => h, fun h => ⟨_, h⟩⟩

theorem not_mem_monitoredPairs_iff {m : MonitoredPairs T}
    {pp : ProviderPair T.Currency Provider} : pp ∉ m ↔ m[pp]? = none := by
  rw [mem_monitoredPairs_iff]
  cases m[pp]? <;> simp

theorem perform_eq_alter (m : MonitoredPairs T)
    (op : ProviderPairOperation T.Currency Provider) :
    op.perform m = m.alter op.providerPair fun _ => op.indicator := by
  obtain ⟨providerPair, operation⟩ := op
  cases operation with
  | add => exact KeyedFold.insert_eq_alter m providerPair ⟨⟩
  | del => exact KeyedFold.erase_eq_alter m providerPair

theorem foldl_perform (operations : List (ProviderPairOperation T.Currency Provider))
    (m : MonitoredPairs T) :
    operations.foldl ProviderPairOperation.perform m =
      KeyedFold.overwrite ProviderPairOperation.providerPair ProviderPairOperation.indicator
        operations m := by
  unfold KeyedFold.overwrite
  congr 1
  funext m op
  exact perform_eq_alter m op

/-- The two reversals keep the last operation for each provider pair, in order. -/
theorem dedupe_eq_keepLast (operations : List (ProviderPairOperation T.Currency Provider)) :
    dedupe operations = KeyedFold.keepLast ProviderPairOperation.providerPair operations := by
  unfold dedupe
  rw [List.foldl_reverse]
  -- the set holds the provider pairs of the operations seen so far
  suffices h : ∀ (acc : BTreeSet (ProviderPair T.Currency Provider) ×
      List (ProviderPairOperation T.Currency Provider)),
      acc = operations.foldr (fun op acc => if op.providerPair ∈ acc.1 then acc
        else (acc.1.insert op.providerPair, acc.2 ++ [op])) (∅, []) →
      (∀ pp, pp ∈ acc.1 ↔ pp ∈ operations.map ProviderPairOperation.providerPair) ∧
        acc.2.reverse = KeyedFold.keepLast ProviderPairOperation.providerPair operations from
    (h _ rfl).2
  induction operations with
  | nil =>
      rintro acc rfl
      simp [KeyedFold.keepLast]
  | cons op operations ih =>
      rintro acc rfl
      obtain ⟨hset, hlist⟩ := ih _ rfl
      rw [List.foldr_cons]
      split
      · rename_i hseen
        have hmem := (hset _).mp hseen
        refine ⟨fun pp => ?_, by rw [hlist, KeyedFold.keepLast, if_pos hmem]⟩
        rw [hset, List.map_cons, List.mem_cons]
        refine ⟨.inr, fun h => h.elim (fun heq => heq ▸ hmem) id⟩
      · rename_i hseen
        have hmem := mt (hset _).mpr hseen
        refine ⟨fun pp => ?_, ?_⟩
        · rw [Std.ExtTreeSet.mem_insert, compare_eq_iff_eq, hset, List.map_cons, List.mem_cons,
            eq_comm]
        · rw [List.reverse_append, hlist, KeyedFold.keepLast, if_neg hmem]
          rfl

/-! ## The event -/

/-- An operation is listed when it makes a difference. -/
theorem applyOperation_eq (acc : MonitoredPairs T × List (MonitoredPairsEntry T))
    (op : ProviderPairOperation T.Currency Provider) :
    applyOperation acc op = (acc.1.alter op.providerPair fun _ => op.indicator,
      if acc.1[op.providerPair]? = op.indicator then acc.2 else acc.2 ++ [op.entry]) := by
  by_cases h : acc.1[op.providerPair]? = op.indicator
  · rw [if_pos h, KeyedFold.alter_eq_self h.symm]
    unfold applyOperation
    unfold ProviderPairOperation.indicator at h
    cases hop : op.operation with
    | add =>
        rw [hop] at h
        exact if_pos (mem_monitoredPairs_iff.mpr h)
    | del =>
        rw [hop] at h
        exact if_neg (not_mem_monitoredPairs_iff.mpr h)
  · rw [if_neg h]
    unfold applyOperation ProviderPairOperation.indicator ProviderPairOperation.entry
    unfold ProviderPairOperation.indicator at h
    cases hop : op.operation with
    | add =>
        rw [hop] at h
        exact if_neg (mt mem_monitoredPairs_iff.mp h)
    | del =>
        rw [hop] at h
        exact if_pos (not_not.mp (mt not_mem_monitoredPairs_iff.mp h))

/-- With one operation for each provider pair, the listed operations are those that differ
from the initial state. -/
theorem foldl_applyOperation {operations : List (ProviderPairOperation T.Currency Provider)}
    (hnd : (operations.map ProviderPairOperation.providerPair).Nodup) (m : MonitoredPairs T)
    (entries : List (MonitoredPairsEntry T)) :
    operations.foldl applyOperation (m, entries) =
      (operations.foldl ProviderPairOperation.perform m,
        entries ++ (operations.filter fun op => m[op.providerPair]? ≠ op.indicator).map
          ProviderPairOperation.entry) := by
  induction operations generalizing m entries with
  | nil => simp
  | cons op operations ih =>
      rw [List.map_cons, List.nodup_cons] at hnd
      rw [List.foldl_cons, applyOperation_eq, ih hnd.2, List.foldl_cons, perform_eq_alter]
      have hfilter : operations.filter (fun x =>
          (m.alter op.providerPair fun _ => op.indicator)[x.providerPair]? ≠ x.indicator) =
          operations.filter fun x => m[x.providerPair]? ≠ x.indicator := by
        refine List.filter_congr fun x hx => ?_
        have hne : op.providerPair ≠ x.providerPair := fun h =>
          hnd.1 (List.mem_map.mpr ⟨x, hx, h.symm⟩)
        rw [KeyedFold.getElem?_alter_eq, if_neg hne]
      rw [hfilter]
      by_cases h : m[op.providerPair]? = op.indicator
      · simp [h]
      · simp [h]

/-! ## The call -/

/-- The entry tells how its provider pair differs between the two states. -/
def MonitoredPairsEntry.Differs (before after : MonitoredPairs T)
    (entry : MonitoredPairsEntry T) : Prop :=
  match entry.2.2.2 with
  | .add => entry.providerPair ∉ before ∧ entry.providerPair ∈ after
  | .del => entry.providerPair ∈ before ∧ entry.providerPair ∉ after

theorem MonitoredPairsEntry.differs_iff {before after : MonitoredPairs T}
    {entry : MonitoredPairsEntry T} :
    entry.Differs before after ↔
      after[entry.providerPair]? =
          (ProviderPairOperation.mk entry.providerPair entry.2.2.2).indicator ∧
        before[entry.providerPair]? ≠ after[entry.providerPair]? := by
  obtain ⟨source, target, provider, operation⟩ := entry
  cases operation with
  | add =>
      simp only [Differs, mem_monitoredPairs_iff, ProviderPairOperation.indicator]
      constructor
      · rintro ⟨hbefore, hafter⟩
        exact ⟨hafter, hafter ▸ hbefore⟩
      · rintro ⟨hafter, hne⟩
        exact ⟨hafter ▸ hne, hafter⟩
  | del =>
      simp only [Differs, not_mem_monitoredPairs_iff, ProviderPairOperation.indicator]
      rw [← not_not (a := _ ∈ before), not_mem_monitoredPairs_iff]
      constructor
      · rintro ⟨hbefore, hafter⟩
        exact ⟨hafter, hafter ▸ hbefore⟩
      · rintro ⟨hafter, hne⟩
        exact ⟨hafter ▸ hne, hafter⟩

theorem indicator_inj {pp : ProviderPair T.Currency Provider} {op op' : Operation} :
    (ProviderPairOperation.mk pp op).indicator = (ProviderPairOperation.mk pp op').indicator ↔
      op = op' := by
  cases op <;> cases op' <;> simp [ProviderPairOperation.indicator]

/-- The entries of the event. -/
def netChanges (operations : List (ProviderPairOperation T.Currency Provider))
    (before : MonitoredPairs T) : List (MonitoredPairsEntry T) :=
  ((dedupe operations).filter fun op => before[op.providerPair]? ≠ op.indicator).map
    ProviderPairOperation.entry

section NetChanges

variable (operations : List (ProviderPairOperation T.Currency Provider))
  (before : MonitoredPairs T)

omit before in
theorem nodup_dedupe : ((dedupe operations).map ProviderPairOperation.providerPair).Nodup := by
  rw [dedupe_eq_keepLast]
  exact KeyedFold.nodup_keepLast operations

theorem foldl_applyOperation_dedupe :
    (dedupe operations).foldl applyOperation (before, []) =
      (operations.foldl ProviderPairOperation.perform before, netChanges operations before) := by
  rw [netChanges, foldl_applyOperation (nodup_dedupe operations), foldl_perform, foldl_perform,
    dedupe_eq_keepLast, KeyedFold.overwrite_keepLast, List.nil_append]

/-- A kept operation says what is there in the end. -/
theorem getElem?_foldl_perform {op : ProviderPairOperation T.Currency Provider}
    (hop : op ∈ dedupe operations) :
    (operations.foldl ProviderPairOperation.perform before)[op.providerPair]? = op.indicator := by
  have hnd := nodup_dedupe operations
  rw [dedupe_eq_keepLast] at hop hnd
  rw [foldl_perform, ← KeyedFold.overwrite_keepLast]
  refine KeyedFold.getElem?_overwrite_of_mem (fun x hx hkey => ?_) (List.mem_map_of_mem hop)
  rw [List.inj_on_of_nodup_map hnd hx hop hkey]

/-- The event lists exactly the differences between the two states. -/
theorem mem_netChanges_iff {entry : MonitoredPairsEntry T} :
    entry ∈ netChanges operations before ↔
      entry.Differs before (operations.foldl ProviderPairOperation.perform before) := by
  rw [MonitoredPairsEntry.differs_iff, netChanges, List.mem_map]
  simp only [List.mem_filter, decide_eq_true_eq]
  constructor
  · rintro ⟨op, ⟨hop, hne⟩, rfl⟩
    have hafter := getElem?_foldl_perform operations before hop
    refine ⟨hafter, ?_⟩
    rwa [← hafter] at hne
  · rintro ⟨hafter, hne⟩
    have hkey : entry.providerPair ∈ operations.map ProviderPairOperation.providerPair := by
      by_contra hnone
      rw [foldl_perform, KeyedFold.getElem?_overwrite_of_not_mem hnone] at hne
      exact hne rfl
    rw [← List.mem_dedup, ← KeyedFold.map_key_keepLast, ← dedupe_eq_keepLast] at hkey
    obtain ⟨op, hop, hpp⟩ := List.mem_map.mp hkey
    have hlast := getElem?_foldl_perform operations before hop
    obtain ⟨pp, operation⟩ := op
    obtain rfl : pp = entry.providerPair := hpp
    obtain rfl : operation = entry.2.2.2 := indicator_inj.mp (hlast.symm.trans hafter)
    exact ⟨_, ⟨hop, hlast ▸ hne⟩, rfl⟩

/-- Each provider pair is listed at most once, in the order of the last operations. -/
theorem netChanges_sublist :
    ((netChanges operations before).map MonitoredPairsEntry.providerPair).Sublist
      (operations.map ProviderPairOperation.providerPair).dedup := by
  rw [← KeyedFold.map_key_keepLast, ← dedupe_eq_keepLast, netChanges, List.map_map]
  exact List.Sublist.map _ List.filter_sublist

theorem netChanges_eq_nil_iff :
    netChanges operations before = [] ↔
      operations.foldl ProviderPairOperation.perform before = before := by
  constructor
  · intro hnil
    refine KeyedFold.ext_getElem? fun pp => ?_
    by_contra hne
    -- a pair that differs would be listed
    have hlisted : ∀ op, (operations.foldl ProviderPairOperation.perform before)[pp]? =
        (ProviderPairOperation.mk pp op).indicator → False := by
      intro op hafter
      have hmem : (pp.pair.source, pp.pair.target, pp.provider, op) ∈
          netChanges operations before :=
        (mem_netChanges_iff operations before).mpr <|
          MonitoredPairsEntry.differs_iff.mpr ⟨hafter, Ne.symm hne⟩
      rw [hnil] at hmem
      cases hmem
    cases hafter : (operations.foldl ProviderPairOperation.perform before)[pp]? with
    | none => exact hlisted .del hafter
    | some u => exact hlisted .add hafter
  · intro heq
    refine List.eq_nil_iff_forall_not_mem.mpr fun entry hentry => ?_
    have hdiffers := (mem_netChanges_iff operations before).mp hentry
    rw [MonitoredPairsEntry.differs_iff, heq] at hdiffers
    exact hdiffers.2 rfl

end NetChanges

/-- Root's operations take effect one by one in the given order; the event lists the net
difference, each provider pair at most once and in the order of last occurrences, and is
left out exactly when there is none. Other origins are rejected. -/
theorem submitMonitoredPairs_spec
    (operations : List (ProviderPairOperation T.Currency Provider)) (s : ChainState T) :
    (∃ payload : List (MonitoredPairsEntry T),
      submitMonitoredPairs .root operations s = .ok { s with
        monitoredPairs := operations.foldl ProviderPairOperation.perform s.monitoredPairs
        events := if payload = [] then s.events
          else s.events ++ [.monitoredPairsSubmitted payload] } ∧
      (∀ entry, entry ∈ payload ↔ entry.Differs s.monitoredPairs
        (operations.foldl ProviderPairOperation.perform s.monitoredPairs)) ∧
      (payload.map MonitoredPairsEntry.providerPair).Nodup ∧
      (payload.map MonitoredPairsEntry.providerPair).Sublist
        (operations.map ProviderPairOperation.providerPair).dedup ∧
      (payload = [] ↔
        operations.foldl ProviderPairOperation.perform s.monitoredPairs = s.monitoredPairs)) ∧
    ∀ origin, origin ≠ .root →
      submitMonitoredPairs origin operations s = .error (.err .badOrigin) := by
  refine ⟨⟨netChanges operations s.monitoredPairs, ?_,
    fun entry => mem_netChanges_iff operations s.monitoredPairs,
    (netChanges_sublist operations s.monitoredPairs).nodup (List.nodup_dedup _),
    netChanges_sublist operations s.monitoredPairs,
    netChanges_eq_nil_iff operations s.monitoredPairs⟩, fun origin horigin => ?_⟩
  · unfold submitMonitoredPairs
    rw [foldl_applyOperation_dedupe]
    cases netChanges operations s.monitoredPairs with
    | nil => rfl
    | cons entry entries => rfl
  · cases origin with
    | root => exact (horigin rfl).elim
    | _ => rfl

/-- Conflicting operations on one provider pair, and one on another. -/
def sampleOperations : List (ProviderPairOperation (List UInt8) Provider) :=
  [⟨⟨⟨btc, eth⟩, .cryptoCompare⟩, .add⟩, ⟨⟨⟨eth, usdt⟩, .cryptoCompare⟩, .add⟩,
    ⟨⟨⟨btc, eth⟩, .cryptoCompare⟩, .del⟩, ⟨⟨⟨btc, eth⟩, .cryptoCompare⟩, .add⟩]

theorem submitMonitoredPairs_spec_sampleOperations :
    (∃ payload : List (MonitoredPairsEntry (nodeRuntime Algo.Log2.rational)),
      submitMonitoredPairs .root sampleOperations
          (ChainState.genesis (nodeRuntime Algo.Log2.rational)).advance =
        .ok { (ChainState.genesis (nodeRuntime Algo.Log2.rational)).advance with
          monitoredPairs := sampleOperations.foldl ProviderPairOperation.perform ∅
          events := if payload = [] then [] else [] ++ [.monitoredPairsSubmitted payload] } ∧
      (∀ entry, entry ∈ payload ↔ entry.Differs ∅
        (sampleOperations.foldl ProviderPairOperation.perform ∅)) ∧
      (payload.map MonitoredPairsEntry.providerPair).Nodup ∧
      (payload.map MonitoredPairsEntry.providerPair).Sublist
        (sampleOperations.map ProviderPairOperation.providerPair).dedup ∧
      (payload = [] ↔ sampleOperations.foldl ProviderPairOperation.perform
        (∅ : MonitoredPairs (nodeRuntime Algo.Log2.rational)) = ∅)) ∧
    ∀ origin, origin ≠ .root → submitMonitoredPairs origin sampleOperations
      (ChainState.genesis (nodeRuntime Algo.Log2.rational)).advance =
        .error (.err .badOrigin) :=
  submitMonitoredPairs_spec (T := nodeRuntime Algo.Log2.rational) sampleOperations
    (ChainState.genesis (nodeRuntime Algo.Log2.rational)).advance

end Aggregator
