import Aggregator.Library.Run
import Aggregator.Model.System
import Aggregator.Verification.OffchainWorker.Staleness

/-! # What rounds one after the other store

Every stored path was computed by one of them, and a pair that one of them computed stays. -/

namespace Aggregator

variable {T : Config}

/-! ## One round -/

/-- The prices that the round fetches. -/
def Round.fetched (r : Round T) : List (PairAndPrice T.Currency Provider T.amountBits) :=
  fetchedPairs r.env (r.read (ChainState.genesis T))

theorem Round.mem_fetched_iff {r : Round T} {q : PairAndPrice T.Currency Provider T.amountBits} :
    q ∈ r.fetched ↔ q.1 ∈ r.monitoredPairs ∧
      r.env.getPrice q.1.provider q.1.pair.source q.1.pair.target = some q.2 := by
  obtain ⟨pp, price⟩ := q
  simp only [fetched, fetchedPairs, List.mem_filterMap, Option.map_eq_some_iff]
  constructor
  · rintro ⟨⟨pp', u⟩, hmem, price', hprice, heq⟩
    cases heq
    exact ⟨KeyedFold.mem_of_getElem? (r.env.monitoredPairsOrder.mem_iter.mp hmem), hprice⟩
  · rintro ⟨hmem, hprice⟩
    obtain ⟨u, hu⟩ := KeyedFold.mem_iff_exists.mp hmem
    exact ⟨(pp, u), r.env.monitoredPairsOrder.mem_iter.mpr hu, price, hprice, rfl⟩

theorem mem_sentBy_iff {env : Environment T} {s : ChainState T} {blockNumber : T.BlockNumber}
    {r : InFlight T} :
    r ∈ sentBy env s blockNumber ↔
      T.bestPathCalculator (fetchedPairs env s) = .ok r.newBestPaths ∧
        fetchPricesAndUpdateBestPaths env s blockNumber = .ok (some r.payload) ∧
        r.seenBestPaths = s.bestPaths := by
  unfold sentBy
  split
  · rename_i newBestPaths payload hcalc hround
    rw [List.mem_singleton, hcalc, hround]
    constructor
    · rintro rfl
      exact ⟨rfl, rfl, rfl⟩
    · rintro ⟨hnew, hpayload, hseen⟩
      obtain ⟨payload', seen, new⟩ := r
      cases hnew
      cases hpayload
      cases hseen
      rfl
  · rename_i hnone
    simp only [List.not_mem_nil, false_iff]
    rintro ⟨hcalc, hround, -⟩
    exact hnone _ _ hcalc hround

/-- The payload of the round is sent and applied. -/
def Round.Succeeds (s : ChainState T) (r : Round T) : Prop :=
  (roundAndApply r.env (r.read s) r.blockNumber r.signature).isSome = true

def Round.sent (s : ChainState T) (r : Round T) : List T.Payload :=
  (sentBy r.env (r.read s) r.blockNumber).map InFlight.payload

/-- The round calculates this path for the pair. -/
def Round.Calculates (r : Round T) (pair : Pair T.Currency) (path : T.Path) : Prop :=
  ∃ newBestPaths, T.bestPathCalculator r.fetched = .ok newBestPaths ∧
    newBestPaths[pair]? = some path

/-- A path that is stored after a round was stored before or calculated by it. -/
theorem Round.stored_apply {r : Round T} {s : ChainState T} {pair : Pair T.Currency}
    {path : T.Path} (h : (r.apply s).bestPaths[pair]? = some path) :
    s.bestPaths[pair]? = some path ∨ r.Calculates pair path := by
  unfold Round.apply at h
  split at h
  · rename_i newBestPaths s' hround
    obtain ⟨hcalc, changes, hchanges, hs'⟩ := roundAndApply_eq_some hround
    rw [hs'] at h
    rcases getElem?_applyChanges_selectChanges hchanges pair with
      ⟨path', hnew, happlied, -⟩ | ⟨hkept, -⟩
    · exact .inr ⟨newBestPaths, hcalc, hnew.trans (happlied.symm.trans h)⟩
    · exact .inl (hkept.symm.trans h)
  · exact .inl h

theorem Round.Succeeds.mem_apply_iff {r : Round T} {s : ChainState T} (h : r.Succeeds s)
    {pair : Pair T.Currency} :
    pair ∈ (r.apply s).bestPaths ↔ pair ∈ s.bestPaths ∨ ∃ path, r.Calculates pair path := by
  obtain ⟨⟨newBestPaths, s'⟩, hround⟩ := Option.isSome_iff_exists.mp h
  have happly : r.apply s = s' := by
    unfold Round.apply
    rw [hround]
  have hcalc := (roundAndApply_eq_some hround).1
  rw [happly, mem_bestPaths_roundAndApply hround, or_comm,
    KeyedFold.mem_iff_exists (m := newBestPaths)]
  refine or_congr_right ⟨?_, ?_⟩
  · rintro ⟨path, hpath⟩
    exact ⟨path, newBestPaths, hcalc, hpath⟩
  · rintro ⟨path, newBestPaths', hcalc', hpath⟩
    cases hcalc.symm.trans hcalc'
    exact ⟨path, hpath⟩

/-! ## Runs of rounds -/

theorem ChainState.runRounds_append_singleton (s : ChainState T) (rounds : List (Round T))
    (r : Round T) : s.runRounds (rounds ++ [r]) = r.apply (s.runRounds rounds) := by
  simp [runRounds]

/-- The payloads that the rounds send, in order. -/
def ChainState.sentInRounds (s : ChainState T) : List (Round T) → List T.Payload
  | [] => []
  | r :: rounds => r.sent s ++ (r.apply s).sentInRounds rounds

theorem ChainState.sentInRounds_append_singleton (s : ChainState T) (rounds : List (Round T))
    (r : Round T) :
    s.sentInRounds (rounds ++ [r]) = s.sentInRounds rounds ++ r.sent (s.runRounds rounds) := by
  induction rounds generalizing s with
  | nil => simp [sentInRounds, runRounds]
  | cons r' rounds ih =>
      rw [List.cons_append, sentInRounds, ih, sentInRounds, List.append_assoc]
      rfl

theorem ChainState.stored_runRounds {rounds : List (Round T)} {pair : Pair T.Currency}
    {path : T.Path}
    (h : ((ChainState.genesis T).runRounds rounds).bestPaths[pair]? = some path) :
    ∃ r ∈ rounds, r.Calculates pair path := by
  induction rounds using List.reverseRecOn with
  | nil => cases h
  | append_singleton rounds r ih =>
      rw [runRounds_append_singleton] at h
      rcases Round.stored_apply h with h | h
      · obtain ⟨r', hr', hcalc⟩ := ih h
        exact ⟨r', List.mem_append_left _ hr', hcalc⟩
      · exact ⟨r, List.mem_append_right _ (List.mem_singleton.mpr rfl), h⟩

theorem ChainState.mem_runRounds_iff {rounds : List (Round T)} {pair : Pair T.Currency}
    (h : Run.Along (fun s r => r.apply s) Round.Succeeds (ChainState.genesis T) rounds) :
    pair ∈ ((ChainState.genesis T).runRounds rounds).bestPaths ↔
      ∃ r ∈ rounds, ∃ path, r.Calculates pair path := by
  induction rounds using List.reverseRecOn with
  | nil => simp [runRounds, genesis]
  | append_singleton rounds r ih =>
      obtain ⟨hrounds, hsucceeds, -⟩ := Run.along_append.mp h
      have hlast : r.Succeeds ((genesis T).runRounds rounds) := hsucceeds
      rw [runRounds_append_singleton, hlast.mem_apply_iff, ih hrounds]
      simp [or_and_right, exists_or]

end Aggregator
