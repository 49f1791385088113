import Aggregator.Verification.OffchainWorker.SerialRounds
import Aggregator.Verification.OffchainWorker.Tolerance

/-! # Small changes do not add up

A round compares what it calculates with what is stored, not with what the round before it
calculated. So the stored total of a pair stays within the tolerance of the last calculated
one, however many rounds have found a change too small to send. -/

namespace Aggregator

variable {T : Config}

/-- The two totals differ by at most the tolerance, in whole parts per million of the stored one,
or the stored one is so large that the saturated product makes any change a small one. -/
def WithinTolerance (T : Config) (stored calculated : T.Amount) : Prop :=
  stored = calculated ∨ stored ≠ 0 ∧
    (u128Max < stored.toNat * (T.priceChangeTolerance.toNat + 1) ∨
      exactDelta stored.toNat calculated.toNat ≤ T.priceChangeTolerance.toNat)

/-- The payload of the round is applied, or the round has prices but nothing to send. -/
def Round.Settles (s : ChainState T) (r : Round T) : Prop :=
  r.Succeeds s ∨
    r.fetched ≠ [] ∧ fetchPricesAndUpdateBestPaths r.env (r.read s) r.blockNumber = .ok none

theorem withinTolerance_of_breachesTolerance {stored calculated : T.Amount} {ε : Type}
    (h : (breachesTolerance stored.toNat calculated.toNat T.priceChangeTolerance.toNat :
      Exec ε Bool) = .ok false) : WithinTolerance T stored calculated := by
  obtain ⟨hne, hfalse⟩ := breachesTolerance_eq_ok_iff.mp h
  rw [saturatingMul_costChange, eq_comm, decide_eq_false_iff_not, not_lt, min_div_le_iff hne]
    at hfalse
  refine .inr ⟨fun hzero => hne ?_, hfalse⟩
  rw [hzero]
  rfl

/-! ## One round -/

variable {r : Round T} {s : ChainState T} {pair : Pair T.Currency}

/-- A round without an applied payload leaves the best paths alone. -/
theorem Round.bestPaths_apply_of_not_succeeds (h : ¬ r.Succeeds s) :
    (r.apply s).bestPaths = s.bestPaths := by
  rw [Succeeds, Option.not_isSome_iff_eq_none] at h
  rw [apply, h]
  rfl

theorem fetchPricesAndUpdateBestPaths_eq_ok_none {env : Environment T} {s : ChainState T}
    {b : T.BlockNumber} (h : fetchPricesAndUpdateBestPaths env s b = .ok none)
    (hfetched : fetchedPairs env s ≠ []) :
    ∃ newBestPaths, T.bestPathCalculator (fetchedPairs env s) = .ok newBestPaths ∧
      selectChanges env.bestPathsOrder s.bestPaths newBestPaths = .ok [] := by
  simp only [fetchPricesAndUpdateBestPaths] at h
  rw [if_neg (by simpa using hfetched)] at h
  obtain ⟨newBestPaths, hcalc, h⟩ := Exec.bind_eq_ok_iff.mp h
  obtain ⟨changes, hchanges, h⟩ := Exec.bind_eq_ok_iff.mp h
  split at h
  · rename_i hempty
    rw [List.isEmpty_iff.mp hempty] at hchanges
    exact ⟨newBestPaths, Exec.mapErr_eq_ok_iff.mp hcalc, hchanges⟩
  · obtain ⟨account, -, h⟩ := Exec.bind_eq_ok_iff.mp h
    obtain ⟨⟨⟩, -, h⟩ := Exec.bind_eq_ok_iff.mp h
    cases h

/-- A settled round has selected its changes, and they are applied. -/
theorem Round.Settles.exists_changes (h : r.Settles s) :
    ∃ newBestPaths changes, T.bestPathCalculator r.fetched = .ok newBestPaths ∧
      selectChanges r.env.bestPathsOrder s.bestPaths newBestPaths = .ok changes ∧
      (r.apply s).bestPaths = applyChanges changes s.bestPaths := by
  by_cases hsucceeds : r.Succeeds s
  · obtain ⟨⟨newBestPaths, s'⟩, hround⟩ := Option.isSome_iff_exists.mp hsucceeds
    obtain ⟨hcalc, changes, hchanges, hs'⟩ := roundAndApply_eq_some hround
    refine ⟨newBestPaths, changes, hcalc, hchanges, ?_⟩
    rw [apply, hround]
    exact hs'
  · obtain ⟨hfetched, hnone⟩ := h.resolve_left hsucceeds
    obtain ⟨newBestPaths, hcalc, hchanges⟩ :=
      fetchPricesAndUpdateBestPaths_eq_ok_none hnone hfetched
    exact ⟨newBestPaths, [], hcalc, hchanges, bestPaths_apply_of_not_succeeds hsucceeds⟩

theorem Round.Settles.withinTolerance (h : r.Settles s) {path : T.Path}
    (hcalc : r.Calculates pair path) :
    ∃ stored, (r.apply s).bestPaths[pair]? = some stored ∧
      WithinTolerance T stored.totalCost path.totalCost := by
  obtain ⟨newBestPaths, hnew, hpath⟩ := hcalc
  obtain ⟨newBestPaths', changes, hnew', hchanges, happly⟩ := h.exists_changes
  cases hnew.symm.trans hnew'
  rw [happly]
  rcases getElem?_applyChanges_selectChanges hchanges pair with
    ⟨path', hpath', happlied, -⟩ | ⟨hsame, hkept⟩
  · obtain rfl := Option.some.inj (hpath.symm.trans hpath')
    exact ⟨path, happlied, .inl rfl⟩
  · obtain ⟨old, hold, hwithin⟩ := hkept path hpath
    exact ⟨old, hsame.trans hold, withinTolerance_of_breachesTolerance hwithin⟩

/-- A pair that a settled round does not calculate keeps its path. -/
theorem Round.getElem?_apply_of_not_calculates
    (h : r.Settles s → ∀ path, ¬ r.Calculates pair path) :
    (r.apply s).bestPaths[pair]? = s.bestPaths[pair]? := by
  by_cases hsucceeds : r.Succeeds s
  · have hsettles : r.Settles s := .inl hsucceeds
    obtain ⟨newBestPaths, changes, hcalc, hchanges, happly⟩ := hsettles.exists_changes
    rw [happly]
    rcases getElem?_applyChanges_selectChanges hchanges pair with ⟨path, hpath, -⟩ | ⟨hsame, -⟩
    · exact (h hsettles path ⟨newBestPaths, hcalc, hpath⟩).elim
    · exact hsame
  · rw [bestPaths_apply_of_not_succeeds hsucceeds]

/-! ## Runs -/

theorem ChainState.getElem?_runRounds_of_not_calculates {rounds : List (Round T)}
    (h : Run.Along (fun s r => r.apply s)
      (fun s r => Round.Settles s r → ∀ path, ¬ r.Calculates pair path) s rounds) :
    (s.runRounds rounds).bestPaths[pair]? = s.bestPaths[pair]? := by
  induction rounds generalizing s with
  | nil => rfl
  | cons r rounds ih =>
      obtain ⟨hr, hrounds⟩ := h
      exact (ih hrounds).trans (Round.getElem?_apply_of_not_calculates hr)

/-- After any rounds, also failed ones, a stored total is within the tolerance of the one that
was calculated by the last settled round that calculated the pair. -/
theorem ChainState.runRounds_withinTolerance {pre post : List (Round T)} {path : T.Path}
    (hsettles : r.Settles (s.runRounds pre)) (hcalc : r.Calculates pair path)
    (hlast : Run.Along (fun s r => r.apply s)
      (fun s r => Round.Settles s r → ∀ path, ¬ r.Calculates pair path)
      (r.apply (s.runRounds pre)) post) :
    ∃ stored, (s.runRounds (pre ++ r :: post)).bestPaths[pair]? = some stored ∧
      WithinTolerance T stored.totalCost path.totalCost := by
  have hrun : s.runRounds (pre ++ r :: post) = (r.apply (s.runRounds pre)).runRounds post := by
    simp [runRounds]
  rw [hrun, getElem?_runRounds_of_not_calculates hlast]
  exact hsettles.withinTolerance hcalc

/-- A round that monitors one pair and fetches this price. -/
def singleRound (source : List UInt8) (price : BitVec 128) :
    Round (nodeRuntime Algo.Log2.rational) where
  monitoredPairs := usdtPairs [source]
  env := mockEnvironment _ price
  blockNumber := 1
  signature := 7

/-- The second round skips a change of less than one part per million, and the third one does not
calculate the pair. -/
theorem runRounds_withinTolerance_singleRound :
    ∃ path stored, (singleRound btc 5000004).Calculates ⟨btc, usdt⟩ path ∧
      ((ChainState.genesis (nodeRuntime Algo.Log2.rational)).runRounds
        ([singleRound btc 5000000] ++ singleRound btc 5000004 ::
          [singleRound eth 5000000])).bestPaths[(⟨btc, usdt⟩ : Pair (List UInt8))]? =
            some stored ∧
      stored.totalCost.toNat = 5000000 ∧ path.totalCost.toNat = 5000004 ∧
      WithinTolerance (nodeRuntime Algo.Log2.rational) stored.totalCost path.totalCost := by
  have hcalc : ((FloydWarshallCalculator.calcBestPaths Algo.Log2.rational
      (singleRound btc 5000004).fetched).toOption.bind fun newBestPaths =>
        newBestPaths[(⟨btc, usdt⟩ : Pair (List UInt8))]?).map (fun path => path.totalCost.toNat) =
          some 5000004 := by decide +kernel
  obtain ⟨path, hpath, hnewTotal⟩ := Option.map_eq_some_iff.mp hcalc
  obtain ⟨newBestPaths, hnew, hpath⟩ := Option.bind_eq_some_iff.mp hpath
  have hcalculates : (singleRound btc 5000004).Calculates ⟨btc, usdt⟩ path :=
    ⟨newBestPaths, Exec.toOption_eq_some_iff.mp hnew, hpath⟩
  have hsettles : (singleRound btc 5000004).Settles
      ((ChainState.genesis _).runRounds [singleRound btc 5000000]) := by
    right
    refine ⟨by decide +kernel, ?_⟩
    have heval : (fetchPricesAndUpdateBestPaths (singleRound btc 5000004).env
        ((singleRound btc 5000004).read
          ((ChainState.genesis _).runRounds [singleRound btc 5000000])) 1).toOption.map
            Option.isNone = some true := by decide +kernel
    obtain ⟨sent, hsent, hnone⟩ := Option.map_eq_some_iff.mp heval
    rw [Option.isNone_iff_eq_none.mp hnone] at hsent
    exact Exec.toOption_eq_some_iff.mp hsent
  have hnone : ((FloydWarshallCalculator.calcBestPaths Algo.Log2.rational
      (singleRound eth 5000000).fetched).toOption.bind fun newBestPaths =>
        newBestPaths[(⟨btc, usdt⟩ : Pair (List UInt8))]?) = none := by decide +kernel
  have hother : ∀ path, ¬ (singleRound eth 5000000).Calculates ⟨btc, usdt⟩ path := by
    rintro path ⟨newBestPaths', hnew', hpath'⟩
    have hnew' : FloydWarshallCalculator.calcBestPaths Algo.Log2.rational
      (singleRound eth 5000000).fetched = .ok newBestPaths' := hnew'
    rw [hnew'] at hnone
    cases hnone.symm.trans hpath'
  have hlast : Run.Along (fun s r => r.apply s)
      (fun s r => Round.Settles s r → ∀ path, ¬ r.Calculates ⟨btc, usdt⟩ path)
      ((singleRound btc 5000004).apply
        ((ChainState.genesis _).runRounds [singleRound btc 5000000]))
      [singleRound eth 5000000] :=
    ⟨fun _ => hother, trivial⟩
  obtain ⟨stored, hstored, hwithin⟩ :=
    ChainState.runRounds_withinTolerance hsettles hcalculates hlast
  have htotal : (((ChainState.genesis (nodeRuntime Algo.Log2.rational)).runRounds
      ([singleRound btc 5000000] ++ singleRound btc 5000004 ::
        [singleRound eth 5000000])).bestPaths[(⟨btc, usdt⟩ : Pair (List UInt8))]?).map
          (fun path => path.totalCost.toNat) = some 5000000 := by decide +kernel
  rw [hstored] at htotal
  exact ⟨path, stored, hcalculates, hstored, Option.some.inj htotal, hnewTotal, hwithin⟩

end Aggregator
