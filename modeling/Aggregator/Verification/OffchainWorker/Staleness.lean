import Aggregator.Model.Runtime
import Aggregator.Verification.Calculator.Connected
import Aggregator.Verification.OffchainWorker.Round

/-! # Paths that are no longer computed

A round never asks for a removal, so a stored path leaves the storage only by being
replaced. -/

namespace Aggregator

variable {T : Config}

/-! ## A round applied to the state it read -/

theorem roundAndApply_eq_some_iff {env : Environment T} {s s' : ChainState T}
    {blockNumber : T.BlockNumber} {signature : T.Signature} {newBestPaths : T.BestPaths} :
    roundAndApply env s blockNumber signature = some (newBestPaths, s') ↔
      T.bestPathCalculator (fetchedPairs env s) = .ok newBestPaths ∧
        ∃ payload, fetchPricesAndUpdateBestPaths env s blockNumber = .ok (some payload) ∧
          ocwSubmitBestPathsChanges .none payload signature s = .ok s' := by
  simp only [roundAndApply, Option.bind_eq_bind, Option.bind_eq_some_iff,
    Exec.toOption_eq_some_iff, Option.join_eq_some_iff]
  constructor
  · rintro ⟨_, hcalc, payload, hround, _, hsubmit, h⟩
    cases h
    exact ⟨hcalc, payload, hround, hsubmit⟩
  · rintro ⟨hcalc, payload, hround, hsubmit⟩
    exact ⟨_, hcalc, payload, hround, _, hsubmit, rfl⟩

theorem roundAndApply_eq_some {env : Environment T} {s s' : ChainState T}
    {blockNumber : T.BlockNumber} {signature : T.Signature} {newBestPaths : T.BestPaths}
    (h : roundAndApply env s blockNumber signature = some (newBestPaths, s')) :
    T.bestPathCalculator (fetchedPairs env s) = .ok newBestPaths ∧
      ∃ changes, selectChanges env.bestPathsOrder s.bestPaths newBestPaths = .ok changes ∧
        s'.bestPaths = applyChanges changes s.bestPaths := by
  obtain ⟨hcalc, payload, hround, hsubmit⟩ := roundAndApply_eq_some_iff.mp h
  obtain ⟨newBestPaths', hcalc', hchanges, -⟩ := fetchPricesAndUpdateBestPaths_eq_ok hround
  rw [hcalc] at hcalc'
  cases hcalc'
  obtain ⟨-, -, events, rfl⟩ := ocwSubmitBestPathsChanges_eq_ok hsubmit
  exact ⟨hcalc, payload.changes, hchanges, rfl⟩

/-- The pairs stored after a round are the new ones and all that were stored before. -/
theorem mem_bestPaths_roundAndApply {env : Environment T} {s s' : ChainState T}
    {blockNumber : T.BlockNumber} {signature : T.Signature} {newBestPaths : T.BestPaths}
    (h : roundAndApply env s blockNumber signature = some (newBestPaths, s'))
    {pair : Pair T.Currency} :
    pair ∈ s'.bestPaths ↔ pair ∈ newBestPaths ∨ pair ∈ s.bestPaths := by
  obtain ⟨-, changes, hchanges, hs'⟩ := roundAndApply_eq_some h
  rw [hs']
  simp only [KeyedFold.mem_iff_exists]
  rcases getElem?_applyChanges_selectChanges hchanges pair with ⟨path, hnew, heq, -⟩ | ⟨heq, hkept⟩
  · simp [heq, hnew]
  · rw [heq]
    refine ⟨.inr, ?_⟩
    rintro (⟨path, hpath⟩ | hold)
    · obtain ⟨old, hold, -⟩ := hkept path hpath
      exact ⟨old, hold⟩
    · exact hold

/-! ## The pairs of each calculator -/

/-- The calculator gives a path to exactly the linked pairs. -/
def GivesPathTo {C P : Type} [LinearOrder C] {w : ℕ} (calcBestPaths : BestPathCalculator C P w)
    (linked : List (PairAndPrice C P w) → Pair C → Prop) : Prop :=
  ∀ quotes res, calcBestPaths quotes = .ok res → ∀ pair : Pair C, pair ∈ res ↔ linked quotes pair

theorem floydWarshall_givesPathTo {C P : Type} [LinearOrder C] [LinearOrder P] {w : ℕ} {α : Type}
    [AddCommGroup α] [LinearOrder α] [IsOrderedAddMonoid α] (L : Algo.Log2 ℚ α) :
    GivesPathTo (FloydWarshallCalculator.calcBestPaths L : BestPathCalculator C P w)
      FloydWarshallCalculator.Connected :=
  fun _ _ h _ => (FloydWarshallCalculator.bestPricePaths_of_eq_ok L h).mem_iff_connected

theorem noop_givesPathTo {C P : Type} [LinearOrder C] {w : ℕ} :
    GivesPathTo (NoBestPathCalculator.calcBestPaths : BestPathCalculator C P w)
      (fun quotes pair => ∃ q ∈ quotes, q.1.pair = pair) := by
  intro quotes res h pair
  cases h
  rw [KeyedFold.mem_ofList]
  simp

theorem keys_iff_of_givesPathTo {linked : List (PairAndPrice T.Currency Provider T.amountBits) →
      Pair T.Currency → Prop}
    (hcalc : GivesPathTo T.bestPathCalculator linked) {env : Environment T} {s s' : ChainState T}
    {blockNumber : T.BlockNumber} {signature : T.Signature} {newBestPaths : T.BestPaths}
    (h : roundAndApply env s blockNumber signature = some (newBestPaths, s')) :
    (∀ pair : Pair T.Currency, pair ∈ s'.bestPaths ↔ pair ∈ newBestPaths) ↔
      ∀ pair ∈ s.bestPaths, linked (fetchedPairs env s) pair := by
  have hlinked := hcalc _ _ (roundAndApply_eq_some h).1
  simp only [mem_bestPaths_roundAndApply h, ← hlinked]
  exact forall_congr' fun pair => ⟨fun hkeys hmem => hkeys.mp (.inr hmem),
    fun hstored => ⟨fun hmem => hmem.elim id hstored, .inl⟩⟩

/-- The pairs stored after a round are the newly computed ones exactly when every pair
stored before is still linked by the fetched prices. -/
theorem roundAndApply_keys_iff {env : Environment T} {s s' : ChainState T}
    {blockNumber : T.BlockNumber} {signature : T.Signature} {newBestPaths : T.BestPaths}
    (h : roundAndApply env s blockNumber signature = some (newBestPaths, s')) :
    (∀ linked, GivesPathTo T.bestPathCalculator linked →
      ((∀ pair : Pair T.Currency, pair ∈ s'.bestPaths ↔ pair ∈ newBestPaths) ↔
        ∀ pair ∈ s.bestPaths, linked (fetchedPairs env s) pair)) ∧
    (∀ {α : Type} [AddCommGroup α] [LinearOrder α] [IsOrderedAddMonoid α] (L : Algo.Log2 ℚ α),
      T.bestPathCalculator = FloydWarshallCalculator.calcBestPaths L →
      ((∀ pair : Pair T.Currency, pair ∈ s'.bestPaths ↔ pair ∈ newBestPaths) ↔
        ∀ pair ∈ s.bestPaths, FloydWarshallCalculator.Connected (fetchedPairs env s) pair)) ∧
    (T.bestPathCalculator = NoBestPathCalculator.calcBestPaths →
      ((∀ pair : Pair T.Currency, pair ∈ s'.bestPaths ↔ pair ∈ newBestPaths) ↔
        ∀ pair ∈ s.bestPaths, ∃ q ∈ fetchedPairs env s, q.1.pair = pair)) := by
  refine ⟨fun linked hcalc => keys_iff_of_givesPathTo hcalc h, fun L hcalc => ?_, fun hcalc => ?_⟩
  · exact keys_iff_of_givesPathTo (hcalc ▸ floydWarshall_givesPathTo L) h
  · exact keys_iff_of_givesPathTo (hcalc ▸ noop_givesPathTo) h

/-! ## A pair that is monitored no longer -/

/-- A pair is monitored, its price is stored, and root replaces it by another pair. -/
def replacedPairRun : List (Action (nodeRuntime Algo.Log2.rational)) :=
  let stored : List (Action (nodeRuntime Algo.Log2.rational)) :=
    [.dispatch .root (.addWhitelistedOffchainAuthority 7),
      .dispatch .root (.submitMonitoredPairs [⟨⟨⟨btc, usdt⟩, .cryptoCompare⟩, .add⟩]),
      .round (mockEnvironment _ 50000) 1]
  stored ++ submitNewest ((Network.genesis _).run stored) ++
    [.dispatch .root (.submitMonitoredPairs
      [⟨⟨⟨btc, usdt⟩, .cryptoCompare⟩, .del⟩, ⟨⟨⟨eth, usdt⟩, .cryptoCompare⟩, .add⟩])]

theorem roundAndApply_keys_iff_replacedPairRun :
    ∃ newBestPaths s', roundAndApply (mockEnvironment _ 50000)
        ((Network.genesis _).run replacedPairRun).chain 2 7 = some (newBestPaths, s') ∧
      ((∀ pair : Pair (List UInt8), pair ∈ s'.bestPaths ↔ pair ∈ newBestPaths) ↔
        ∀ pair ∈ ((Network.genesis _).run replacedPairRun).chain.bestPaths,
          FloydWarshallCalculator.Connected (fetchedPairs (mockEnvironment _ 50000)
            ((Network.genesis _).run replacedPairRun).chain) pair) := by
  have heval : (roundAndApply (mockEnvironment _ 50000)
      ((Network.genesis _).run replacedPairRun).chain 2 7).isSome = true := by decide +kernel
  obtain ⟨⟨newBestPaths, s'⟩, hround⟩ := Option.isSome_iff_exists.mp heval
  exact ⟨newBestPaths, s', hround,
    (roundAndApply_keys_iff hround).2.1 Algo.Log2.rational rfl⟩

/-- The next round leaves the path of the deleted pair in the storage. -/
theorem roundAndApply_replacedPairRun :
    ∃ newBestPaths s', roundAndApply (mockEnvironment _ 50000)
        ((Network.genesis _).run replacedPairRun).chain 2 7 = some (newBestPaths, s') ∧
      ¬ ∀ pair : Pair (List UInt8), pair ∈ s'.bestPaths ↔ pair ∈ newBestPaths := by
  have heval : (roundAndApply (mockEnvironment _ 50000)
      ((Network.genesis _).run replacedPairRun).chain 2 7).map (fun r =>
        (decide ((⟨btc, usdt⟩ : Pair (List UInt8)) ∈ r.2.bestPaths),
          decide ((⟨btc, usdt⟩ : Pair (List UInt8)) ∈ r.1))) = some (true, false) := by
    decide +kernel
  obtain ⟨⟨newBestPaths, s'⟩, hround, hmem⟩ := Option.map_eq_some_iff.mp heval
  refine ⟨newBestPaths, s', hround, fun hkeys => ?_⟩
  simp only [Prod.mk.injEq, decide_eq_true_eq, decide_eq_false_iff_not] at hmem
  exact hmem.2 ((hkeys _).mp hmem.1)

end Aggregator
