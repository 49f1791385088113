import Aggregator.Verification.Calculator.Permutation
import Aggregator.Verification.OffchainWorker.SerialRounds
import Aggregator.Verification.OffchainWorker.ZeroCosts

/-! # The order of the storage maps

Rounds that differ in the order in which they iterate the storage store the same totals under
the same pairs. The steps of a path may differ. -/

namespace Aggregator

open FloydWarshallCalculator

variable {T : Config}

/-- Same pairs, same totals. -/
def SamePrices (m m' : T.BestPaths) : Prop :=
  ∀ pair : Pair T.Currency, m[pair]?.map PricePath.totalCost = m'[pair]?.map PricePath.totalCost

/-- The same totals are stored, and the same submission is next. -/
structure SameTotalsStored (s s' : ChainState T) : Prop where
  prices : SamePrices s.bestPaths s'.bestPaths
  nonce : s.unsignedTxNonce = s'.unsignedTxNonce

/-- The rounds differ only in the order in which they iterate the storage maps. -/
def Round.Reordered (r r' : Round T) : Prop :=
  ∃ monitoredPairsOrder bestPathsOrder,
    r' = { r with env := { r.env with monitoredPairsOrder, bestPathsOrder } }

/-- The pool takes whatever the round sends, or nothing. -/
def Round.PoolConstant (r : Round T) : Prop := ∀ p p', r.env.submit p = r.env.submit p'

theorem SamePrices.symm {m m' : T.BestPaths} (h : SamePrices m m') : SamePrices m' m :=
  fun pair => (h pair).symm

theorem SameTotalsStored.symm {s s' : ChainState T} (h : SameTotalsStored s s') :
    SameTotalsStored s' s :=
  ⟨h.prices.symm, h.nonce.symm⟩

theorem Round.Reordered.symm {r r' : Round T} (h : r.Reordered r') : r'.Reordered r := by
  obtain ⟨o, o', rfl⟩ := h
  exact ⟨r.env.monitoredPairsOrder, r.env.bestPathsOrder, rfl⟩

/-! ## Selected changes -/

theorem SamePrices.exists_path {m m' : T.BestPaths} (h : SamePrices m m') {pair : Pair T.Currency}
    {path : T.Path} (hpath : m[pair]? = some path) :
    ∃ path', m'[pair]? = some path' ∧ path'.totalCost = path.totalCost := by
  have heq := h pair
  rw [hpath, Option.map_some, eq_comm, Option.map_eq_some_iff] at heq
  exact heq

theorem SamePrices.mem_iff {m m' : T.BestPaths} (h : SamePrices m m') {pair : Pair T.Currency} :
    pair ∈ m ↔ pair ∈ m' := by
  simp only [KeyedFold.mem_iff_exists]
  constructor
  · rintro ⟨path, hpath⟩
    obtain ⟨path', hpath', -⟩ := h.exists_path hpath
    exact ⟨path', hpath'⟩
  · rintro ⟨path, hpath⟩
    obtain ⟨path', hpath', -⟩ := h.symm.exists_path hpath
    exact ⟨path', hpath'⟩

section SelectChanges

variable {order order' : IterOrder (Pair T.Currency) T.Path}
  {bestPaths bestPaths' newBestPaths newBestPaths' : T.BestPaths} {changes changes' : List T.Change}

theorem exists_selectChanges_of_samePrices
    (order' : IterOrder (Pair T.Currency) T.Path) (hstored : SamePrices bestPaths bestPaths')
    (hnew : SamePrices newBestPaths newBestPaths')
    (h : selectChanges order bestPaths newBestPaths = .ok changes) :
    ∃ changes', selectChanges order' bestPaths' newBestPaths' = .ok changes' := by
  obtain ⟨hcompare, hadded⟩ := exists_selectChanges_eq_ok_iff.mp ⟨changes, h⟩
  refine exists_selectChanges_eq_ok_iff.mpr ⟨fun pair old' hold' => ?_, fun pair hpair hnot => ?_⟩
  · obtain ⟨old, hold, htotal⟩ := hstored.symm.exists_path hold'
    obtain ⟨hlog, hall⟩ := hcompare pair old hold
    refine ⟨hlog, fun path' hpath' => ?_⟩
    obtain ⟨path, hpath, htotal'⟩ := hnew.symm.exists_path hpath'
    obtain ⟨hold_fits, hnew_fits, hne⟩ := hall path hpath
    rw [htotal] at hold_fits hne
    rw [htotal'] at hnew_fits
    exact ⟨hold_fits, hnew_fits, hne⟩
  · exact hadded pair (hnew.mem_iff.mpr hpair) fun hmem => hnot (hstored.mem_iff.mp hmem)

/-- The same pairs are selected. -/
theorem exists_change_of_samePrices (hstored : SamePrices bestPaths bestPaths')
    (hnew : SamePrices newBestPaths newBestPaths')
    (h : selectChanges order bestPaths newBestPaths = .ok changes)
    (h' : selectChanges order' bestPaths' newBestPaths' = .ok changes') {change : T.Change}
    (hchange : change ∈ changes) : ∃ change' ∈ changes', change'.pair = change.pair := by
  obtain ⟨pair, path, rfl, hpath, hbreach⟩ := (mem_selectChanges h).mp hchange
  obtain ⟨path', hpath', htotal⟩ := hnew.exists_path hpath
  refine ⟨(pair.source, pair.target, some path'), (mem_selectChanges h').mpr
    ⟨pair, path', rfl, hpath', fun old' hold' => ?_⟩, rfl⟩
  obtain ⟨old, hold, htotal'⟩ := hstored.symm.exists_path hold'
  rw [htotal, ← htotal']
  exact hbreach old hold

/-- The selected changes leave the same totals. -/
theorem samePrices_applyChanges (hstored : SamePrices bestPaths bestPaths')
    (hnew : SamePrices newBestPaths newBestPaths')
    (h : selectChanges order bestPaths newBestPaths = .ok changes)
    (h' : selectChanges order' bestPaths' newBestPaths' = .ok changes') :
    SamePrices (applyChanges changes bestPaths) (applyChanges changes' bestPaths') := by
  intro pair
  rcases getElem?_applyChanges_selectChanges h pair with
    ⟨path, hpath, happly, hbreach⟩ | ⟨hsame, hkept⟩
  · obtain ⟨path', hpath', htotal⟩ := hnew.exists_path hpath
    rcases getElem?_applyChanges_selectChanges h' pair with
      ⟨path'', hpath'', happly', -⟩ | ⟨-, hkept'⟩
    · obtain rfl := Option.some.inj (hpath'.symm.trans hpath'')
      rw [happly, happly', Option.map_some, Option.map_some, htotal]
    · obtain ⟨old', hold', hfalse⟩ := hkept' path' hpath'
      obtain ⟨old, hold, htotal'⟩ := hstored.symm.exists_path hold'
      have htrue := hbreach old hold
      rw [htotal', ← htotal, hfalse] at htrue
      cases htrue
  · rcases getElem?_applyChanges_selectChanges h' pair with
      ⟨path', hpath', -, hbreach'⟩ | ⟨hsame', -⟩
    · obtain ⟨path, hpath, htotal⟩ := hnew.symm.exists_path hpath'
      obtain ⟨old, hold, hfalse⟩ := hkept path hpath
      obtain ⟨old', hold', htotal'⟩ := hstored.exists_path hold
      have htrue := hbreach' old' hold'
      rw [htotal', ← htotal, hfalse] at htrue
      cases htrue
    · rw [hsame, hsame', hstored pair]

/-- The changes are printable together. -/
theorem printable_of_samePrices (hstored : SamePrices bestPaths bestPaths')
    (hnew : SamePrices newBestPaths newBestPaths')
    (h : selectChanges order bestPaths newBestPaths = .ok changes)
    (h' : selectChanges order' bestPaths' newBestPaths' = .ok changes')
    (hprint : Printable changes) : Printable changes' := by
  intro hon change' hchange'
  obtain ⟨change, hchange, hpair⟩ :=
    exists_change_of_samePrices hstored.symm hnew.symm h' h hchange'
  have hsource : change.1 = change'.1 := congrArg Pair.source hpair
  have htarget : change.2.1 = change'.2.1 := congrArg Pair.target hpair
  rw [← hsource, ← htarget]
  exact hprint hon change hchange

end SelectChanges

/-! ## One round -/

section Round

variable {α : Type} [AddCommGroup α] [LinearOrder α] [IsOrderedAddMonoid α] {L : Algo.Log2 ℚ α}
  {r r' : Round T} {s s' t : ChainState T}

theorem Round.Reordered.fetched_perm (h : r.Reordered r') : r.fetched.Perm r'.fetched := by
  obtain ⟨order, order', rfl⟩ := h
  exact fetchedPairs_perm r.env order (r.read (ChainState.genesis T))

/-- Rounds that fetch the same prices calculate the same totals. -/
theorem Round.exists_samePrices (hcalc : T.bestPathCalculator = calcBestPaths L)
    (hperm : r.fetched.Perm r'.fetched) {newBestPaths : T.BestPaths}
    (hnew : T.bestPathCalculator r.fetched = .ok newBestPaths) :
    ∃ newBestPaths', T.bestPathCalculator r'.fetched = .ok newBestPaths' ∧
      SamePrices newBestPaths newBestPaths' := by
  rw [hcalc] at hnew ⊢
  rcases sameTotals_calcBestPaths L hperm with ⟨e, herr, -⟩ | ⟨m, m', hm, hm', hsame⟩
  · cases hnew.symm.trans herr
  · cases hnew.symm.trans hm
    exact ⟨m', hm', hsame⟩

/-- The reordered round succeeds too, and leaves the same totals. -/
theorem Round.Reordered.exists_roundAndApply (h : r.Reordered r') (hpool : r.PoolConstant)
    (hcalc : T.bestPathCalculator = calcBestPaths L) (hstored : SameTotalsStored s s')
    {newBestPaths : T.BestPaths}
    (hround : roundAndApply r.env (r.read s) r.blockNumber r.signature = some (newBestPaths, t)) :
    ∃ newBestPaths' t', roundAndApply r'.env (r'.read s') r'.blockNumber r'.signature =
      some (newBestPaths', t') ∧ SameTotalsStored t t' := by
  obtain ⟨hnew, payload, hpayload, hsubmit⟩ := roundAndApply_eq_some_iff.mp hround
  obtain ⟨hfetched, ⟨newBestPaths₁, hnew₁, hchanges⟩, hne, hnonce, hblock, haccount, hsent⟩ :=
    fetchPricesAndUpdateBestPaths_eq_ok_some_iff.mp hpayload
  cases hnew.symm.trans hnew₁
  obtain ⟨newBestPaths', hnew', hsame⟩ := Round.exists_samePrices hcalc h.fetched_perm hnew
  have hfetched' : r'.fetched ≠ [] := by
    intro hnil
    have hperm := h.fetched_perm
    rw [hnil] at hperm
    exact hfetched hperm.eq_nil
  obtain ⟨order, order', rfl⟩ := h
  obtain ⟨changes', hchanges'⟩ :=
    exists_selectChanges_of_samePrices order' hstored.prices hsame hchanges
  -- the payload of the reordered round is about the same pairs
  have hne' : changes' ≠ [] := by
    obtain ⟨change, hchange⟩ := List.exists_mem_of_ne_nil _ hne
    obtain ⟨change', hchange', -⟩ :=
      exists_change_of_samePrices hstored.prices hsame hchanges hchanges' hchange
    exact List.ne_nil_of_mem hchange'
  let payload' : T.Payload := ⟨changes', s'.unsignedTxNonce, r.blockNumber, payload.publicKey⟩
  obtain ⟨-, hprint, nonce, hadd⟩ := (exists_ocwSubmitBestPathsChanges_iff r.signature
    (isSome_of_mem_selectChanges hchanges)).mp ⟨t, hsubmit⟩
  have hprint' : Printable payload'.changes :=
    printable_of_samePrices hstored.prices hsame hchanges hchanges' hprint
  obtain ⟨t', hsubmit'⟩ : ∃ t', ocwSubmitBestPathsChanges .none payload' r.signature (r.read s') =
      .ok t' := (exists_ocwSubmitBestPathsChanges_iff r.signature
    (isSome_of_mem_selectChanges hchanges')).mpr ⟨rfl, hprint', nonce, hstored.nonce ▸ hadd⟩
  refine ⟨newBestPaths', t', roundAndApply_eq_some_iff.mpr ⟨hnew', payload',
    fetchPricesAndUpdateBestPaths_eq_ok_some_iff.mpr ⟨hfetched', ⟨newBestPaths', hnew',
      hchanges'⟩, hne', rfl, rfl, haccount, (hpool payload' payload).trans hsent⟩, hsubmit'⟩, ?_⟩
  obtain ⟨-, -, events, rfl⟩ := ocwSubmitBestPathsChanges_eq_ok hsubmit
  obtain ⟨-, -, events', rfl⟩ := ocwSubmitBestPathsChanges_eq_ok hsubmit'
  exact ⟨samePrices_applyChanges hstored.prices hsame hchanges hchanges',
    congrArg (· + 1) hstored.nonce⟩

theorem Round.PoolConstant.of_reordered (h : r.Reordered r') (hpool : r.PoolConstant) :
    r'.PoolConstant := by
  obtain ⟨order, order', rfl⟩ := h
  exact hpool

/-- The round and the reordered round leave the same totals, whether they succeed or not. -/
theorem Round.Reordered.apply (h : r.Reordered r') (hpool : r.PoolConstant)
    (hcalc : T.bestPathCalculator = calcBestPaths L) (hstored : SameTotalsStored s s') :
    SameTotalsStored (r.apply s) (r'.apply s') := by
  unfold Round.apply
  cases hround : roundAndApply r.env (r.read s) r.blockNumber r.signature with
  | some res =>
      obtain ⟨newBestPaths, t⟩ := res
      obtain ⟨newBestPaths', t', hround', hsame⟩ :=
        h.exists_roundAndApply hpool hcalc hstored hround
      rw [hround']
      exact hsame
  | none =>
      cases hround' : roundAndApply r'.env (r'.read s') r'.blockNumber r'.signature with
      | none => exact ⟨hstored.prices, hstored.nonce⟩
      | some res =>
          obtain ⟨newBestPaths, t, hround, -⟩ := h.symm.exists_roundAndApply
            (hpool.of_reordered h) hcalc hstored.symm hround'
          rename_i hnone
          cases hnone.symm.trans hround

/-! ## Runs -/

/-- However each round iterates the storage maps, the run ends with the same totals. -/
theorem ChainState.runRounds_order {rounds rounds' : List (Round T)}
    (hcalc : T.bestPathCalculator = calcBestPaths L)
    (hrounds : List.Forall₂ Round.Reordered rounds rounds')
    (hpool : ∀ r ∈ rounds, r.PoolConstant) (hstored : SameTotalsStored s s') :
    SameTotalsStored (s.runRounds rounds) (s'.runRounds rounds') := by
  induction hrounds generalizing s s' with
  | nil => exact hstored
  | @cons r r' rounds rounds' hr hrounds ih =>
      exact ih (fun r hr => hpool r (List.mem_cons_of_mem _ hr))
        (hr.apply (hpool r List.mem_cons_self) hcalc hstored)

end Round

/-- The order of the keys, from the last to the first. -/
def IterOrder.byKeyReversed (K V : Type) [LinearOrder K] : IterOrder K V where
  iter m := m.toList.reverse
  perm m := m.toList.reverse_perm

/-- The round on maps whose hashes reverse the order of their keys. -/
def Round.reversed (r : Round T) : Round T :=
  { r with env := { r.env with
      monitoredPairsOrder := .byKeyReversed _ _
      bestPathsOrder := .byKeyReversed _ _ } }

theorem Round.reordered_reversed (r : Round T) : r.Reordered r.reversed := ⟨_, _, rfl⟩

theorem ChainState.runRounds_order_chainRound :
    SameTotalsStored
      ((ChainState.genesis _).runRounds [chainRound 50000, chainRound 60000])
      ((ChainState.genesis _).runRounds
        [(chainRound 50000).reversed, (chainRound 60000).reversed]) := by
  refine ChainState.runRounds_order rfl (.cons (Round.reordered_reversed _)
    (.cons (Round.reordered_reversed _) .nil)) ?_ ⟨fun _ => rfl, rfl⟩
  simp only [List.mem_cons, List.not_mem_nil, or_false, forall_eq_or_imp, forall_eq]
  exact ⟨fun _ _ => rfl, fun _ _ => rfl⟩

end Aggregator
