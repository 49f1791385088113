import Aggregator.Verification.OffchainWorker.Staleness
import Aggregator.Verification.OffchainWorker.Tolerance

/-! # A round repeated on its own result

Every pair of the new best paths ends with its new path or with one within the tolerance
of it, so a second round has nothing to select. -/

namespace Aggregator

variable {T : Config} {order order' : IterOrder (Pair T.Currency) T.Path}
  {bestPaths newBestPaths : T.BestPaths} {changes changes' : List T.Change}

/-- The new costs are numbers of at most 128 bits. -/
def Convertible (newBestPaths : T.BestPaths) : Prop :=
  ∀ (pair : Pair T.Currency) (path : T.Path), newBestPaths[pair]? = some path →
    path.totalCost.toNat ≤ u128Max

theorem convertible_of_amountBits_le (hbits : T.amountBits ≤ 128) : Convertible newBestPaths := by
  intro pair path _
  have hlt : path.totalCost.toNat < 2 ^ 128 :=
    path.totalCost.isLt.trans_le (Nat.pow_le_pow_right two_pos hbits)
  unfold u128Max
  omega

/-! ## The second list -/

theorem breachesTolerance_self {ε : Type} {cost tolerance : ℕ} :
    (breachesTolerance cost cost tolerance : Exec ε Bool) ≠ .ok true := by
  intro h
  have heq := (breachesTolerance_eq_ok_iff.mp h).2
  simp [saturatingMul] at heq

/-- No change is selected on what the selected changes made of the storage. -/
theorem selectChanges_applyChanges_eq_nil
    (h : selectChanges order bestPaths newBestPaths = .ok changes)
    (h' : selectChanges order' (applyChanges changes bestPaths) newBestPaths = .ok changes') :
    changes' = [] := by
  refine List.eq_nil_iff_forall_not_mem.mpr fun change hchange => ?_
  obtain ⟨pair, path, rfl, hpath, hbreach⟩ := (mem_selectChanges h').mp hchange
  rcases getElem?_applyChanges_selectChanges h pair with ⟨path', hpath', heq, -⟩ | ⟨heq, hkept⟩
  · -- the pair has the new path, which differs from itself by nothing
    obtain rfl := Option.some.inj (hpath.symm.trans hpath')
    exact breachesTolerance_self (hbreach path heq)
  · -- the pair kept a path within the tolerance
    obtain ⟨old, hold, hfalse⟩ := hkept path hpath
    have htrue := hbreach old (heq.trans hold)
    rw [hfalse] at htrue
    cases htrue

/-- The second list is computed: what the first one could print and compare, it can. -/
theorem selectChanges_applyChanges
    (h : selectChanges order bestPaths newBestPaths = .ok changes)
    (hpos : ∀ (pair : Pair T.Currency) (path : T.Path), newBestPaths[pair]? = some path →
      path.totalCost ≠ 0)
    (hconv : Convertible newBestPaths) :
    selectChanges order' (applyChanges changes bestPaths) newBestPaths = .ok [] := by
  obtain ⟨hstored, hadded⟩ := exists_selectChanges_eq_ok_iff.mp ⟨changes, h⟩
  have hlog : ∀ pair ∈ newBestPaths, Loggable pair := by
    intro pair hpair
    by_cases hmem : pair ∈ bestPaths
    · obtain ⟨old, hold⟩ := KeyedFold.mem_iff_exists.mp hmem
      exact (hstored pair old hold).1
    · exact hadded pair hpair hmem
  have hok : ∃ changes', selectChanges order' (applyChanges changes bestPaths) newBestPaths =
      .ok changes' := by
    refine exists_selectChanges_eq_ok_iff.mpr ⟨fun pair old hold => ?_, fun pair hpair _ =>
      hlog pair hpair⟩
    rcases getElem?_applyChanges_selectChanges h pair with ⟨path, hpath, heq, -⟩ | ⟨heq, -⟩
    · obtain rfl := Option.some.inj (heq.symm.trans hold)
      refine ⟨hlog pair (KeyedFold.mem_of_getElem? hpath), fun path' hpath' => ?_⟩
      refine ⟨hconv pair path hpath, hconv pair path' hpath', fun hzero => ?_⟩
      exact hpos pair path hpath (BitVec.eq_of_toNat_eq hzero)
    · exact hstored pair old (heq ▸ hold)
  obtain ⟨changes', h'⟩ := hok
  rw [h', selectChanges_applyChanges_eq_nil h h']

/-! ## The second round -/

/-- A round that selects nothing sends nothing. -/
theorem fetchPricesAndUpdateBestPaths_of_nil {env : Environment T} {s : ChainState T}
    {blockNumber : T.BlockNumber}
    (hcalc : T.bestPathCalculator (fetchedPairs env s) = .ok newBestPaths)
    (h : selectChanges env.bestPathsOrder s.bestPaths newBestPaths = .ok []) :
    fetchPricesAndUpdateBestPaths env s blockNumber = .ok none := by
  simp only [fetchPricesAndUpdateBestPaths, hcalc, Exec.mapErr, Exec.ok_bind, h]
  split <;> rfl

/-- When the payload of a round is applied to the state it was built from, a second round with
the same best paths selects nothing and sends nothing, in whatever order the storage is read. -/
theorem round_fixpoint {s s' : ChainState T} {payload : T.Payload} {signature : T.Signature}
    (hselect : selectChanges order s.bestPaths newBestPaths = .ok payload.changes)
    (hsubmit : ocwSubmitBestPathsChanges .none payload signature s = .ok s')
    (hpos : ∀ (pair : Pair T.Currency) (path : T.Path), newBestPaths[pair]? = some path →
      path.totalCost ≠ 0) :
    (∀ order' changes', selectChanges order' s'.bestPaths newBestPaths = .ok changes' →
      changes' = []) ∧
    (Convertible newBestPaths → ∀ order', selectChanges order' s'.bestPaths newBestPaths =
      .ok []) ∧
    ∀ (env : Environment T) (blockNumber : T.BlockNumber),
      T.bestPathCalculator (fetchedPairs env s') = .ok newBestPaths →
      (∀ payload', fetchPricesAndUpdateBestPaths env s' blockNumber ≠ .ok (some payload')) ∧
      (Convertible newBestPaths → fetchPricesAndUpdateBestPaths env s' blockNumber = .ok none) := by
  obtain ⟨-, -, events, rfl⟩ := ocwSubmitBestPathsChanges_eq_ok hsubmit
  refine ⟨fun order' changes' h' => selectChanges_applyChanges_eq_nil hselect h',
    fun hconv order' => selectChanges_applyChanges hselect hpos hconv,
    fun env blockNumber hcalc => ⟨fun payload' hround => ?_, fun hconv => ?_⟩⟩
  · obtain ⟨newBestPaths', hcalc', hchanges, -⟩ := fetchPricesAndUpdateBestPaths_eq_ok hround
    rw [hcalc] at hcalc'
    cases hcalc'
    have hnil := selectChanges_applyChanges_eq_nil hselect hchanges
    exact fetchPricesAndUpdateBestPaths_changes_ne_nil hround hnil
  · exact fetchPricesAndUpdateBestPaths_of_nil hcalc
      (selectChanges_applyChanges hselect hpos hconv)

/-! ## Two rounds of the node's runtime -/

/-- Three pairs are stored, two of which are monitored. -/
def steadyState : ChainState (nodeRuntime Algo.Log2.rational) :=
  { (ChainState.genesis (nodeRuntime Algo.Log2.rational)).advance with
    bestPaths := applyChanges (T := nodeRuntime Algo.Log2.rational)
      [(btc, usdt, some ⟨40000000, []⟩), (eth, usdt, some ⟨3000000, []⟩),
        (btc, eth, some ⟨9, []⟩)] ∅
    monitoredPairs := usdtPairs [btc, eth] }

/-- The price of the one monitored pair has gone up by a quarter, that of the other by less
than 1 ppm. -/
def steadyEnvironment : Environment (nodeRuntime Algo.Log2.rational) :=
  { mockEnvironment Algo.Log2.rational 0 with
    getPrice := fun _ source _ => some (if source = btc then 50000000 else 3000002) }

/-- The first round adds the identities and changes one stored pair, but not the one within the
tolerance nor the one it does not compute. The second round has nothing to send. -/
theorem round_fixpoint_steadyState :
    ∃ newBestPaths payload s',
      FloydWarshallCalculator.calcBestPaths Algo.Log2.rational
        (fetchedPairs steadyEnvironment steadyState) = .ok newBestPaths ∧
      fetchPricesAndUpdateBestPaths steadyEnvironment steadyState 1 = .ok (some payload) ∧
      ocwSubmitBestPathsChanges .none payload 7 steadyState = .ok s' ∧
      [(btc, btc), (btc, usdt), (eth, usdt), (btc, eth)].map (fun x =>
          (s'.bestPaths[(⟨x.1, x.2⟩ : Pair (List UInt8))]?).map fun path =>
            path.totalCost.toNat) =
        [some 1000000000000, some 50000000, some 3000000, some 9] ∧
      FloydWarshallCalculator.calcBestPaths Algo.Log2.rational
        (fetchedPairs steadyEnvironment s') = .ok newBestPaths ∧
      (∀ order', selectChanges order' s'.bestPaths newBestPaths = .ok []) ∧
      fetchPricesAndUpdateBestPaths steadyEnvironment s' 2 = .ok none := by
  have heval : (roundAndApply steadyEnvironment steadyState 1 7).map (fun x =>
      (x.1.toList.all fun entry => entry.2.totalCost ≠ 0,
        [(btc, btc), (btc, usdt), (eth, usdt), (btc, eth)].map fun y =>
          (x.2.bestPaths[(⟨y.1, y.2⟩ : Pair (List UInt8))]?).map fun path =>
            path.totalCost.toNat)) =
      some (true, [some 1000000000000, some 50000000, some 3000000, some 9]) := by
    decide +kernel
  obtain ⟨⟨newBestPaths, s'⟩, hrun, hfacts⟩ := Option.map_eq_some_iff.mp heval
  obtain ⟨hpositive, hcosts⟩ := Prod.mk.inj hfacts
  obtain ⟨hcalc, payload, hround, hsubmit⟩ := roundAndApply_eq_some_iff.mp hrun
  have hpos : ∀ (pair : Pair (nodeRuntime Algo.Log2.rational).Currency)
      (path : (nodeRuntime Algo.Log2.rational).Path),
      newBestPaths[pair]? = some path → path.totalCost ≠ 0 := by
    intro pair path hpath
    have hmem : (pair, path) ∈ newBestPaths.toList := KeyedFold.mem_toList_iff.mpr hpath
    exact of_decide_eq_true (List.all_eq_true.mp hpositive _ hmem)
  obtain ⟨newBestPaths', hcalc', hchanges, -⟩ := fetchPricesAndUpdateBestPaths_eq_ok hround
  rw [hcalc] at hcalc'
  cases hcalc'
  have hagain : (nodeRuntime Algo.Log2.rational).bestPathCalculator
      (fetchedPairs steadyEnvironment s') = .ok newBestPaths := by
    obtain ⟨-, -, events, rfl⟩ := ocwSubmitBestPathsChanges_eq_ok hsubmit
    exact hcalc
  have hconv : Convertible newBestPaths := convertible_of_amountBits_le le_rfl
  obtain ⟨-, hselect, hsecond⟩ := round_fixpoint hchanges hsubmit hpos
  exact ⟨newBestPaths, payload, s', hcalc, hround, hsubmit, hcosts, hagain, hselect hconv,
    (hsecond steadyEnvironment 2 hagain).2 hconv⟩

end Aggregator
