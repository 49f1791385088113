import Aggregator.Verification.OffchainWorker.Drift
import Aggregator.Verification.OffchainWorker.Fixpoint
import Aggregator.Verification.OffchainWorker.Orders

/-! # Unchanged prices

Once a round has settled, rounds that fetch the same prices send nothing, in whatever order
each of them iterates the storage. -/

namespace Aggregator

open FloydWarshallCalculator

variable {T : Config}

/-- Nothing is selected again: what was selected is stored, and the rest is within the
tolerance. -/
theorem selectChanges_eq_nil_of_samePrices {order order' : IterOrder (Pair T.Currency) T.Path}
    {bestPaths newBestPaths newBestPaths' : T.BestPaths} {changes changes' : List T.Change}
    (hnew : SamePrices newBestPaths newBestPaths')
    (h : selectChanges order bestPaths newBestPaths = .ok changes)
    (h' : selectChanges order' (applyChanges changes bestPaths) newBestPaths' = .ok changes') :
    changes' = [] := by
  refine List.eq_nil_iff_forall_not_mem.mpr fun change hchange => ?_
  obtain ⟨pair, path', rfl, hpath', hbreach⟩ := (mem_selectChanges h').mp hchange
  obtain ⟨path, hpath, htotal⟩ := hnew.symm.exists_path hpath'
  rcases getElem?_applyChanges_selectChanges h pair with ⟨path₁, hpath₁, heq, -⟩ | ⟨heq, hkept⟩
  · obtain rfl := Option.some.inj (hpath.symm.trans hpath₁)
    have htrue := hbreach path heq
    rw [htotal] at htrue
    exact breachesTolerance_self htrue
  · obtain ⟨old, hold, hfalse⟩ := hkept path hpath
    have htrue := hbreach old (heq.trans hold)
    rw [← htotal, hfalse] at htrue
    cases htrue

variable {α : Type} [AddCommGroup α] [LinearOrder α] [IsOrderedAddMonoid α] {L : Algo.Log2 ℚ α}
  {r r' : Round T} {s t : ChainState T}

/-- A round on the prices of a settled one sends nothing and stores nothing. -/
theorem Round.Settles.sent_eq_nil (hcalc : T.bestPathCalculator = calcBestPaths L)
    (h : r.Settles s) (hprices : r.fetched.Perm r'.fetched)
    (ht : t.bestPaths = (r.apply s).bestPaths) :
    r'.sent t = [] ∧ (r'.apply t).bestPaths = t.bestPaths := by
  obtain ⟨newBestPaths, changes, hnew, hchanges, happly⟩ := h.exists_changes
  have hnothing : ∀ payload,
      fetchPricesAndUpdateBestPaths r'.env (r'.read t) r'.blockNumber ≠ .ok (some payload) := by
    intro payload hround
    obtain ⟨-, ⟨newBestPaths', hnew', hchanges'⟩, hne, -⟩ :=
      fetchPricesAndUpdateBestPaths_eq_ok_some_iff.mp hround
    obtain ⟨m, hm, hsame⟩ := Round.exists_samePrices hcalc hprices hnew
    cases hnew'.symm.trans hm
    have hread : (r'.read t).bestPaths = applyChanges changes s.bestPaths := ht.trans happly
    rw [hread] at hchanges'
    exact hne (selectChanges_eq_nil_of_samePrices hsame hchanges hchanges')
  constructor
  · refine List.map_eq_nil_iff.mpr (List.eq_nil_iff_forall_not_mem.mpr fun x hx => ?_)
    exact hnothing _ (mem_sentBy_iff.mp hx).2.1
  · refine Round.bestPaths_apply_of_not_succeeds fun hsucceeds => ?_
    obtain ⟨⟨newBestPaths', t'⟩, hround⟩ := Option.isSome_iff_exists.mp hsucceeds
    obtain ⟨-, payload, hpayload, -⟩ := roundAndApply_eq_some_iff.mp hround
    exact hnothing payload hpayload

/-- As long as the prices do not change, the rounds after a settled one send nothing and leave
the best paths alone. -/
theorem ChainState.runRounds_quiet {rounds : List (Round T)}
    (hcalc : T.bestPathCalculator = calcBestPaths L) (h : r.Settles s)
    (hprices : ∀ r' ∈ rounds, r.fetched.Perm r'.fetched) :
    (r.apply s).sentInRounds rounds = [] ∧
      ((r.apply s).runRounds rounds).bestPaths = (r.apply s).bestPaths := by
  suffices hquiet : ∀ t : ChainState T, t.bestPaths = (r.apply s).bestPaths →
      t.sentInRounds rounds = [] ∧ (t.runRounds rounds).bestPaths = t.bestPaths from
    hquiet _ rfl
  induction rounds with
  | nil => exact fun t _ => ⟨rfl, rfl⟩
  | cons r' rounds ih =>
      intro t ht
      obtain ⟨hsent, happly⟩ := h.sent_eq_nil hcalc (hprices r' List.mem_cons_self) ht
      obtain ⟨hsents, hruns⟩ := ih (fun r'' hr'' => hprices r'' (List.mem_cons_of_mem _ hr''))
        (r'.apply t) (happly.trans ht)
      rw [sentInRounds, hsent, hsents]
      exact ⟨rfl, hruns.trans happly⟩

end Aggregator
