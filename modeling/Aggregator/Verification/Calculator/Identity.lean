import Aggregator.Verification.Calculator.Correctness

/-! # The path of a currency to itself

It is the identity unless a provider quotes the currency against itself. -/

namespace Aggregator.FloydWarshallCalculator

open Algo EdgeWalk

variable {C P : Type} [LinearOrder C] [LinearOrder P] {w : ℕ} {quotes : List (PairAndPrice C P w)}

/-- A kept self-loop is the index form of a currency quoted against itself. -/
theorem exists_keptLoop_iff {edges : List (Edge ℚ)} (hgraph : graph quotes = .ok edges) {i : ℕ}
    {c : C} (hi : (currencies quotes)[i]? = some c) :
    (∃ e ∈ keptEdges edges, e.pair = ⟨i, i⟩) ↔ ∃ q ∈ quotes, q.1.pair = ⟨c, c⟩ := by
  constructor
  · rintro ⟨e, he, hpair⟩
    obtain ⟨q, hq, hsource, htarget⟩ := exists_quote_keptEdge hgraph he
    have hs : e.source = i := congrArg Pair.source hpair
    have ht : e.target = i := congrArg Pair.target hpair
    exact ⟨q, hq, congrArg₂ Pair.mk (Option.some.inj ((hs ▸ hsource).symm.trans hi))
      (Option.some.inj ((ht ▸ htarget).symm.trans hi))⟩
  · rintro ⟨q, hq, hpair⟩
    obtain ⟨e, he, hsource, htarget⟩ := exists_keptEdge_quote hgraph hq
    rw [hpair] at hsource htarget
    exact ⟨e, he, congrArg₂ Pair.mk (index_unique nodup_currencies hsource hi)
      (index_unique nodup_currencies htarget hi)⟩

/-- The index of a currency is a vertex. -/
theorem mem_vertices_of_currency {edges : List (Edge ℚ)} (hgraph : graph quotes = .ok edges)
    {i : ℕ} {c : C} (hi : (currencies quotes)[i]? = some c) : i ∈ vertices (keptEdges edges) := by
  obtain ⟨q, hq, hocc⟩ := mem_currencies.mp (List.mem_of_getElem? hi)
  obtain ⟨e, he, hsource, htarget⟩ := exists_keptEdge_quote hgraph hq
  rcases hocc with rfl | rfl
  · exact index_unique nodup_currencies hsource hi ▸ source_mem_vertices he
  · exact index_unique nodup_currencies htarget hi ▸ target_mem_vertices he

variable {α : Type} [AddCommGroup α] [LinearOrder α] [IsOrderedAddMonoid α] (L : Log2 ℚ α)

/-- The run starts and ends at a currency without edges, unless the currency is quoted against
itself; then it takes edges. -/
theorem longestPathsMult_currency {edges : List (Edge ℚ)} (hgraph : graph quotes = .ok edges)
    {lps : BTreeMap (Pair ℕ) (Path ℚ)} (hlps : longestPathsMult L edges = .ok lps) {i : ℕ} {c : C}
    (hi : (currencies quotes)[i]? = some c) :
    ∃ lp, lps[(⟨i, i⟩ : Pair ℕ)]? = some lp ∧
      ((∀ q ∈ quotes, q.1.pair ≠ ⟨c, c⟩) → lp = ⟨1, []⟩) ∧
      ∀ q ∈ quotes, q.1.pair = ⟨c, c⟩ → lp.edges ≠ [] := by
  obtain ⟨lp, hlp, hid, hloop⟩ := longestPathsMult_diagonal L
    (fun e he => cost_nonneg_of_mem_graph hgraph he) hlps (mem_vertices_of_currency hgraph hi)
  refine ⟨lp, hlp, fun hno => hid fun e he hpair => ?_, fun q hq hpair => ?_⟩
  · obtain ⟨q, hq, hself⟩ := (exists_keptLoop_iff hgraph hi).mp ⟨e, he, hpair⟩
    exact hno q hq hself
  · obtain ⟨e, he, hself⟩ := (exists_keptLoop_iff hgraph hi).mpr ⟨q, hq, hpair⟩
    exact hloop e he hself

/-- The entry of a currency that occurs has no steps and the cost of one, unless the currency
is quoted against itself; then it has steps. -/
theorem calcBestPaths_diagonal {res : BestPathMap C P w} (h : calcBestPaths L quotes = .ok res)
    {c : C} (hc : c ∈ currencies quotes) :
    ∃ path : PricePath C P (Amount w), res[(⟨c, c⟩ : Pair C)]? = some path ∧
      ((∀ q ∈ quotes, q.1.pair ≠ ⟨c, c⟩) →
        path.totalCost.toNat = 1000000000000 ∧ path.steps = []) ∧
      ∀ q ∈ quotes, q.1.pair = ⟨c, c⟩ → path.steps ≠ [] := by
  obtain ⟨edges, lps, entries, hgraph, hlps, hentries, rfl⟩ := (calcBestPaths_eq_ok_iff L).mp h
  obtain ⟨i, hi⟩ := List.getElem?_of_mem hc
  obtain ⟨lp, hlp, hid, hloop⟩ := longestPathsMult_currency L hgraph hlps hi
  obtain ⟨path, hpath, hcost, hsteps⟩ := exists_toPricePath hentries hlp hi hi
  have hlength := (Exec.mapM_eq_ok_iff.mp hsteps).length_eq
  refine ⟨path, hpath, fun hno => ?_, fun q hq hpair hnil => ?_⟩
  · obtain rfl := hid hno
    refine ⟨?_, List.length_eq_zero_iff.mp hlength.symm⟩
    have hone : (1 : ℚ) * precision = (1000000000000 : ℕ) := by norm_num [precision]
    rw [Amount.ofU128_eq_some hcost, hone]
    exact asU128_natCast (by decide)
  · rw [hnil] at hlength
    exact hloop q hq hpair (List.length_eq_zero_iff.mp hlength)

/-- The entry of every currency is the identity path exactly when no currency is quoted
against itself. -/
theorem calcBestPaths_identity_iff (quotes : List (PairAndPrice C P 128))
    {res : BestPathMap C P 128} (h : calcBestPaths L quotes = .ok res) :
    (∀ c, (∃ q ∈ quotes, q.1.pair.source = c ∨ q.1.pair.target = c) →
        res[(⟨c, c⟩ : Pair C)]? = some ⟨1000000000000, []⟩) ↔
      ∀ q ∈ quotes, q.1.pair.source ≠ q.1.pair.target := by
  constructor
  · intro hid q hq hself
    obtain ⟨path, hpath, -, hsteps⟩ :=
      calcBestPaths_diagonal L h (mem_currencies.mpr ⟨q, hq, .inl rfl⟩)
    rw [hid _ ⟨q, hq, .inl rfl⟩] at hpath
    cases hpath
    exact hsteps q hq (congrArg (Pair.mk _) hself.symm) rfl
  · intro hno c hc
    obtain ⟨path, hpath, hid, -⟩ := calcBestPaths_diagonal L h (mem_currencies.mpr hc)
    obtain ⟨hcost, hsteps⟩ := hid fun q hq hpair => by
      refine hno q hq ?_
      rw [hpair]
    rw [hpath]
    cases path
    exact congrArg some (congrArg₂ PricePath.mk (BitVec.eq_of_toNat_eq hcost) hsteps)

/-- A currency quoted at one half against itself. -/
def selfQuote : List (PairAndPrice ℕ ℕ 128) := [(⟨⟨10, 10⟩, 1⟩, 500000000000)]

/-- The quote takes the place of the identity path. -/
theorem calcBestPaths_selfQuote :
    (∀ q ∈ selfQuote, 0 < q.2) ∧ ∃ res, calcBestPaths Log2.rational selfQuote = .ok res ∧
      ¬ ∀ c, (∃ q ∈ selfQuote, q.1.pair.source = c ∨ q.1.pair.target = c) →
        res[(⟨c, c⟩ : Pair ℕ)]? = some ⟨1000000000000, []⟩ := by
  have heval : (calcBestPaths Log2.rational selfQuote).toOption.bind
      (fun res => res[(⟨10, 10⟩ : Pair ℕ)]?) =
        some ⟨500000000000, [⟨⟨10, 10⟩, 1, 500000000000⟩]⟩ := by decide +kernel
  obtain ⟨res, hres, hentry⟩ := Option.bind_eq_some_iff.mp heval
  refine ⟨by decide, res, Exec.toOption_eq_some_iff.mp hres, fun hid => ?_⟩
  have hself := hentry.symm.trans (hid 10 (by decide))
  revert hself
  decide

theorem calcBestPaths_identity_iff_sampleQuotes :
    ∃ res, calcBestPaths Log2.rational sampleQuotes = .ok res ∧
      ((∀ c, (∃ q ∈ sampleQuotes, q.1.pair.source = c ∨ q.1.pair.target = c) →
          res[(⟨c, c⟩ : Pair ℕ)]? = some ⟨1000000000000, []⟩) ↔
        ∀ q ∈ sampleQuotes, q.1.pair.source ≠ q.1.pair.target) := by
  cases hrun : calcBestPaths Log2.rational sampleQuotes with
  | ok res => exact ⟨res, rfl, calcBestPaths_identity_iff Log2.rational sampleQuotes hrun⟩
  | error e =>
      have hok : (calcBestPaths Log2.rational sampleQuotes).isOk = true := by decide +kernel
      rw [hrun] at hok
      cases hok

end Aggregator.FloydWarshallCalculator
