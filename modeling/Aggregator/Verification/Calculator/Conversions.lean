import Aggregator.Verification.Calculator.Identity

/-! # Prices and totals that do not fit

A price that does not fit a `u128` is answered with an error. A total that does not fit an
amount is unwrapped. Which of them a run meets is decided by the fetched prices alone. -/

namespace Aggregator.FloydWarshallCalculator

open Algo EdgeWalk

variable {C P : Type} {w : ℕ}

/-- Every price converts to a `u128`. -/
def Convertible (quotes : List (PairAndPrice C P w)) : Prop :=
  ∀ q ∈ quotes, q.2.toNat ≤ u128Max

theorem convertible_iff {quotes : List (PairAndPrice C P w)} :
    Convertible quotes ↔ ¬ ∃ q ∈ quotes, q.2.toU128 = none := by
  simp [Convertible, Amount.toU128]

/-- No closed chain of lowest prices multiplies to more than one. -/
def NoPriceArbitrage (quotes : List (PairAndPrice C P w)) : Prop :=
  ∀ c steps, CheapestWalk quotes c steps c → stepProduct steps ≤ 1

/-- An amount of `w` bits holds every product along a chain of lowest prices, and the price of
one where a currency is not quoted against itself. -/
structure AmountsFit (quotes : List (PairAndPrice C P w)) : Prop where
  chain : ∀ s steps t, CheapestWalk quotes s steps t → steps ≠ [] →
    asU128 (stepProduct steps * precision) < 2 ^ w
  identity : ∀ q ∈ quotes, ∀ c, q.1.pair.source = c ∨ q.1.pair.target = c →
    (∀ q' ∈ quotes, q'.1.pair ≠ ⟨c, c⟩) → asU128 precision < 2 ^ w

theorem asU128_zero : asU128 0 = 0 := by simp [asU128]

theorem Amount.ofU128_eq_none {n : ℕ} (h : ¬ n < 2 ^ w) :
    (Amount.ofU128 n : Option (Amount w)) = none :=
  if_neg h

variable [LinearOrder C] [LinearOrder P] {quotes : List (PairAndPrice C P w)}
  {edges : List (Edge ℚ)}

/-! ## The graph -/

/-- The graph is built from prices that convert; another price is a conversion error. -/
theorem toEdge_cases {q : PairAndPrice C P w} (hq : q ∈ quotes) :
    (q.2.toNat ≤ u128Max ∧
      ∃ e, toEdge (byInd (currencies quotes)) (byInd (providers quotes)) q = .ok e) ∨
    (¬ q.2.toNat ≤ u128Max ∧
      toEdge (byInd (currencies quotes)) (byInd (providers quotes)) q =
        .error (.err .conversionError)) := by
  have hstep : (PathStep.mk q.1.pair q.1.provider q.2).quote ∈ quotes := hq
  obtain ⟨i, hi⟩ := List.getElem?_of_mem (source_mem_currencies hstep)
  obtain ⟨j, hj⟩ := List.getElem?_of_mem (target_mem_currencies hstep)
  obtain ⟨k, hk⟩ := List.getElem?_of_mem (provider_mem_providers hstep)
  have hsource : (byInd (currencies quotes))[q.1.pair.source]? = some i :=
    (byInd_getElem? nodup_currencies).mpr hi
  have htarget : (byInd (currencies quotes))[q.1.pair.target]? = some j :=
    (byInd_getElem? nodup_currencies).mpr hj
  have hprovider : (byInd (providers quotes))[q.1.provider]? = some k :=
    (byInd_getElem? nodup_providers).mpr hk
  unfold toEdge Amount.toU128
  simp only [hsource, htarget, hprovider, Exec.orPanic_some, Exec.ok_bind]
  by_cases hfits : q.2.toNat ≤ u128Max
  · rw [if_pos hfits]
    exact .inl ⟨hfits, _, rfl⟩
  · rw [if_neg hfits]
    exact .inr ⟨hfits, rfl⟩

theorem graph_cases (quotes : List (PairAndPrice C P w)) :
    (Convertible quotes ∧ ∃ edges, graph quotes = .ok edges) ∨
    (¬ Convertible quotes ∧ graph quotes = .error (.err .conversionError)) := by
  by_cases hconv : Convertible quotes
  · left
    refine ⟨hconv, Exec.exists_mapM_eq_ok fun q hq => ?_⟩
    have hq := mem_visited.mp hq
    rcases toEdge_cases hq with ⟨-, hok⟩ | ⟨hnot, -⟩
    · exact hok
    · exact (hnot (hconv q hq)).elim
  · right
    refine ⟨hconv, Exec.mapM_eq_error (fun q hq => ?_) ?_⟩
    · rcases toEdge_cases (mem_visited.mp hq) with ⟨-, hok⟩ | ⟨-, herr⟩
      · exact .inl hok
      · exact .inr herr
    · obtain ⟨q, hq, hnot⟩ : ∃ q ∈ quotes, ¬ q.2.toNat ≤ u128Max := by
        simpa only [Convertible, not_forall, exists_prop] using hconv
      rcases toEdge_cases hq with ⟨hfits, -⟩ | ⟨-, herr⟩
      · exact (hnot hfits).elim
      · exact ⟨q, mem_visited.mpr hq, herr⟩

/-- Arbitrage in the lowest prices is arbitrage in the kept edges. -/
theorem noPriceArbitrage_iff (hgraph : graph quotes = .ok edges) :
    NoPriceArbitrage quotes ↔ NoArbitrage (keptEdges edges) := by
  constructor
  · intro h v es hw
    by_cases hne : es = []
    · simp [hne]
    · obtain ⟨⟨e, he, hsrc⟩, -⟩ := hw.1.ends_mem hne
      obtain ⟨c, hc⟩ := exists_currency hgraph (hsrc ▸ source_mem_vertices (hw.2 e he))
      obtain ⟨steps, hsteps, henc⟩ := exists_cheapestWalk hgraph hw hc hc
      rw [← stepProduct_eq henc]
      exact h c steps hsteps
  · intro h c steps hw
    by_cases hne : steps = []
    · simp [hne, stepProduct]
    · obtain ⟨⟨step, hstep, hsrc⟩, -⟩ := hw.1.ends_mem hne
      obtain ⟨i, hi⟩ := List.getElem?_of_mem (source_mem_currencies (hw.2 step hstep).1)
      rw [hsrc] at hi
      obtain ⟨es, hes, -, hprod⟩ := hw.exists_walkIn hgraph hi hi
      rw [← hprod]
      exact h i es hes

/-! ## The totals -/

section Totals

variable {α : Type} [AddCommGroup α] [LinearOrder α] [IsOrderedAddMonoid α] (L : Log2 ℚ α)

theorem AmountsFit.total_lt (hfit : AmountsFit quotes) (hgraph : graph quotes = .ok edges)
    {lps : BTreeMap (Pair ℕ) (Path ℚ)} (hlps : longestPathsMult L edges = .ok lps)
    (hbest : LongestPaths (keptEdges edges) lps) {p : Pair ℕ} {lp : Path ℚ}
    (hlp : lps[p]? = some lp) : asU128 (lp.totalCost * precision) < 2 ^ w := by
  obtain ⟨i, j⟩ := p
  obtain ⟨hsrc, hw, htotal⟩ := hbest.sound _ lp hlp
  obtain ⟨s, hs⟩ := exists_currency hgraph hsrc
  by_cases hne : lp.edges = []
  · -- the path is the identity, so the currency is not quoted against itself
    obtain rfl : i = j := by simpa [hne] using hw.1
    obtain ⟨q, hq, hocc⟩ := mem_currencies.mp (List.mem_of_getElem? hs)
    obtain ⟨lp', hlp', -, hloop⟩ := longestPathsMult_currency L hgraph hlps hs
    obtain rfl := Option.some.inj (hlp.symm.trans hlp')
    have hone : asU128 precision < 2 ^ w :=
      hfit.identity q hq s hocc fun q' hq' hself => hloop q' hq' hself hne
    rwa [htotal, hne, product_nil, one_mul]
  · obtain ⟨-, e, he, htgt⟩ := hw.1.ends_mem hne
    obtain ⟨t, ht⟩ := exists_currency hgraph (htgt ▸ target_mem_vertices (hw.2 e he))
    obtain ⟨steps, hsteps, henc⟩ := exists_cheapestWalk hgraph hw hs ht
    rw [htotal, ← stepProduct_eq henc]
    refine hfit.chain s steps t hsteps fun hnil => hne ?_
    rw [hnil] at henc
    exact List.forall₂_nil_right_iff.mp henc

omit [AddCommGroup α] [LinearOrder α] [IsOrderedAddMonoid α] in
/-- A chain of lowest prices is worth at most the total of its ends. -/
theorem exists_total_of_chain (hgraph : graph quotes = .ok edges)
    {lps : BTreeMap (Pair ℕ) (Path ℚ)} (hbest : LongestPaths (keptEdges edges) lps) {s t : C}
    {steps : List (PathStep C P (Amount w))} (hw : CheapestWalk quotes s steps t)
    (hne : steps ≠ []) (hzero : stepProduct steps ≠ 0) :
    ∃ (p : Pair ℕ) (lp : Path ℚ), lps[p]? = some lp ∧ stepProduct steps ≤ lp.totalCost := by
  obtain ⟨⟨a, ha, hsrc⟩, b, hb, htgt⟩ := hw.1.ends_mem hne
  obtain ⟨i, hi⟩ := List.getElem?_of_mem (source_mem_currencies (hw.2 a ha).1)
  obtain ⟨j, hj⟩ := List.getElem?_of_mem (target_mem_currencies (hw.2 b hb).1)
  obtain ⟨es, hes, hlen, hprod⟩ := hw.exists_walkIn hgraph (hsrc ▸ hi) (htgt ▸ hj)
  have hne' : es ≠ [] := by
    rintro rfl
    exact hne (List.eq_nil_of_length_eq_zero hlen.symm)
  obtain ⟨lp, hlp, hle⟩ := hbest.greatest i j es hes hne' (hprod ▸ hzero)
  exact ⟨⟨i, j⟩, lp, hlp, hprod ▸ hle⟩

/-- The amounts fit exactly when the totals of the run do. -/
theorem amountsFit_iff (hgraph : graph quotes = .ok edges) {lps : BTreeMap (Pair ℕ) (Path ℚ)}
    (hlps : longestPathsMult L edges = .ok lps) (hbest : LongestPaths (keptEdges edges) lps) :
    AmountsFit quotes ↔ ∀ (p : Pair ℕ) (lp : Path ℚ), lps[p]? = some lp →
      asU128 (lp.totalCost * precision) < 2 ^ w := by
  refine ⟨fun hfit p lp hlp => hfit.total_lt L hgraph hlps hbest hlp, fun hfits => ?_⟩
  constructor
  · intro s steps t hw hne
    by_cases hzero : stepProduct steps = 0
    · rw [hzero, zero_mul, asU128_zero]
      exact Nat.two_pow_pos w
    · obtain ⟨p, lp, hlp, hle⟩ := exists_total_of_chain hgraph hbest hw hne hzero
      calc asU128 (stepProduct steps * precision)
          ≤ asU128 (lp.totalCost * precision) :=
            asU128_mono (mul_le_mul_of_nonneg_right hle precision_pos.le)
        _ < 2 ^ w := hfits p lp hlp
  · intro q hq c hocc hno
    obtain ⟨i, hi⟩ := List.getElem?_of_mem (mem_currencies.mpr ⟨q, hq, hocc⟩)
    obtain ⟨lp, hlp, hid, -⟩ := longestPathsMult_currency L hgraph hlps hi
    obtain rfl := hid hno
    simpa using hfits _ _ hlp

omit [AddCommGroup α] [LinearOrder α] [IsOrderedAddMonoid α] in
/-- An entry decodes when its total fits; another total is unwrapped. -/
theorem toPricePath_cases (hgraph : graph quotes = .ok edges) {lps : BTreeMap (Pair ℕ) (Path ℚ)}
    (hbest : LongestPaths (keptEdges edges) lps) {p : Pair ℕ} {lp : Path ℚ}
    (hlp : lps[p]? = some lp) :
    (asU128 (lp.totalCost * precision) < 2 ^ w ∧ ∃ entry : Pair C × PricePath C P (Amount w),
      toPricePath (currencies quotes) (providers quotes) (p, lp) = .ok entry) ∨
    (¬ asU128 (lp.totalCost * precision) < 2 ^ w ∧
      toPricePath (w := w) (currencies quotes) (providers quotes) (p, lp) =
        .error (.panic .unwrap)) := by
  obtain ⟨pair, steps, heq⟩ := exists_toPricePath_eq hgraph hbest hlp
  by_cases hfits : asU128 (lp.totalCost * precision) < 2 ^ w
  · rw [Amount.ofU128_of_lt hfits] at heq
    exact .inl ⟨hfits, _, heq⟩
  · rw [Amount.ofU128_eq_none hfits] at heq
    exact .inr ⟨hfits, heq⟩

omit [AddCommGroup α] [LinearOrder α] [IsOrderedAddMonoid α] in
theorem mapM_toPricePath_cases (hgraph : graph quotes = .ok edges)
    {lps : BTreeMap (Pair ℕ) (Path ℚ)} (hbest : LongestPaths (keptEdges edges) lps) :
    ((∀ (p : Pair ℕ) (lp : Path ℚ), lps[p]? = some lp →
        asU128 (lp.totalCost * precision) < 2 ^ w) ∧
      ∃ entries : List (Pair C × PricePath C P (Amount w)),
        lps.toList.mapM (toPricePath (currencies quotes) (providers quotes)) = .ok entries) ∨
    (¬ (∀ (p : Pair ℕ) (lp : Path ℚ), lps[p]? = some lp →
        asU128 (lp.totalCost * precision) < 2 ^ w) ∧
      lps.toList.mapM (toPricePath (w := w) (currencies quotes) (providers quotes)) =
        .error (.panic .unwrap)) := by
  by_cases hall : ∀ (p : Pair ℕ) (lp : Path ℚ), lps[p]? = some lp →
      asU128 (lp.totalCost * precision) < 2 ^ w
  · refine .inl ⟨hall, Exec.exists_mapM_eq_ok fun x hx => ?_⟩
    have hlp := KeyedFold.mem_toList_iff.mp hx
    rcases toPricePath_cases hgraph hbest hlp with ⟨-, hok⟩ | ⟨hnot, -⟩
    · exact hok
    · exact (hnot (hall _ _ hlp)).elim
  · refine .inr ⟨hall, Exec.mapM_eq_error (fun x hx => ?_) ?_⟩
    · rcases toPricePath_cases hgraph hbest (KeyedFold.mem_toList_iff.mp hx) with
        ⟨-, hok⟩ | ⟨-, hpanic⟩
      · exact .inl hok
      · exact .inr hpanic
    · simp only [not_forall] at hall
      obtain ⟨p, lp, hlp, hnot⟩ := hall
      rcases toPricePath_cases hgraph hbest hlp with ⟨hfits, -⟩ | ⟨-, hpanic⟩
      · exact (hnot hfits).elim
      · exact ⟨(p, lp), KeyedFold.mem_toList_iff.mpr hlp, hpanic⟩

/-! ## The run -/

/-- What the calculator does with the fetched prices. -/
theorem calcBestPaths_cases (quotes : List (PairAndPrice C P w)) :
    (¬ Convertible quotes ∧ calcBestPaths L quotes = .error (.err .conversionError)) ∨
    (Convertible quotes ∧ ¬ NoPriceArbitrage quotes ∧
      calcBestPaths L quotes = .error (.err .negativeCyclesError)) ∨
    (Convertible quotes ∧ NoPriceArbitrage quotes ∧ ¬ AmountsFit quotes ∧
      calcBestPaths L quotes = .error (.panic .unwrap)) ∨
    (Convertible quotes ∧ NoPriceArbitrage quotes ∧ AmountsFit quotes ∧
      ∃ res, calcBestPaths L quotes = .ok res) := by
  rcases graph_cases quotes with ⟨hconv, edges, hgraph⟩ | ⟨hconv, hgraph⟩
  swap
  · refine .inl ⟨hconv, ?_⟩
    rw [calcBestPaths, hgraph]
    rfl
  have harb := noPriceArbitrage_iff hgraph
  rcases longestPathsMult_cases L fun e he => cost_nonneg_of_mem_graph hgraph he with
    ⟨hno, lps, hlps, hbest⟩ | ⟨hyes, hlps⟩
  swap
  · refine .inr (.inl ⟨hconv, mt harb.mp hyes, ?_⟩)
    rw [calcBestPaths, hgraph, Exec.ok_bind, hlps]
    rfl
  have hrun : calcBestPaths L quotes =
      lps.toList.mapM (toPricePath (currencies quotes) (providers quotes)) >>= fun entries =>
        .ok (Std.ExtTreeMap.ofList entries) := by
    rw [calcBestPaths, hgraph, Exec.ok_bind, hlps]
    rfl
  have hfit := amountsFit_iff L hgraph hlps hbest
  rcases mapM_toPricePath_cases hgraph hbest with ⟨hall, entries, hentries⟩ | ⟨hnot, hentries⟩
  · refine .inr (.inr (.inr ⟨hconv, harb.mpr hno, hfit.mpr hall,
      Std.ExtTreeMap.ofList entries, ?_⟩))
    rw [hrun, hentries]
    rfl
  · refine .inr (.inr (.inl ⟨hconv, harb.mpr hno, mt hfit.mp hnot, ?_⟩))
    rw [hrun, hentries]
    rfl

/-- Some total or step of the paths does not fit an amount of `w` bits. -/
def ExceedsAmount (w : ℕ) (lps : BTreeMap (Pair ℕ) (Path ℚ)) : Prop :=
  ∃ (p : Pair ℕ) (lp : Path ℚ), lps[p]? = some lp ∧
    (2 ^ w ≤ asU128 (lp.totalCost * precision) ∨
      ∃ e ∈ lp.edges, 2 ^ w ≤ asU128 (e.cost * precision))

/-- The calculator returns, and answers what does not convert with a conversion error. -/
structure ConversionsReported (quotes : List (PairAndPrice C P w)) : Prop where
  returns : Exec.NoPanic (calcBestPaths L quotes)
  input : (∃ q ∈ quotes, q.2.toU128 = none) →
    calcBestPaths L quotes = .error (.err .conversionError)
  output : ∀ edges lps, graph quotes = .ok edges → longestPathsMult L edges = .ok lps →
    ExceedsAmount w lps → calcBestPaths L quotes = .error (.err .conversionError)

/-- The steps of a path repeat fetched prices, which fit. -/
theorem amountsFit_iff_not_exceedsAmount (hgraph : graph quotes = .ok edges)
    {lps : BTreeMap (Pair ℕ) (Path ℚ)} (hlps : longestPathsMult L edges = .ok lps)
    (hbest : LongestPaths (keptEdges edges) lps) :
    AmountsFit quotes ↔ ¬ ExceedsAmount w lps := by
  rw [amountsFit_iff L hgraph hlps hbest]
  constructor
  · rintro hfits ⟨p, lp, hlp, hover | ⟨e, he, hover⟩⟩
    · exact hover.not_gt (hfits p lp hlp)
    · have hmem := mem_of_mem_uniqueCheapestEdges (by decide) ((hbest.sound p lp hlp).2.1.2 e he)
      obtain ⟨step, -, henc⟩ := (mem_graph hgraph).mp hmem
      rw [henc.cost] at hover
      have hstep := Amount.ofU128_eq_some (ofU128_cost henc.fits)
      exact hover.not_gt (hstep ▸ step.cost.isLt)
  · intro hnot p lp hlp
    exact not_le.mp fun hover => hnot ⟨p, lp, hlp, .inl hover⟩

/-- What does not convert is reported exactly when no unwrapped total is too large: some price
does not convert, or the lowest prices admit arbitrage, or the amounts fit. -/
theorem conversionsReported_iff (quotes : List (PairAndPrice C P w)) :
    ConversionsReported L quotes ↔
      (Convertible quotes → NoPriceArbitrage quotes → AmountsFit quotes) := by
  constructor
  · intro h hconv hno
    rcases calcBestPaths_cases L quotes with
      ⟨hnot, -⟩ | ⟨-, hnot, -⟩ | ⟨-, -, -, hpanic⟩ | ⟨-, -, hfit, -⟩
    · exact (hnot hconv).elim
    · exact (hnot hno).elim
    · exact (h.returns _ (Set.mem_univ _) hpanic).elim
    · exact hfit
  · intro hcond
    constructor
    case returns =>
      rcases calcBestPaths_cases L quotes with
        ⟨-, hrun⟩ | ⟨-, -, hrun⟩ | ⟨hconv, hno, hnot, -⟩ | ⟨-, -, -, res, hrun⟩
      · exact hrun ▸ Exec.Avoids.fail _
      · exact hrun ▸ Exec.Avoids.fail _
      · exact (hnot (hcond hconv hno)).elim
      · exact hrun ▸ Exec.Avoids.ok res
    case input =>
      intro hnone
      have hnot : ¬ Convertible quotes := fun hconv => convertible_iff.mp hconv hnone
      rcases calcBestPaths_cases L quotes with ⟨-, hrun⟩ | ⟨hconv, -⟩ | ⟨hconv, -⟩ | ⟨hconv, -⟩
      · exact hrun
      all_goals exact (hnot hconv).elim
    case output =>
      intro edges lps hgraph hlps hover
      rcases graph_cases quotes with ⟨hconv, -⟩ | ⟨-, herr⟩
      swap
      · cases hgraph.symm.trans herr
      rcases longestPathsMult_cases L fun e he => cost_nonneg_of_mem_graph hgraph he with
        ⟨hno, lps', hlps', hbest⟩ | ⟨-, herr⟩
      swap
      · cases hlps.symm.trans herr
      cases hlps.symm.trans hlps'
      have hfit := hcond hconv ((noPriceArbitrage_iff hgraph).mpr hno)
      exact ((amountsFit_iff_not_exceedsAmount L hgraph hlps hbest).mp hfit hover).elim

end Totals

/-- Two prices of 2^63, which fit 64 bits, and whose product does not. -/
def wideChain : List (PairAndPrice ℕ ℕ 64) :=
  [(⟨⟨10, 20⟩, 1⟩, 9223372036854775808), (⟨⟨20, 30⟩, 1⟩, 9223372036854775808)]

theorem conversionsReported_iff_wideChain : ConversionsReported Log2.rational wideChain ↔
    (Convertible wideChain → NoPriceArbitrage wideChain → AmountsFit wideChain) :=
  conversionsReported_iff Log2.rational wideChain

/-- The total of the chain is unwrapped, and the run panics instead of reporting it. -/
theorem not_conversionsReported_wideChain :
    (∀ q ∈ wideChain, 0 < q.2) ∧
      calcBestPaths Log2.rational wideChain = .error (.panic .unwrap) ∧
      ¬ ConversionsReported Log2.rational wideChain := by
  have hpanic : calcBestPaths Log2.rational wideChain = .error (.panic .unwrap) :=
    Exec.panicked_eq_some_iff.mp (by decide +kernel)
  exact ⟨by decide, hpanic, fun h => h.returns _ (Set.mem_univ _) hpanic⟩

end Aggregator.FloydWarshallCalculator
