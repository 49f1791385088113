import Aggregator.Verification.Calculator.Closure

/-! # The legs of a returned path

Every leg of a returned path is worth exactly as much as the returned path between its ends. -/

namespace Aggregator.FloydWarshallCalculator

open Algo EdgeWalk

variable {C P : Type} {w : ℕ} {quotes : List (PairAndPrice C P w)}

theorem CheapestWalk.append {s m t : C} {xs ys : List (PathStep C P (Amount w))}
    (hx : CheapestWalk quotes s xs m) (hy : CheapestWalk quotes m ys t) :
    CheapestWalk quotes s (xs ++ ys) t :=
  ⟨hx.1.append hy.1, fun step hstep => (List.mem_append.mp hstep).elim (hx.2 step) (hy.2 step)⟩

theorem cheapestWalk_append {s t : C} {xs ys : List (PathStep C P (Amount w))}
    (h : CheapestWalk quotes s (xs ++ ys) t) :
    ∃ m, CheapestWalk quotes s xs m ∧ CheapestWalk quotes m ys t := by
  obtain ⟨m, hx, hy⟩ := isWalk_append.mp h.1
  exact ⟨m, ⟨hx, fun step hstep => h.2 step (List.mem_append_left _ hstep)⟩,
    ⟨hy, fun step hstep => h.2 step (List.mem_append_right _ hstep)⟩⟩

variable [LinearOrder C] [LinearOrder P]

omit [LinearOrder P] in
theorem CheapestWalk.exists_index {s t : C} {steps : List (PathStep C P (Amount w))}
    (h : CheapestWalk quotes s steps t) (hne : steps ≠ []) :
    (∃ i : ℕ, (currencies quotes)[i]? = some s) ∧
      ∃ j : ℕ, (currencies quotes)[j]? = some t := by
  obtain ⟨⟨a, ha, rfl⟩, b, hb, rfl⟩ := h.1.ends_mem hne
  exact ⟨List.getElem?_of_mem (source_mem_currencies (h.2 a ha).1),
    List.getElem?_of_mem (target_mem_currencies (h.2 b hb).1)⟩

/-- A walk along lowest prices is worth no more than the entry of the run between its ends. -/
theorem exists_entry_ge {edges : List (Edge ℚ)} {lps : BTreeMap (Pair ℕ) (Path ℚ)}
    (hgraph : graph quotes = .ok edges) (hbest : LongestPaths (keptEdges edges) lps) {s t : C}
    {steps : List (PathStep C P (Amount w))} (hw : CheapestWalk quotes s steps t)
    (hne : steps ≠ []) (hzero : stepProduct steps ≠ 0) {i j : ℕ}
    (hs : (currencies quotes)[i]? = some s) (ht : (currencies quotes)[j]? = some t) :
    ∃ lp, lps[(⟨i, j⟩ : Pair ℕ)]? = some lp ∧ stepProduct steps ≤ lp.totalCost := by
  obtain ⟨es, hes, hlen, hprod⟩ := hw.exists_walkIn hgraph hs ht
  have hne' : es ≠ [] := by
    rintro rfl
    exact hne (List.eq_nil_of_length_eq_zero hlen.symm)
  rw [← hprod] at hzero ⊢
  exact hbest.greatest i j es hes hne' hzero

/-- No walk along lowest prices is worth more than a leg of an entry between the ends of the
leg. -/
theorem stepProduct_le_leg {edges : List (Edge ℚ)} {lps : BTreeMap (Pair ℕ) (Path ℚ)}
    (hgraph : graph quotes = .ok edges) (hbest : LongestPaths (keptEdges edges) lps) {p : Pair ℕ}
    {lp : Path ℚ} (hlp : lps[p]? = some lp) {s a b t : C}
    {before leg after steps : List (PathStep C P (Amount w))}
    (hs : (currencies quotes)[p.source]? = some s) (ht : (currencies quotes)[p.target]? = some t)
    (htotal : lp.totalCost = stepProduct (before ++ leg ++ after))
    (hzero : stepProduct (before ++ leg ++ after) ≠ 0) (hbefore : CheapestWalk quotes s before a)
    (hafter : CheapestWalk quotes b after t) (hsteps : CheapestWalk quotes a steps b)
    (hne : before ++ steps ++ after ≠ []) : stepProduct steps ≤ stepProduct leg := by
  by_contra hlt
  rw [not_le] at hlt
  simp only [stepProduct_append, mul_ne_zero_iff] at hzero
  obtain ⟨⟨hb, -⟩, ha⟩ := hzero
  have hpos : ∀ {xs : List (PathStep C P (Amount w))}, stepProduct xs ≠ 0 → 0 < stepProduct xs :=
    fun h => (stepProduct_nonneg _).lt_of_ne' h
  -- the better walk in place of the leg
  have hwalk : CheapestWalk quotes s (before ++ steps ++ after) t :=
    (hbefore.append hsteps).append hafter
  have hbetter : stepProduct (before ++ leg ++ after) < stepProduct (before ++ steps ++ after) := by
    simp only [stepProduct_append]
    exact mul_lt_mul_of_pos_right (mul_lt_mul_of_pos_left hlt (hpos hb)) (hpos ha)
  obtain ⟨lp', hlp', hge⟩ := exists_entry_ge hgraph hbest hwalk hne
    ((stepProduct_nonneg _).trans_lt hbetter).ne' hs ht
  obtain rfl : lp = lp' := Option.some.inj (hlp.symm.trans hlp')
  exact absurd (hbetter.trans_le (hge.trans htotal.le)) (lt_irrefl _)

variable {α : Type} [AddCommGroup α] [LinearOrder α] [IsOrderedAddMonoid α] (L : Log2 ℚ α)

/-- Between the ends of every leg of a returned path without a price of zero, a path with the
price of the leg is returned. -/
theorem calcBestPaths_leg {quotes : List (PairAndPrice C P 128)} {res : BestPathMap C P 128}
    (hres : calcBestPaths L quotes = .ok res) {pair : Pair C} {path : PricePath C P (Amount 128)}
    (hpath : res[pair]? = some path) (hcosts : ∀ step ∈ path.steps, step.cost ≠ 0)
    {before leg after : List (PathStep C P (Amount 128))}
    (hsteps : path.steps = before ++ leg ++ after) (hne : leg ≠ []) :
    ∃ a b path', IsWalk PathStep.source PathStep.target a leg b ∧
      res[(⟨a, b⟩ : Pair C)]? = some path' ∧
      path'.totalCost.toNat = min ⌊precision *
        (leg.map fun step => (step.cost.toNat : ℚ) / precision).prod⌋₊ u128Max := by
  obtain ⟨edges, lps, entries, hgraph, hlps, hentries, rfl⟩ := (calcBestPaths_eq_ok_iff L).mp hres
  rcases longestPathsMult_cases L fun e he => cost_nonneg_of_mem_graph hgraph he with
    ⟨-, lps', hlps', hbest⟩ | ⟨-, herr⟩
  swap
  · rw [herr] at hlps
    cases hlps
  rw [hlps] at hlps'
  cases hlps'
  obtain ⟨p, lp, hlp, hok⟩ := (getElem?_ofList_entries hentries).mp hpath
  obtain ⟨hs, ht, -, hdecoded⟩ := toPricePath_eq_ok_iff.mp hok
  obtain ⟨htotal, hw⟩ : lp.totalCost = stepProduct path.steps ∧
      CheapestWalk quotes pair.source path.steps pair.target := by
    obtain ⟨-, hwalk, hlptotal⟩ := hbest.sound p lp hlp
    obtain ⟨steps, hsteps, henc⟩ := exists_cheapestWalk hgraph hwalk hs ht
    rw [mapM_toPathStep henc] at hdecoded
    cases hdecoded
    exact ⟨hlptotal.trans (stepProduct_eq henc).symm, hsteps⟩
  have hzero : stepProduct path.steps ≠ 0 := by
    rw [ne_eq, stepProduct_eq_zero_iff]
    rintro ⟨step, hstep, hcost⟩
    exact hcosts step hstep hcost
  rw [hsteps] at hw htotal hzero
  obtain ⟨b, hfront, hafter⟩ := cheapestWalk_append hw
  obtain ⟨a, hbefore, hleg⟩ := cheapestWalk_append hfront
  obtain ⟨⟨i, hi⟩, j, hj⟩ := hleg.exists_index hne
  have hlegzero : stepProduct leg ≠ 0 := by
    simp only [stepProduct_append, mul_ne_zero_iff] at hzero
    exact hzero.1.2
  obtain ⟨lp', hlp', hge⟩ := exists_entry_ge hgraph hbest hleg hne hlegzero hi hj
  have hle : lp'.totalCost ≤ stepProduct leg := by
    obtain ⟨-, hwalk, hlptotal⟩ := hbest.sound _ lp' hlp'
    obtain ⟨steps, hwalk', henc⟩ := exists_cheapestWalk hgraph hwalk hi hj
    by_cases hnil : before ++ steps ++ after = []
    · -- the leg is the whole path
      simp only [List.append_eq_nil_iff] at hnil
      obtain ⟨⟨rfl, -⟩, rfl⟩ := hnil
      obtain rfl : pair.source = a := hbefore.1
      obtain rfl : b = pair.target := hafter.1
      obtain rfl : i = p.source := index_unique nodup_currencies hi hs
      obtain rfl : j = p.target := index_unique nodup_currencies hj ht
      cases hlp.symm.trans hlp'
      simpa using htotal.le
    · rw [hlptotal, ← stepProduct_eq henc]
      exact stepProduct_le_leg hgraph hbest hlp hs ht htotal hzero hbefore hafter hwalk' hnil
  obtain ⟨path', hpath', htotal'⟩ := exists_decoded hentries hlp' hi hj
  refine ⟨a, b, path', hleg.1, hpath', ?_⟩
  rw [htotal', le_antisymm hle hge, mul_comm]
  rfl

/-- The path from 10 to 30, of which the second leg is taken. -/
theorem calcBestPaths_leg_sampleQuotes :
    ∃ res, calcBestPaths Log2.rational sampleQuotes = .ok res ∧
      ∃ a b path', IsWalk PathStep.source PathStep.target a [⟨⟨20, 30⟩, 1, 4000000000000⟩] b ∧
        res[(⟨a, b⟩ : Pair ℕ)]? = some path' ∧
        path'.totalCost.toNat = min ⌊precision *
          ([(⟨⟨20, 30⟩, 1, 4000000000000⟩ : PathStep ℕ ℕ (Amount 128))].map fun step =>
            (step.cost.toNat : ℚ) / precision).prod⌋₊ u128Max := by
  have heval : (calcBestPaths Log2.rational sampleQuotes).toOption.bind
      (fun res => res[(⟨10, 30⟩ : Pair ℕ)]?) = some ⟨2000000000000,
        [⟨⟨10, 20⟩, 1, 500000000000⟩, ⟨⟨20, 30⟩, 1, 4000000000000⟩]⟩ := by decide +kernel
  obtain ⟨res, hres, hentry⟩ := Option.bind_eq_some_iff.mp heval
  rw [Exec.toOption_eq_some_iff] at hres
  have hcosts : ∀ step ∈ [(⟨⟨10, 20⟩, 1, 500000000000⟩ : PathStep ℕ ℕ (Amount 128)),
      ⟨⟨20, 30⟩, 1, 4000000000000⟩], step.cost ≠ 0 := by decide
  have hsplit : [(⟨⟨10, 20⟩, 1, 500000000000⟩ : PathStep ℕ ℕ (Amount 128)),
      ⟨⟨20, 30⟩, 1, 4000000000000⟩] =
        [⟨⟨10, 20⟩, 1, 500000000000⟩] ++ [⟨⟨20, 30⟩, 1, 4000000000000⟩] ++ [] := rfl
  exact ⟨res, hres, calcBestPaths_leg Log2.rational hres hentry hcosts hsplit (by simp)⟩

end Aggregator.FloydWarshallCalculator
