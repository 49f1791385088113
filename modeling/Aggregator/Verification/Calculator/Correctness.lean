import Aggregator.Verification.Calculator.Indexing

/-! # Correctness of the Floyd-Warshall calculator

Every returned path repeats fetched prices, the lowest for their pairs, and no walk along
such prices multiplies to more. -/

namespace Aggregator.FloydWarshallCalculator

open Algo EdgeWalk

variable {C P : Type} {w : ℕ}

/-- The step repeats a fetched price, and no lower price was fetched for its pair. -/
def CheapestStep (quotes : List (PairAndPrice C P w)) (step : PathStep C P (Amount w)) : Prop :=
  step.quote ∈ quotes ∧ ∀ q ∈ quotes, q.1.pair = step.pair → step.cost ≤ q.2

/-- Consecutive steps from `s` to `t` along lowest prices. -/
def CheapestWalk (quotes : List (PairAndPrice C P w)) (s : C)
    (steps : List (PathStep C P (Amount w))) (t : C) : Prop :=
  IsWalk PathStep.source PathStep.target s steps t ∧ ∀ step ∈ steps, CheapestStep quotes step

/-- What a successful run returns for the fetched prices. -/
structure BestPricePaths [LinearOrder C] (quotes : List (PairAndPrice C P w))
    (res : BestPathMap C P w) : Prop where
  noArbitrage : ∀ c steps, CheapestWalk quotes c steps c → stepProduct steps ≤ 1
  currency : ∀ q ∈ quotes, ∀ c, q.1.pair.source = c ∨ q.1.pair.target = c →
    (⟨c, c⟩ : Pair C) ∈ res
  quote : ∀ q ∈ quotes, q.1.pair ∈ res
  sound : ∀ (pair : Pair C) (path : PricePath C P (Amount w)), res[pair]? = some path →
    (∃ q ∈ quotes, q.1.pair.source = pair.source ∨ q.1.pair.target = pair.source) ∧
      CheapestWalk quotes pair.source path.steps pair.target ∧
      path.totalCost.toNat = asU128 (stepProduct path.steps * precision)
  zero : ∀ (pair : Pair C) (path : PricePath C P (Amount w)), res[pair]? = some path →
    stepProduct path.steps = 0 → ∃ step, path.steps = [step]
  identity : ∀ (c : C) (path : PricePath C P (Amount w)), (∀ q ∈ quotes, q.1.pair ≠ ⟨c, c⟩) →
    res[(⟨c, c⟩ : Pair C)]? = some path → asU128 precision ≤ path.totalCost.toNat
  greatest : ∀ s steps t, CheapestWalk quotes s steps t → steps ≠ [] → stepProduct steps ≠ 0 →
    ∃ path, res[(⟨s, t⟩ : Pair C)]? = some path ∧
      asU128 (stepProduct steps * precision) ≤ path.totalCost.toNat

/-- Every quoted pair has a lowest price. -/
theorem exists_cheapestStep {quotes : List (PairAndPrice C P w)} {q : PairAndPrice C P w}
    (hq : q ∈ quotes) : ∃ step, CheapestStep quotes step ∧ step.pair = q.1.pair := by
  obtain ⟨m, ⟨hm, hpair⟩, hmin⟩ := Set.exists_min_image
    {x | x ∈ quotes ∧ x.1.pair = q.1.pair} (fun x => x.2.toNat)
    ((List.finite_toSet quotes).subset fun x hx => hx.1) ⟨q, hq, rfl⟩
  exact ⟨⟨m.1.pair, m.1.provider, m.2⟩,
    ⟨hm, fun x hx heq => BitVec.le_def.mpr (hmin x ⟨hx, heq.trans hpair⟩)⟩, hpair⟩

/-! ## Walks over indices and over currencies -/

section Walks

theorem index_unique {X : Type} {xs : List X} (hxs : xs.Nodup) {x : X} {i j : ℕ}
    (hi : xs[i]? = some x) (hj : xs[j]? = some x) : i = j :=
  (List.getElem?_inj (List.getElem?_eq_some_iff.mp hi).1 hxs).mp (hi.trans hj.symm)

theorem price_le_iff {a b : PathStep C P (Amount w)} : price a ≤ price b ↔ a.cost ≤ b.cost := by
  unfold price
  rw [div_le_div_iff_of_pos_right precision_pos, Nat.cast_le]
  exact BitVec.le_def.symm

theorem stepProduct_eq {cs : List C} {ps : List P} {es : List (Edge ℚ)}
    {steps : List (PathStep C P (Amount w))}
    (h : List.Forall₂ (fun e step => Encodes cs ps step e) es steps) :
    stepProduct steps = product es :=
  congrArg List.prod (map_eq_map_of_forall₂ h fun _ _ henc => henc.cost).symm

theorem mapM_toPathStep {cs : List C} {ps : List P} {es : List (Edge ℚ)}
    {steps : List (PathStep C P (Amount w))}
    (h : List.Forall₂ (fun e step => Encodes cs ps step e) es steps) :
    es.mapM (toPathStep cs ps) = .ok steps :=
  Exec.mapM_eq_ok_iff.mpr (h.imp fun _ _ henc => henc.toPathStep)

variable [LinearOrder C] [LinearOrder P] {quotes : List (PairAndPrice C P w)}
  {edges : List (Edge ℚ)}

/-- Lowest prices and least-cost edges encode each other. -/
theorem cheapest_iff (hgraph : graph quotes = .ok edges) {step : PathStep C P (Amount w)}
    {e : Edge ℚ} (henc : Encodes (currencies quotes) (providers quotes) step e)
    (hstep : step.quote ∈ quotes) (he : e ∈ edges) :
    CheapestStep quotes step ↔ Cheapest edges e := by
  constructor
  · rintro ⟨-, hmin⟩
    refine ⟨he, fun x hx hpair => ?_⟩
    obtain ⟨step', hstep', henc'⟩ := (mem_graph hgraph).mp hx
    have hsource : step'.source = step.source := by
      have h : x.source = e.source := congrArg Pair.source hpair
      exact Option.some.inj (henc'.source.symm.trans (h ▸ henc.source))
    have htarget : step'.target = step.target := by
      have h : x.target = e.target := congrArg Pair.target hpair
      exact Option.some.inj (henc'.target.symm.trans (h ▸ henc.target))
    rw [henc.cost, henc'.cost, price_le_iff]
    exact hmin _ hstep' (congrArg₂ Pair.mk hsource htarget)
  · rintro ⟨-, hmin⟩
    refine ⟨hstep, fun q hq hpair => ?_⟩
    have hstep' : (PathStep.mk q.1.pair q.1.provider q.2).quote ∈ quotes := hq
    obtain ⟨x, hx, henc'⟩ := exists_mem_graph hgraph hstep'
    have hsource : x.source = e.source := index_unique nodup_currencies henc'.source
      (henc.source.trans (congrArg (fun p : Pair C => some p.source) hpair.symm))
    have htarget : x.target = e.target := index_unique nodup_currencies henc'.target
      (henc.target.trans (congrArg (fun p : Pair C => some p.target) hpair.symm))
    have hle := hmin x hx (congrArg₂ Pair.mk hsource htarget)
    rw [henc.cost, henc'.cost, price_le_iff] at hle
    exact hle

/-- The pair of a fetched price has a kept edge. -/
theorem exists_keptEdge_quote (hgraph : graph quotes = .ok edges) {q : PairAndPrice C P w}
    (hq : q ∈ quotes) :
    ∃ r ∈ keptEdges edges, (currencies quotes)[r.source]? = some q.1.pair.source ∧
      (currencies quotes)[r.target]? = some q.1.pair.target := by
  have hstep : (PathStep.mk q.1.pair q.1.provider q.2).quote ∈ quotes := hq
  obtain ⟨e, he, henc⟩ := exists_mem_graph hgraph hstep
  obtain ⟨r, hr, hpair, -⟩ := exists_keptEdge_le he
  have hsource : r.source = e.source := congrArg Pair.source hpair
  have htarget : r.target = e.target := congrArg Pair.target hpair
  exact ⟨r, hr, hsource ▸ henc.source, htarget ▸ henc.target⟩

/-- The pair of a kept edge has a fetched price. -/
theorem exists_quote_keptEdge (hgraph : graph quotes = .ok edges) {r : Edge ℚ}
    (hr : r ∈ keptEdges edges) :
    ∃ q ∈ quotes, (currencies quotes)[r.source]? = some q.1.pair.source ∧
      (currencies quotes)[r.target]? = some q.1.pair.target := by
  obtain ⟨step, hstep, henc⟩ :=
    (mem_graph hgraph).mp (mem_of_mem_uniqueCheapestEdges (by decide) hr)
  exact ⟨step.quote, hstep, henc.source, henc.target⟩

/-- A walk of kept edges decodes to a walk along lowest prices. -/
theorem exists_cheapestWalk (hgraph : graph quotes = .ok edges) {es : List (Edge ℚ)} {i j : ℕ}
    {s t : C} (hw : WalkIn (keptEdges edges) i es j) (hs : (currencies quotes)[i]? = some s)
    (ht : (currencies quotes)[j]? = some t) :
    ∃ steps : List (PathStep C P (Amount w)), CheapestWalk quotes s steps t ∧
      List.Forall₂ (fun e step => Encodes (currencies quotes) (providers quotes) step e)
        es steps := by
  have hedge : ∀ e ∈ es, ∃ step : PathStep C P (Amount w),
      (CheapestStep quotes step ∧ Encodes (currencies quotes) (providers quotes) step e) ∧
        (currencies quotes)[e.source]? = some step.source ∧
        (currencies quotes)[e.target]? = some step.target := by
    intro e he
    have hcheap := cheapest_of_mem_keptEdges (hw.2 e he)
    obtain ⟨step, hstep, henc⟩ := (mem_graph hgraph).mp hcheap.1
    exact ⟨step, ⟨(cheapest_iff hgraph henc hstep hcheap.1).mpr hcheap, henc⟩,
      henc.source, henc.target⟩
  obtain ⟨steps, hws, hsteps⟩ := hw.1.exists_forall₂
    (r := fun i c => (currencies quotes)[i]? = some c)
    (fun _ _ _ ha hb => Option.some.inj (ha.symm.trans hb)) hedge hs ht
  refine ⟨steps, ⟨hws, fun step hstep => ?_⟩, hsteps.imp fun _ _ h => h.2⟩
  obtain ⟨e, -, he⟩ := exists_mem_of_forall₂ hsteps hstep
  exact he.1

/-- A walk along lowest prices is encoded by a walk of kept edges. -/
theorem CheapestWalk.exists_walkIn (hgraph : graph quotes = .ok edges)
    {steps : List (PathStep C P (Amount w))} {i j : ℕ} {s t : C}
    (hw : CheapestWalk quotes s steps t) (hs : (currencies quotes)[i]? = some s)
    (ht : (currencies quotes)[j]? = some t) :
    ∃ es, WalkIn (keptEdges edges) i es j ∧ es.length = steps.length ∧
      product es = stepProduct steps := by
  have hedge : ∀ step ∈ steps, ∃ e, (Cheapest edges e ∧ price step = e.cost) ∧
      (currencies quotes)[e.source]? = some step.source ∧
      (currencies quotes)[e.target]? = some step.target := by
    intro step hstep
    have hcheap := hw.2 step hstep
    obtain ⟨e, he, henc⟩ := exists_mem_graph hgraph hcheap.1
    exact ⟨e, ⟨(cheapest_iff hgraph henc hcheap.1 he).mp hcheap, henc.cost.symm⟩,
      henc.source, henc.target⟩
  obtain ⟨es, hwes, hes⟩ := hw.1.exists_forall₂
    (r := fun c i => (currencies quotes)[i]? = some c)
    (fun _ _ _ ha hb => index_unique nodup_currencies ha hb) hedge hs ht
  obtain ⟨rs, hrs, hlen, hprod⟩ := exists_walkIn_keptEdges hwes fun e he => by
    obtain ⟨step, -, h⟩ := exists_mem_of_forall₂ hes he
    exact h.1
  refine ⟨rs, hrs, hlen.trans hes.length_eq.symm, hprod.trans ?_⟩
  exact congrArg List.prod (map_eq_map_of_forall₂ hes fun _ _ h => h.2).symm

end Walks

/-! ## The run -/

section Run

theorem toPricePath_eq_ok_iff {cs : List C} {ps : List P} {p : Pair ℕ} {lp : Path ℚ}
    {pair : Pair C} {path : PricePath C P (Amount w)} :
    toPricePath cs ps (p, lp) = .ok (pair, path) ↔
      cs[p.source]? = some pair.source ∧ cs[p.target]? = some pair.target ∧
        Amount.ofU128 (asU128 (lp.totalCost * precision)) = some path.totalCost ∧
        lp.edges.mapM (toPathStep cs ps) = .ok path.steps := by
  simp only [toPricePath, Exec.bind_eq_ok_iff, Exec.orPanic_eq_ok_iff]
  constructor
  · rintro ⟨s, hs, t, ht, c, hc, steps, hsteps, h⟩
    cases h
    exact ⟨hs, ht, hc, hsteps⟩
  · rintro ⟨hs, ht, hc, hsteps⟩
    exact ⟨_, hs, _, ht, _, hc, _, hsteps, rfl⟩

variable [LinearOrder C] [LinearOrder P] {α : Type} [AddCommGroup α] [LinearOrder α]
  (L : Log2 ℚ α) {quotes : List (PairAndPrice C P w)}

theorem calcBestPaths_eq_ok_iff {res : BestPathMap C P w} :
    calcBestPaths L quotes = .ok res ↔ ∃ edges lps entries, graph quotes = .ok edges ∧
      longestPathsMult L edges = .ok lps ∧
      lps.toList.mapM (toPricePath (currencies quotes) (providers quotes)) = .ok entries ∧
      res = Std.ExtTreeMap.ofList entries := by
  simp only [calcBestPaths, Exec.bind_eq_ok_iff, Exec.mapErr_eq_ok_iff]
  constructor
  · rintro ⟨edges, hgraph, lps, hlps, entries, hentries, h⟩
    cases h
    exact ⟨edges, lps, entries, hgraph, hlps, hentries, rfl⟩
  · rintro ⟨edges, lps, entries, hgraph, hlps, hentries, rfl⟩
    exact ⟨edges, hgraph, lps, hlps, entries, hentries, rfl⟩

/-- The entries of a successful run, read on indices. -/
theorem getElem?_ofList_entries {lps : BTreeMap (Pair ℕ) (Path ℚ)}
    {entries : List (Pair C × PricePath C P (Amount w))}
    (hentries : lps.toList.mapM (toPricePath (currencies quotes) (providers quotes)) = .ok entries)
    {pair : Pair C} {path : PricePath C P (Amount w)} :
    (Std.ExtTreeMap.ofList entries : BestPathMap C P w)[pair]? = some path ↔
      ∃ p lp, lps[p]? = some lp ∧
        toPricePath (currencies quotes) (providers quotes) (p, lp) = .ok (pair, path) := by
  refine KeyedFold.getElem?_ofList_mapM hentries ?_
  rintro ⟨p, lp⟩ - ⟨p', lp'⟩ - ⟨pair, path⟩ ⟨pair', path'⟩ h h' heq
  obtain ⟨hs, ht, -, -⟩ := toPricePath_eq_ok_iff.mp h
  obtain ⟨hs', ht', -, -⟩ := toPricePath_eq_ok_iff.mp h'
  obtain rfl : pair = pair' := heq
  exact congrArg₂ Pair.mk (index_unique nodup_currencies hs hs')
    (index_unique nodup_currencies ht ht')

/-- Every index entry between two known currencies is decoded. -/
theorem exists_toPricePath {lps : BTreeMap (Pair ℕ) (Path ℚ)}
    {entries : List (Pair C × PricePath C P (Amount w))}
    (hentries : lps.toList.mapM (toPricePath (currencies quotes) (providers quotes)) = .ok entries)
    {p : Pair ℕ} {lp : Path ℚ} {s t : C} (hlp : lps[p]? = some lp)
    (hs : (currencies quotes)[p.source]? = some s) (ht : (currencies quotes)[p.target]? = some t) :
    ∃ path, (Std.ExtTreeMap.ofList entries : BestPathMap C P w)[(⟨s, t⟩ : Pair C)]? = some path ∧
      Amount.ofU128 (asU128 (lp.totalCost * precision)) = some path.totalCost ∧
      lp.edges.mapM (toPathStep (currencies quotes) (providers quotes)) = .ok path.steps := by
  have hmem : (p, lp) ∈ lps.toList := KeyedFold.mem_toList_iff.mpr hlp
  obtain ⟨⟨⟨s', t'⟩, path⟩, -, hok⟩ := Exec.exists_mem_of_mapM_eq_ok hentries hmem
  obtain ⟨hs', ht', hcost, hsteps⟩ := toPricePath_eq_ok_iff.mp hok
  cases hs.symm.trans hs'
  cases ht.symm.trans ht'
  exact ⟨path, (getElem?_ofList_entries hentries).mpr ⟨p, lp, hlp, hok⟩, hcost, hsteps⟩

theorem exists_decoded {lps : BTreeMap (Pair ℕ) (Path ℚ)}
    {entries : List (Pair C × PricePath C P (Amount w))}
    (hentries : lps.toList.mapM (toPricePath (currencies quotes) (providers quotes)) = .ok entries)
    {p : Pair ℕ} {lp : Path ℚ} {s t : C} (hlp : lps[p]? = some lp)
    (hs : (currencies quotes)[p.source]? = some s) (ht : (currencies quotes)[p.target]? = some t) :
    ∃ path, (Std.ExtTreeMap.ofList entries : BestPathMap C P w)[(⟨s, t⟩ : Pair C)]? = some path ∧
      path.totalCost.toNat = asU128 (lp.totalCost * precision) := by
  obtain ⟨path, hpath, hcost, -⟩ := exists_toPricePath hentries hlp hs ht
  exact ⟨path, hpath, Amount.ofU128_eq_some hcost⟩

theorem mem_decoded {lps : BTreeMap (Pair ℕ) (Path ℚ)}
    {entries : List (Pair C × PricePath C P (Amount w))}
    (hentries : lps.toList.mapM (toPricePath (currencies quotes) (providers quotes)) = .ok entries)
    {p : Pair ℕ} {s t : C} (hp : p ∈ lps) (hs : (currencies quotes)[p.source]? = some s)
    (ht : (currencies quotes)[p.target]? = some t) :
    (⟨s, t⟩ : Pair C) ∈ (Std.ExtTreeMap.ofList entries : BestPathMap C P w) := by
  obtain ⟨lp, hlp⟩ := KeyedFold.mem_iff_exists.mp hp
  obtain ⟨path, hpath, -⟩ := exists_decoded hentries hlp hs ht
  exact KeyedFold.mem_of_getElem? hpath

/-- A decoded entry is a walk along lowest prices. -/
theorem sound_decoded {edges : List (Edge ℚ)} {lps : BTreeMap (Pair ℕ) (Path ℚ)}
    {entries : List (Pair C × PricePath C P (Amount w))} (hgraph : graph quotes = .ok edges)
    (hbest : LongestPaths (keptEdges edges) lps)
    (hentries : lps.toList.mapM (toPricePath (currencies quotes) (providers quotes)) = .ok entries)
    {pair : Pair C} {path : PricePath C P (Amount w)}
    (h : (Std.ExtTreeMap.ofList entries : BestPathMap C P w)[pair]? = some path) :
    pair.source ∈ currencies quotes ∧ CheapestWalk quotes pair.source path.steps pair.target ∧
      path.totalCost.toNat = asU128 (stepProduct path.steps * precision) ∧
      (stepProduct path.steps = 0 → ∃ step, path.steps = [step]) ∧
      (pair.source = pair.target → (∀ q ∈ quotes, q.1.pair ≠ pair) → 1 ≤ stepProduct path.steps) := by
  obtain ⟨p, lp, hlp, hok⟩ := (getElem?_ofList_entries hentries).mp h
  obtain ⟨hs, ht, hcost, hsteps⟩ := toPricePath_eq_ok_iff.mp hok
  obtain ⟨-, hw, htotal⟩ := hbest.sound p lp hlp
  obtain ⟨steps, hwsteps, henc⟩ := exists_cheapestWalk hgraph hw hs ht
  have hpath : path.steps = steps := by
    rw [mapM_toPathStep henc] at hsteps
    cases hsteps
    rfl
  have hprod := stepProduct_eq henc
  rw [hpath]
  refine ⟨List.mem_of_getElem? hs, hwsteps, ?_, fun hzero => ?_, fun hst hloop => ?_⟩
  · rw [Amount.ofU128_eq_some hcost, htotal, hprod]
  · obtain ⟨e, -, he⟩ := hbest.zero p lp hlp (by rw [htotal, ← hprod, hzero])
    rw [he] at henc
    exact List.length_eq_one_iff.mp henc.length_eq.symm
  · obtain ⟨source, target⟩ := p
    obtain rfl : source = target := index_unique nodup_currencies hs (hst ▸ ht)
    rw [hprod, ← htotal]
    refine hbest.identity source lp (fun e he hpair => ?_) hlp
    -- a kept self-loop would encode a price quoted for the currency against itself
    obtain ⟨q, hq, hsource, htarget⟩ := exists_quote_keptEdge hgraph he
    have hs' : e.source = source := congrArg Pair.source hpair
    have ht' : e.target = source := congrArg Pair.target hpair
    exact hloop q hq (congrArg₂ Pair.mk (Option.some.inj ((hs' ▸ hsource).symm.trans hs))
      (Option.some.inj ((ht' ▸ htarget).symm.trans ht)))

variable [IsOrderedAddMonoid α]

/-- A successful run returns the best paths along lowest prices. -/
theorem bestPricePaths_of_eq_ok {res : BestPathMap C P w} (h : calcBestPaths L quotes = .ok res) :
    BestPricePaths quotes res := by
  obtain ⟨edges, lps, entries, hgraph, hlps, hentries, rfl⟩ := (calcBestPaths_eq_ok_iff L).mp h
  rcases longestPathsMult_cases L fun e he => cost_nonneg_of_mem_graph hgraph he with
    ⟨harb, lps', hlps', hbest⟩ | ⟨-, herr⟩
  swap
  · rw [herr] at hlps
    cases hlps
  rw [hlps] at hlps'
  cases hlps'
  have hindex : ∀ {c : C}, c ∈ currencies quotes → ∃ i, (currencies quotes)[i]? = some c :=
    List.getElem?_of_mem
  have hwalk : ∀ {s t : C} {steps : List (PathStep C P (Amount w))},
      CheapestWalk quotes s steps t → steps ≠ [] →
        s ∈ currencies quotes ∧ t ∈ currencies quotes := by
    intro s t steps hw hne
    obtain ⟨⟨a, ha, rfl⟩, b, hb, rfl⟩ := hw.1.ends_mem hne
    exact ⟨source_mem_currencies (hw.2 a ha).1, target_mem_currencies (hw.2 b hb).1⟩
  constructor
  case noArbitrage =>
    intro c steps hw
    by_cases hne : steps = []
    · simp [hne, stepProduct]
    · obtain ⟨i, hi⟩ := hindex (hwalk hw hne).1
      obtain ⟨es, hes, -, hprod⟩ := hw.exists_walkIn hgraph hi hi
      exact hprod ▸ harb i es hes
  case currency =>
    intro q hq c hc
    obtain ⟨r, hr, hs, ht⟩ := exists_keptEdge_quote hgraph hq
    rcases hc with rfl | rfl
    · exact mem_decoded hentries (hbest.vertex _ (source_mem_vertices hr)) hs hs
    · exact mem_decoded hentries (hbest.vertex _ (target_mem_vertices hr)) ht ht
  case quote =>
    intro q hq
    obtain ⟨r, hr, hs, ht⟩ := exists_keptEdge_quote hgraph hq
    exact mem_decoded hentries (hbest.edge r hr) hs ht
  case sound =>
    intro pair path hpath
    obtain ⟨hs, hw, hcost, -⟩ := sound_decoded hgraph hbest hentries hpath
    exact ⟨mem_currencies.mp hs, hw, hcost⟩
  case zero =>
    intro pair path hpath
    exact (sound_decoded hgraph hbest hentries hpath).2.2.2.1
  case identity =>
    intro c path hloop hpath
    obtain ⟨-, -, hcost, -, hone⟩ := sound_decoded hgraph hbest hentries hpath
    rw [hcost]
    refine asU128_mono ?_
    calc precision = 1 * precision := (one_mul _).symm
      _ ≤ stepProduct path.steps * precision :=
          mul_le_mul_of_nonneg_right (hone rfl hloop) precision_pos.le
  case greatest =>
    intro s steps t hw hne hprod
    obtain ⟨i, hi⟩ := hindex (hwalk hw hne).1
    obtain ⟨j, hj⟩ := hindex (hwalk hw hne).2
    obtain ⟨es, hes, hlen, heq⟩ := hw.exists_walkIn hgraph hi hj
    have hne' : es ≠ [] := by
      rintro rfl
      exact hne (List.eq_nil_of_length_eq_zero hlen.symm)
    obtain ⟨lp, hlp, hle⟩ := hbest.greatest i j es hes hne' (heq ▸ hprod)
    obtain ⟨path, hpath, hcost⟩ := exists_decoded hentries hlp hi hj
    refine ⟨path, hpath, ?_⟩
    rw [hcost, ← heq]
    exact asU128_mono (mul_le_mul_of_nonneg_right hle precision_pos.le)

/-! ## The contract of `calc_best_paths` -/

omit [AddCommGroup α] [LinearOrder α] [IsOrderedAddMonoid α] in
theorem exists_currency {edges : List (Edge ℚ)} (hgraph : graph quotes = .ok edges) {v : ℕ}
    (hv : v ∈ vertices (keptEdges edges)) : ∃ c, (currencies quotes)[v]? = some c := by
  obtain ⟨e, he, hv⟩ := mem_vertices.mp hv
  obtain ⟨q, -, hsource, htarget⟩ := exists_quote_keptEdge hgraph he
  rcases hv with rfl | rfl
  · exact ⟨_, hsource⟩
  · exact ⟨_, htarget⟩

omit [AddCommGroup α] [LinearOrder α] [IsOrderedAddMonoid α] in
/-- Whether an entry decodes depends on its total only. -/
theorem exists_toPricePath_eq {edges : List (Edge ℚ)} (hgraph : graph quotes = .ok edges)
    {lps : BTreeMap (Pair ℕ) (Path ℚ)} (hbest : LongestPaths (keptEdges edges) lps) {p : Pair ℕ}
    {lp : Path ℚ} (hlp : lps[p]? = some lp) :
    ∃ (pair : Pair C) (steps : List (PathStep C P (Amount w))),
      toPricePath (currencies quotes) (providers quotes) (p, lp) =
        Exec.orPanic .unwrap (Amount.ofU128 (asU128 (lp.totalCost * precision))) >>= fun total =>
          .ok (pair, ⟨total, steps⟩) := by
  obtain ⟨hsrc, hw, -⟩ := hbest.sound p lp hlp
  have htgt : p.target ∈ vertices (keptEdges edges) := by
    by_cases hne : lp.edges = []
    · have hst : p.source = p.target := by simpa [hne] using hw.1
      exact hst ▸ hsrc
    · obtain ⟨-, e, he, ht⟩ := hw.1.ends_mem hne
      exact ht ▸ target_mem_vertices (hw.2 e he)
  obtain ⟨s, hs⟩ := exists_currency hgraph hsrc
  obtain ⟨t, ht⟩ := exists_currency hgraph htgt
  obtain ⟨steps, -, henc⟩ := exists_cheapestWalk hgraph hw hs ht
  refine ⟨⟨s, t⟩, steps, ?_⟩
  simp only [toPricePath, hs, ht, mapM_toPathStep henc, Exec.orPanic_some, Exec.ok_bind]
  rfl

/-- With amounts of at least 128 bits every entry decodes. -/
theorem calcBestPaths_noPanic (hbits : 128 ≤ w) (quotes : List (PairAndPrice C P w)) :
    Exec.NoPanic (calcBestPaths L quotes) := by
  refine Exec.Avoids.bind graph_noPanic fun edges hgraph => ?_
  rcases longestPathsMult_cases L fun e he => cost_nonneg_of_mem_graph hgraph he with
    ⟨-, lps, hlps, hbest⟩ | ⟨-, herr⟩
  · rw [hlps]
    obtain ⟨entries, hentries⟩ := Exec.exists_mapM_eq_ok
      (f := toPricePath (w := w) (currencies quotes) (providers quotes)) (l := lps.toList)
      fun x hx => by
        obtain ⟨pair, steps, heq⟩ :=
          exists_toPricePath_eq hgraph hbest (KeyedFold.mem_toList_iff.mp hx)
        have hfits : asU128 (x.2.totalCost * precision) < 2 ^ w :=
          ((asU128_le _).trans_lt (by decide)).trans_le (Nat.pow_le_pow_right two_pos hbits)
        rw [Amount.ofU128_of_lt hfits] at heq
        exact ⟨_, heq⟩
    simp only [Exec.mapErr, Exec.ok_bind, hentries]
    exact Exec.Avoids.ok _
  · rw [herr]
    exact Exec.Avoids.fail _

omit [LinearOrder P] in
theorem BestPricePaths.target_occurs {quotes : List (PairAndPrice C P w)}
    {res : BestPathMap C P w} (h : BestPricePaths quotes res) {pair : Pair C}
    {path : PricePath C P (Amount w)} (hpath : res[pair]? = some path) :
    ∃ q ∈ quotes, q.1.pair.source = pair.target ∨ q.1.pair.target = pair.target := by
  obtain ⟨hs, hw, -⟩ := h.sound pair path hpath
  by_cases hne : path.steps = []
  · have hst : pair.source = pair.target := by simpa [hne] using hw.1
    exact hst ▸ hs
  · obtain ⟨-, step, hstep, ht⟩ := hw.1.ends_mem hne
    exact ⟨step.quote, (hw.2 step hstep).1, .inr ht⟩

/-- The calculator never panics, and every entry it returns is a walk along fetched prices
whose total is their product, rounded down and saturated. -/
theorem calcBestPaths_spec (quotes : List (PairAndPrice C P 128)) :
    Exec.NoPanic (calcBestPaths L quotes) ∧ ∀ res, calcBestPaths L quotes = .ok res →
      ∀ (pair : Pair C) (path : PricePath C P (Amount 128)), res[pair]? = some path →
        (∃ q ∈ quotes, q.1.pair.source = pair.source ∨ q.1.pair.target = pair.source) ∧
        (∃ q ∈ quotes, q.1.pair.source = pair.target ∨ q.1.pair.target = pair.target) ∧
        IsWalk PathStep.source PathStep.target pair.source path.steps pair.target ∧
        (∀ step ∈ path.steps, (⟨step.pair, step.provider⟩, step.cost) ∈ quotes) ∧
        path.totalCost.toNat = min ⌊precision *
          (path.steps.map fun step => (step.cost.toNat : ℚ) / precision).prod⌋₊ u128Max := by
  refine ⟨calcBestPaths_noPanic L le_rfl quotes, fun res hres pair path hpath => ?_⟩
  have hbest := bestPricePaths_of_eq_ok L hres
  obtain ⟨hs, hw, hcost⟩ := hbest.sound pair path hpath
  refine ⟨hs, hbest.target_occurs hpath, hw.1, fun step hstep => (hw.2 step hstep).1, ?_⟩
  rw [hcost, mul_comm]
  rfl

end Run

/-- Three currencies, two of them joined by two providers. -/
def sampleQuotes : List (PairAndPrice ℕ ℕ 128) :=
  [(⟨⟨10, 20⟩, 1⟩, 500000000000), (⟨⟨20, 30⟩, 1⟩, 4000000000000), (⟨⟨10, 20⟩, 2⟩, 600000000000)]

theorem calcBestPaths_spec_sampleQuotes :
    Exec.NoPanic (calcBestPaths Log2.rational sampleQuotes) ∧
      ∀ res, calcBestPaths Log2.rational sampleQuotes = .ok res →
      ∀ (pair : Pair ℕ) (path : PricePath ℕ ℕ (Amount 128)), res[pair]? = some path →
        (∃ q ∈ sampleQuotes, q.1.pair.source = pair.source ∨ q.1.pair.target = pair.source) ∧
        (∃ q ∈ sampleQuotes, q.1.pair.source = pair.target ∨ q.1.pair.target = pair.target) ∧
        IsWalk PathStep.source PathStep.target pair.source path.steps pair.target ∧
        (∀ step ∈ path.steps, (⟨step.pair, step.provider⟩, step.cost) ∈ sampleQuotes) ∧
        path.totalCost.toNat = min ⌊precision *
          (path.steps.map fun step => (step.cost.toNat : ℚ) / precision).prod⌋₊ u128Max :=
  calcBestPaths_spec Log2.rational sampleQuotes

end Aggregator.FloydWarshallCalculator
