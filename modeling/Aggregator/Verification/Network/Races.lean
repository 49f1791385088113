import Aggregator.Verification.Network.Serializability
import Aggregator.Verification.OffchainWorker.ZeroCosts

/-! # Races between rounds

Of the payloads computed from the same best paths the first one wins. A stored cost of zero
ends the race: nobody can send a payload any more. -/

namespace Aggregator

variable {T : Config}

/-- A round that meets a stored cost of zero for a pair that it calculates sends nothing. -/
theorem sentBy_eq_nil {env : Environment T} {s : ChainState T} {b : T.BlockNumber}
    {pair : Pair T.Currency} {path : T.Path} (hpath : s.bestPaths[pair]? = some path)
    (hzero : path.totalCost = 0)
    (hnew : ∀ newBestPaths ∈ (T.bestPathCalculator (fetchedPairs env s)).toOption,
      pair ∈ newBestPaths) : sentBy env s b = [] := by
  refine List.eq_nil_iff_forall_not_mem.mpr fun r hr => ?_
  obtain ⟨-, hround, -⟩ := mem_sentBy_iff.mp hr
  obtain ⟨newBestPaths, hcalc, hchanges, -⟩ := fetchPricesAndUpdateBestPaths_eq_ok hround
  obtain ⟨path', hpath'⟩ := KeyedFold.mem_iff_exists.mp
    (hnew newBestPaths (Exec.toOption_eq_some_iff.mpr hcalc))
  have hcomparable := (exists_selectChanges_eq_ok_iff.mp ⟨_, hchanges⟩).1 pair path hpath
  refine (hcomparable.2 path' hpath').old_ne_zero ?_
  rw [hzero]
  rfl

namespace Network

/-! ## The first payload wins -/

/-- After a round has read the chain, its payload succeeds as long as no payload is applied,
and its currencies can be printed. After that it never does. -/
theorem run_firstWins {pre post : List (Action T)} {env : Environment T} {b : T.BlockNumber}
    {r : InFlight T} (hr : r ∈ sentBy env ((genesis T).run pre).chain b)
    (hcount : ((genesis T).run (pre ++ .round env b :: post)).applied.length + 1 < 2 ^ 64)
    (signature : T.Signature) :
    (∃ chain, ocwSubmitBestPathsChanges .none r.payload signature
        ((genesis T).run (pre ++ .round env b :: post)).chain = .ok chain) ↔
      ((genesis T).run (pre ++ .round env b :: post)).applied = ((genesis T).run pre).applied ∧
        Printable r.payload.changes := by
  obtain ⟨-, hround, -⟩ := mem_sentBy_iff.mp hr
  obtain ⟨newBestPaths, -, hchanges, hread⟩ := fetchPricesAndUpdateBestPaths_eq_ok hround
  have hlater := (reachable_run (T := T) (pre ++ .round env b :: post)).inOrder
  constructor
  · rintro ⟨chain, hok⟩
    obtain ⟨hexpected, hprint, -⟩ := (exists_ocwSubmitBestPathsChanges_iff signature
      (isSome_of_mem_selectChanges hchanges)).mp ⟨chain, hok⟩
    refine ⟨?_, hprint⟩
    exact (sameStore_run ((Nat.le_add_right _ 1).trans_lt hcount) (hexpected.trans hread)).1
  · rintro ⟨happlied, hprint⟩
    refine exists_ocwSubmitBestPathsChanges_eq_ok ?_ hprint ?_
    · rw [hread, hlater.expected, (reachable_run pre).inOrder.expected, happlied]
    · rw [hlater.expected, BitVec.toNat_ofNat, Nat.mod_eq_of_lt (by omega)]
      exact hcount

/-! ## A stored cost of zero -/

/-- The pair is stored with a cost of zero. -/
def Zeroed (s : ChainState T) (pair : Pair T.Currency) : Prop :=
  ∃ path ∈ s.bestPaths[pair]?, path.totalCost = 0

instance (s : ChainState T) (pair : Pair T.Currency) : Decidable (Zeroed s pair) :=
  inferInstanceAs (Decidable (∃ path ∈ s.bestPaths[pair]?, path.totalCost = 0))

/-- A round that meets a stored cost of zero for the pair still calculates the pair. -/
def Recalculates (pair : Pair T.Currency) (σ : Network T) : Action T → Prop
  | .round env _ => Zeroed σ.chain pair →
      ∀ newBestPaths ∈ (T.bestPathCalculator (fetchedPairs env σ.chain)).toOption,
        pair ∈ newBestPaths
  | _ => True

instance (pair : Pair T.Currency) (σ : Network T) : ∀ a, Decidable (Recalculates pair σ a)
  | .round env _ => inferInstanceAs (Decidable (Zeroed σ.chain pair →
      ∀ newBestPaths ∈ (T.bestPathCalculator (fetchedPairs env σ.chain)).toOption,
        pair ∈ newBestPaths))
  | .dispatch _ _ => isTrue trivial
  | .advance => isTrue trivial

/-- Nothing is sent or applied in a step from a state with a cost of zero. -/
theorem step_of_zeroed {actions : List (Action T)} {a : Action T} {pair : Pair T.Currency}
    (hhonest : Run.Along step Honest (genesis T) (actions ++ [a]))
    (hrecalculates : Run.Along step (Recalculates pair) (genesis T) (actions ++ [a]))
    (hcount : ((genesis T).run actions).applied.length < 2 ^ 64)
    (hzero : Zeroed ((genesis T).run actions).chain pair) :
    (((genesis T).run actions).step a).chain.bestPaths =
        ((genesis T).run actions).chain.bestPaths ∧
      (((genesis T).run actions).step a).applied = ((genesis T).run actions).applied ∧
      (((genesis T).run actions).step a).inFlight = ((genesis T).run actions).inFlight := by
  obtain ⟨halong, hlast, -⟩ := Run.along_append.mp hrecalculates
  have hinFlight : (((genesis T).run actions).step a).inFlight =
      ((genesis T).run actions).inFlight := by
    cases a with
    | advance => rfl
    | dispatch origin call =>
        dsimp only [step, dispatch]
        split <;> rfl
    | round env b =>
        obtain ⟨path, hpath, hcost⟩ := hzero
        change (round _ env b).inFlight = _
        rw [round_eq, sentBy_eq_nil hpath hcost (hlast ⟨path, hpath, hcost⟩)]
        rfl
  rcases step_cases ((genesis T).run actions) a with ⟨hbest, -, happlied⟩ |
    ⟨payload, signature, rfl, hexpected, -⟩
  · exact ⟨hbest, happlied, hinFlight⟩
  · -- the round that sent the payload read the same best paths
    have hsent : ((genesis T).run actions).Honest
        (.dispatch .none (.ocwSubmitBestPathsChanges payload signature)) :=
      (Run.along_append.mp hhonest).2.1
    obtain ⟨r, hr, rfl⟩ := List.mem_map.mp (hsent payload (List.mem_singleton.mpr rfl))
    obtain ⟨pre, env, b, post, rfl, hround⟩ := exists_round_of_mem_inFlight hr
    obtain ⟨-, hfetch, -⟩ := mem_sentBy_iff.mp hround
    obtain ⟨-, -, -, hread⟩ := fetchPricesAndUpdateBestPaths_eq_ok hfetch
    obtain ⟨-, hsame⟩ := sameStore_run hcount (hexpected.trans hread)
    obtain ⟨path, hpath, hcost⟩ := hzero
    rw [← hsame.bestPaths] at hpath
    have hmeets : Recalculates pair ((genesis T).run pre) (.round env b) :=
      (Run.along_append.mp halong).2.1
    rw [sentBy_eq_nil hpath hcost (hmeets ⟨path, hpath, hcost⟩)] at hround
    cases hround

/-- Once a cost of zero is stored, and as long as rounds calculate its pair, no payload is
sent or applied again: the best paths stay as they are. -/
theorem run_zeroed (pair : Pair T.Currency) {actions more : List (Action T)}
    (hhonest : Run.Along step Honest (genesis T) (actions ++ more))
    (hrecalculates : Run.Along step (Recalculates pair) (genesis T) (actions ++ more))
    (hcount : ((genesis T).run actions).applied.length < 2 ^ 64)
    (hzero : Zeroed ((genesis T).run actions).chain pair) :
    ((genesis T).run (actions ++ more)).chain.bestPaths =
        ((genesis T).run actions).chain.bestPaths ∧
      ((genesis T).run (actions ++ more)).applied = ((genesis T).run actions).applied ∧
      ((genesis T).run (actions ++ more)).inFlight = ((genesis T).run actions).inFlight := by
  induction more using List.reverseRecOn with
  | nil => simp
  | append_singleton more a ih =>
      rw [← List.append_assoc] at hhonest hrecalculates ⊢
      obtain ⟨hbest, happlied, hinFlight⟩ := ih (Run.along_append.mp hhonest).1
        (Run.along_append.mp hrecalculates).1
      have hstep := step_of_zeroed hhonest hrecalculates (by rwa [happlied]) (by
        unfold Zeroed
        rw [hbest]
        exact hzero)
      rw [run_append]
      exact ⟨hstep.1.trans hbest, hstep.2.1.trans happlied, hstep.2.2.trans hinFlight⟩

/-! ## Runs of the node's runtime -/

/-- A worker reads a chain with one monitored pair. -/
def monitoredRun : List (Action (nodeRuntime Algo.Log2.rational)) :=
  [.dispatch .root (.submitMonitoredPairs [⟨⟨⟨btc, usdt⟩, .cryptoCompare⟩, .add⟩])]

theorem run_firstWins_monitoredRun :
    ∃ r ∈ sentBy (mockEnvironment _ 50000) ((genesis _).run monitoredRun).chain 1,
      ((∃ chain, ocwSubmitBestPathsChanges .none r.payload 7
          ((genesis _).run (monitoredRun ++ [.round (mockEnvironment _ 50000) 1, .advance])).chain =
            .ok chain) ↔
        ((genesis _).run (monitoredRun ++ [.round (mockEnvironment _ 50000) 1, .advance])).applied =
            ((genesis _).run monitoredRun).applied ∧
          Printable r.payload.changes) := by
  have hsent : sentBy (mockEnvironment _ 50000) ((genesis _).run monitoredRun).chain 1 ≠ [] := by
    intro hnil
    have hlength := congrArg List.length hnil
    revert hlength
    decide +kernel
  obtain ⟨r, hr⟩ := List.exists_mem_of_ne_nil _ hsent
  exact ⟨r, hr, run_firstWins hr (by decide +kernel) 7⟩

/-- Two prices of one unit multiply to a cost of zero, which is submitted. -/
def zeroRun : List (Action (nodeRuntime Algo.Log2.rational)) :=
  let rounds : List (Action (nodeRuntime Algo.Log2.rational)) :=
    [.dispatch .root (.submitMonitoredPairs
        [⟨⟨⟨btc, eth⟩, .cryptoCompare⟩, .add⟩, ⟨⟨⟨eth, usdt⟩, .cryptoCompare⟩, .add⟩]),
      .round (mockEnvironment _ 1) 1]
  rounds ++ submitNewest ((genesis _).run rounds)

theorem run_zeroed_zeroRun :
    ((genesis _).run (zeroRun ++ [.advance, .round (mockEnvironment _ 5) 2])).chain.bestPaths =
        ((genesis _).run zeroRun).chain.bestPaths ∧
      ((genesis _).run (zeroRun ++ [.advance, .round (mockEnvironment _ 5) 2])).applied =
        ((genesis _).run zeroRun).applied ∧
      ((genesis _).run (zeroRun ++ [.advance, .round (mockEnvironment _ 5) 2])).inFlight =
        ((genesis _).run zeroRun).inFlight :=
  run_zeroed ⟨btc, usdt⟩ (by decide +kernel) (by decide +kernel) (by decide +kernel)
    (by decide +kernel)

end Network

end Aggregator
