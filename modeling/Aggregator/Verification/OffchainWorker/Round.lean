import Aggregator.Model.OffchainWorker
import Aggregator.Verification.Pallet.Dispatch
import Mathlib.Data.List.ReduceOption

/-! # What a round computes -/

namespace Aggregator

variable {T : Config}

/-! ## Tolerance -/

theorem breachesTolerance_zero {ε : Type} (new tolerance : ℕ) :
    (breachesTolerance 0 new tolerance : Exec ε Bool) = .error (.panic .divideByZero) := rfl

theorem breachesTolerance_eq_ok_iff {ε : Type} {old new tolerance : ℕ} {b : Bool} :
    (breachesTolerance old new tolerance : Exec ε Bool) = .ok b ↔ old ≠ 0 ∧
      b = decide (tolerance <
        (if old > new then saturatingMul 1000000 (old - new)
          else saturatingMul 1000000 (new - old)) / old) := by
  by_cases hold : old = 0
  · subst hold
    simp [breachesTolerance_zero]
  · by_cases hlt : old > new <;>
      simp [breachesTolerance, hold, hlt, pure, Except.pure, eq_comm]

theorem exists_breachesTolerance_eq_ok {ε : Type} {old : ℕ} (hold : old ≠ 0)
    (new tolerance : ℕ) : ∃ b, (breachesTolerance old new tolerance : Exec ε Bool) = .ok b :=
  ⟨_, breachesTolerance_eq_ok_iff.mpr ⟨hold, rfl⟩⟩

/-! ## The changes -/

/-- What the loop over the stored paths finds for one of them. -/
theorem changeOfStored_eq_ok {newBestPaths : T.BestPaths} {pair : Pair T.Currency} {old : T.Path}
    {r : Option T.Change} (h : changeOfStored newBestPaths (pair, old) = .ok r) :
    (newBestPaths[pair]? = none ∧ r = none) ∨
      ∃ path b, newBestPaths[pair]? = some path ∧
        (breachesTolerance old.totalCost.toNat path.totalCost.toNat
          T.priceChangeTolerance.toNat : Exec String Bool) = .ok b ∧
        r = if b then some (pair.source, pair.target, some path) else none := by
  simp only [changeOfStored] at h
  split at h
  · rename_i path hpath
    obtain ⟨oldCost, hold, h⟩ := Exec.bind_eq_ok_iff.mp h
    obtain ⟨newCost, hnew, h⟩ := Exec.bind_eq_ok_iff.mp h
    obtain ⟨b, hb, h⟩ := Exec.bind_eq_ok_iff.mp h
    obtain ⟨-, rfl⟩ := Amount.toU128_eq_some_iff.mp (Exec.orErr_eq_ok_iff.mp hold)
    obtain ⟨-, rfl⟩ := Amount.toU128_eq_some_iff.mp (Exec.orErr_eq_ok_iff.mp hnew)
    refine .inr ⟨path, b, hpath, hb, ?_⟩
    cases b <;> obtain ⟨⟨⟩, -, h⟩ := Exec.bind_eq_ok_iff.mp h <;> cases h <;> rfl
  · rename_i hpath
    obtain ⟨⟨⟩, -, h⟩ := Exec.bind_eq_ok_iff.mp h
    cases h
    exact .inl ⟨hpath, rfl⟩

theorem changeOfNew_eq_ok {bestPaths : T.BestPaths} {pair : Pair T.Currency} {path : T.Path}
    {r : Option T.Change} (h : changeOfNew bestPaths (pair, path) = .ok r) :
    r = if pair ∈ bestPaths then none else some (pair.source, pair.target, some path) := by
  simp only [changeOfNew] at h
  by_cases hmem : pair ∈ bestPaths
  · rw [if_neg (not_not.mpr hmem)] at h
    cases h
    rw [if_pos hmem]
  · rw [if_pos hmem] at h
    obtain ⟨⟨⟩, -, h⟩ := Exec.bind_eq_ok_iff.mp h
    cases h
    rw [if_neg hmem]

theorem changeOfStored_eq_some_iff {newBestPaths : T.BestPaths} {pair : Pair T.Currency}
    {old : T.Path} {r : Option T.Change}
    (h : changeOfStored newBestPaths (pair, old) = .ok r) {change : T.Change} :
    r = some change ↔ ∃ path : T.Path, newBestPaths[pair]? = some path ∧
      change = (pair.source, pair.target, some path) ∧
        (breachesTolerance old.totalCost.toNat path.totalCost.toNat
          T.priceChangeTolerance.toNat : Exec String Bool) = .ok true := by
  rcases changeOfStored_eq_ok h with ⟨hnone, rfl⟩ | ⟨path, b, hpath, hb, rfl⟩
  · simp [hnone]
  · simp [hpath, hb, eq_comm, and_comm]

theorem changeOfNew_eq_some_iff {bestPaths : T.BestPaths} {pair : Pair T.Currency} {path : T.Path}
    {r : Option T.Change} (h : changeOfNew bestPaths (pair, path) = .ok r) {change : T.Change} :
    r = some change ↔ pair ∉ bestPaths ∧ change = (pair.source, pair.target, some path) := by
  rw [changeOfNew_eq_ok h]
  by_cases hmem : pair ∈ bestPaths
  · simp [hmem]
  · simp [hmem, eq_comm]

/-- The messages about the pair can be printed. -/
def Loggable (pair : Pair T.Currency) : Prop :=
  (T.log T.build.logDebug [pair.source, pair.target] : Exec String PUnit.{1}) = .ok ⟨⟩

/-- The stored path can be compared with the new one. -/
structure Comparable (old path : T.Path) : Prop where
  old_fits : old.totalCost.toNat ≤ u128Max
  new_fits : path.totalCost.toNat ≤ u128Max
  old_ne_zero : old.totalCost.toNat ≠ 0

theorem exists_changeOfStored_eq_ok_iff {newBestPaths : T.BestPaths} {pair : Pair T.Currency}
    {old : T.Path} :
    (∃ r, changeOfStored newBestPaths (pair, old) = .ok r) ↔
      Loggable pair ∧ ∀ path : T.Path, newBestPaths[pair]? = some path → Comparable old path := by
  simp only [changeOfStored]
  cases hnew : newBestPaths[pair]? with
  | none =>
      simp only [Exec.bind_eq_ok_iff]
      constructor
      · rintro ⟨r, ⟨⟩, hlog, -⟩
        exact ⟨hlog, by simp⟩
      · rintro ⟨hlog, -⟩
        exact ⟨none, ⟨⟩, hlog, rfl⟩
  | some path =>
      simp only [Exec.bind_eq_ok_iff, Exec.orErr_eq_ok_iff, Amount.toU128_eq_some_iff]
      constructor
      · rintro ⟨r, oldCost, ⟨hold, rfl⟩, newCost, ⟨hnew, rfl⟩, b, hb, h⟩
        have hlog : Loggable pair := by
          cases b <;> obtain ⟨⟨⟩, hlog, -⟩ := Exec.bind_eq_ok_iff.mp h <;> exact hlog
        refine ⟨hlog, fun path' hpath' => ?_⟩
        obtain rfl := Option.some.inj hpath'
        exact ⟨hold, hnew, (breachesTolerance_eq_ok_iff.mp hb).1⟩
      · rintro ⟨hlog, hcomparable⟩
        obtain ⟨hold, hnew, hne⟩ := hcomparable path rfl
        obtain ⟨b, hb⟩ := exists_breachesTolerance_eq_ok (ε := String) hne path.totalCost.toNat
          T.priceChangeTolerance.toNat
        cases b with
        | false =>
            exact ⟨none, _, ⟨hold, rfl⟩, _, ⟨hnew, rfl⟩, false, hb,
              Exec.bind_eq_ok_iff.mpr ⟨⟨⟩, hlog, rfl⟩⟩
        | true =>
            exact ⟨_, _, ⟨hold, rfl⟩, _, ⟨hnew, rfl⟩, true, hb,
              Exec.bind_eq_ok_iff.mpr ⟨⟨⟩, hlog, rfl⟩⟩

theorem exists_changeOfNew_eq_ok_iff {bestPaths : T.BestPaths} {pair : Pair T.Currency}
    {path : T.Path} :
    (∃ r, changeOfNew bestPaths (pair, path) = .ok r) ↔ pair ∉ bestPaths → Loggable pair := by
  simp only [changeOfNew]
  by_cases hmem : pair ∈ bestPaths
  · rw [if_neg (not_not.mpr hmem)]
    exact ⟨fun _ habsent => (habsent hmem).elim, fun _ => ⟨none, rfl⟩⟩
  · rw [if_pos hmem]
    simp only [Exec.bind_eq_ok_iff]
    constructor
    · rintro ⟨r, ⟨⟩, hlog, -⟩ -
      exact hlog
    · intro hlog
      exact ⟨_, ⟨⟩, hlog hmem, rfl⟩

section SelectChanges

variable {order : IterOrder (Pair T.Currency) T.Path} {bestPaths newBestPaths : T.BestPaths}
  {changes : List T.Change}

theorem IterOrder.mem_iter {K V : Type} [LinearOrder K] (order : IterOrder K V) {m : BTreeMap K V}
    {k : K} {v : V} : (k, v) ∈ order.iter m ↔ m[k]? = some v :=
  (order.perm m).mem_iff.trans KeyedFold.mem_toList_iff

/-- A list of changes is computed when every pair can be printed and every stored path
compared with the new one. -/
theorem exists_selectChanges_eq_ok_iff :
    (∃ changes, selectChanges order bestPaths newBestPaths = .ok changes) ↔
      (∀ (pair : Pair T.Currency) (old : T.Path), bestPaths[pair]? = some old →
        Loggable pair ∧ ∀ path : T.Path, newBestPaths[pair]? = some path → Comparable old path) ∧
      ∀ pair ∈ newBestPaths, pair ∉ bestPaths → Loggable pair := by
  have hstored : (∃ rs, (order.iter bestPaths).mapM (changeOfStored newBestPaths) = .ok rs) ↔
      ∀ (pair : Pair T.Currency) (old : T.Path), bestPaths[pair]? = some old →
        Loggable pair ∧ ∀ path : T.Path, newBestPaths[pair]? = some path →
          Comparable old path := by
    rw [Exec.exists_mapM_eq_ok_iff]
    constructor
    · intro h pair old hold
      exact exists_changeOfStored_eq_ok_iff.mp (h _ (order.mem_iter.mpr hold))
    · rintro h ⟨pair, old⟩ hmem
      exact exists_changeOfStored_eq_ok_iff.mpr (h pair old (order.mem_iter.mp hmem))
  have hadded : (∃ rs, newBestPaths.toList.mapM (changeOfNew bestPaths) = .ok rs) ↔
      ∀ pair ∈ newBestPaths, pair ∉ bestPaths → Loggable pair := by
    rw [Exec.exists_mapM_eq_ok_iff]
    constructor
    · intro h pair hpair
      obtain ⟨path, hpath⟩ := KeyedFold.mem_iff_exists.mp hpair
      exact exists_changeOfNew_eq_ok_iff.mp (h (pair, path) (KeyedFold.mem_toList_iff.mpr hpath))
    · rintro h ⟨pair, path⟩ hmem
      exact exists_changeOfNew_eq_ok_iff.mpr
        (h pair (KeyedFold.mem_of_getElem? (KeyedFold.mem_toList_iff.mp hmem)))
  rw [← hstored, ← hadded]
  simp only [selectChanges, Exec.bind_eq_ok_iff]
  constructor
  · rintro ⟨changes, rs, hrs, rs', hrs', -⟩
    exact ⟨⟨rs, hrs⟩, rs', hrs'⟩
  · rintro ⟨⟨rs, hrs⟩, rs', hrs'⟩
    exact ⟨_, rs, hrs, rs', hrs', rfl⟩

/-- A stored path with a new one was compared with it. -/
theorem exists_breachesTolerance (h : selectChanges order bestPaths newBestPaths = .ok changes)
    {pair : Pair T.Currency} {old path : T.Path} (hold : bestPaths[pair]? = some old)
    (hnew : newBestPaths[pair]? = some path) :
    ∃ b, (breachesTolerance old.totalCost.toNat path.totalCost.toNat
      T.priceChangeTolerance.toNat : Exec String Bool) = .ok b := by
  obtain ⟨stored, hstored, -⟩ := Exec.bind_eq_ok_iff.mp h
  obtain ⟨r, -, hr⟩ := Exec.exists_mem_of_mapM_eq_ok hstored (order.mem_iter.mpr hold)
  rcases changeOfStored_eq_ok hr with ⟨hnone, -⟩ | ⟨path', b, hpath', hb, -⟩
  · rw [hnew] at hnone
    cases hnone
  · rw [hnew] at hpath'
    cases hpath'
    exact ⟨b, hb⟩

/-- The selected changes are the new paths of new pairs, and of stored pairs whose price
change breaches the tolerance. -/
theorem mem_selectChanges (h : selectChanges order bestPaths newBestPaths = .ok changes)
    {change : T.Change} :
    change ∈ changes ↔ ∃ (pair : Pair T.Currency) (path : T.Path),
      change = (pair.source, pair.target, some path) ∧ newBestPaths[pair]? = some path ∧
        ∀ old : T.Path, bestPaths[pair]? = some old →
          (breachesTolerance old.totalCost.toNat path.totalCost.toNat
            T.priceChangeTolerance.toNat : Exec String Bool) = .ok true := by
  obtain ⟨stored, hstored, h⟩ := Exec.bind_eq_ok_iff.mp h
  obtain ⟨added, hadded, h⟩ := Exec.bind_eq_ok_iff.mp h
  cases h
  simp only [List.mem_append, List.reduceOption_mem_iff, Exec.mem_iff_of_mapM_eq_ok hstored,
    Exec.mem_iff_of_mapM_eq_ok hadded]
  constructor
  · rintro (⟨⟨pair, old⟩, hmem, hr⟩ | ⟨⟨pair, path⟩, hmem, hr⟩)
    · obtain ⟨path, hpath, rfl, hb⟩ := (changeOfStored_eq_some_iff hr).mp rfl
      refine ⟨pair, path, rfl, hpath, fun old' hold' => ?_⟩
      rw [order.mem_iter.mp hmem] at hold'
      cases hold'
      exact hb
    · obtain ⟨habsent, rfl⟩ := (changeOfNew_eq_some_iff hr).mp rfl
      refine ⟨pair, path, rfl, KeyedFold.mem_toList_iff.mp hmem, fun old hold => ?_⟩
      exact absurd (KeyedFold.mem_of_getElem? hold) habsent
  · rintro ⟨pair, path, rfl, hpath, hbreach⟩
    by_cases hmem : pair ∈ bestPaths
    · left
      obtain ⟨old, hold⟩ := KeyedFold.mem_iff_exists.mp hmem
      obtain ⟨r, -, hr⟩ := Exec.exists_mem_of_mapM_eq_ok hstored (order.mem_iter.mpr hold)
      have hsome := (changeOfStored_eq_some_iff hr).mpr ⟨path, hpath, rfl, hbreach old hold⟩
      exact ⟨(pair, old), order.mem_iter.mpr hold, hsome ▸ hr⟩
    · right
      have hin : (pair, path) ∈ newBestPaths.toList := KeyedFold.mem_toList_iff.mpr hpath
      obtain ⟨r, -, hr⟩ := Exec.exists_mem_of_mapM_eq_ok hadded hin
      have hsome := (changeOfNew_eq_some_iff hr).mpr ⟨hmem, rfl⟩
      exact ⟨(pair, path), hin, hsome ▸ hr⟩

/-- No selected change removes a path. -/
theorem isSome_of_mem_selectChanges
    (h : selectChanges order bestPaths newBestPaths = .ok changes) :
    ∀ change ∈ changes, change.2.2.isSome = true := by
  intro change hchange
  obtain ⟨pair, path, rfl, -⟩ := (mem_selectChanges h).mp hchange
  rfl

/-- A pair ends with its new path where that is a selected change, and keeps what was
stored elsewhere. -/
theorem getElem?_applyChanges_selectChanges
    (h : selectChanges order bestPaths newBestPaths = .ok changes) (pair : Pair T.Currency) :
    (∃ path : T.Path, newBestPaths[pair]? = some path ∧
      (applyChanges changes bestPaths)[pair]? = some path ∧
      ∀ old : T.Path, bestPaths[pair]? = some old →
        (breachesTolerance old.totalCost.toNat path.totalCost.toNat
          T.priceChangeTolerance.toNat : Exec String Bool) = .ok true) ∨
    ((applyChanges changes bestPaths)[pair]? = bestPaths[pair]? ∧
      ∀ path : T.Path, newBestPaths[pair]? = some path → ∃ old : T.Path,
        bestPaths[pair]? = some old ∧ (breachesTolerance old.totalCost.toNat path.totalCost.toNat
          T.priceChangeTolerance.toNat : Exec String Bool) = .ok false) := by
  by_cases hmem : ∃ change ∈ changes, change.pair = pair
  · left
    obtain ⟨change, hchange, rfl⟩ := hmem
    obtain ⟨pair, path, rfl, hpath, hbreach⟩ := (mem_selectChanges h).mp hchange
    refine ⟨path, hpath, getElem?_applyChanges_of_mem ?_ ⟨_, hchange, rfl⟩, hbreach⟩
    intro change' hchange' hpair
    obtain ⟨pair', path', rfl, hpath', -⟩ := (mem_selectChanges h).mp hchange'
    obtain rfl : pair' = pair := hpair
    exact hpath'.symm.trans hpath
  · right
    refine ⟨getElem?_applyChanges_of_not_mem fun change hchange hpair =>
      hmem ⟨change, hchange, hpair⟩, fun path hpath => ?_⟩
    have hnot : ¬ ∀ old : T.Path, bestPaths[pair]? = some old →
        (breachesTolerance old.totalCost.toNat path.totalCost.toNat
          T.priceChangeTolerance.toNat : Exec String Bool) = .ok true :=
      fun hbreach => hmem ⟨_, (mem_selectChanges h).mpr ⟨pair, path, rfl, hpath, hbreach⟩, rfl⟩
    rw [not_forall] at hnot
    obtain ⟨old, hold⟩ := hnot
    rw [Classical.not_imp] at hold
    obtain ⟨b, hb⟩ := exists_breachesTolerance h hold.1 hpath
    refine ⟨old, hold.1, ?_⟩
    cases b with
    | false => exact hb
    | true => exact (hold.2 hb).elim

end SelectChanges

/-! ## Divisions -/

theorem breachesTolerance_avoids {ε : Type} {old new tolerance : ℕ} (hold : old ≠ 0) :
    Exec.Avoids {.divideByZero} (breachesTolerance old new tolerance : Exec ε Bool) := by
  obtain ⟨b, hok⟩ := exists_breachesTolerance_eq_ok (ε := ε) hold new tolerance
  rw [hok]
  exact Exec.Avoids.ok _

/-- With positive stored costs, selecting the changes divides by no zero. -/
theorem selectChanges_avoids {order : IterOrder (Pair T.Currency) T.Path}
    {bestPaths newBestPaths : T.BestPaths}
    (hpos : ∀ (pair : Pair T.Currency) (old : T.Path), bestPaths[pair]? = some old →
      old.totalCost ≠ 0) :
    Exec.Avoids {.divideByZero} (selectChanges order bestPaths newBestPaths) := by
  refine Exec.Avoids.bind (Exec.Avoids.mapM ?_) fun _ _ =>
    Exec.Avoids.bind (Exec.Avoids.mapM ?_) fun _ _ => Exec.Avoids.ok _
  · rintro ⟨pair, old⟩ hmem
    have hne : old.totalCost ≠ 0 := hpos pair old (order.mem_iter.mp hmem)
    dsimp only [changeOfStored]
    split
    · refine Exec.Avoids.bind (Exec.Avoids.orErr _ _) fun oldCost hold => ?_
      refine Exec.Avoids.bind (Exec.Avoids.orErr _ _) fun newCost _ => ?_
      obtain ⟨-, rfl⟩ := Amount.toU128_eq_some_iff.mp (Exec.orErr_eq_ok_iff.mp hold)
      refine Exec.Avoids.bind (breachesTolerance_avoids fun hzero => hne ?_) fun b _ => ?_
      · exact BitVec.eq_of_toNat_eq hzero
      · cases b <;>
          exact Exec.Avoids.bind (Config.log_avoids (by simp) _ _) fun _ _ => Exec.Avoids.ok _
    · exact Exec.Avoids.bind (Config.log_avoids (by simp) _ _) fun _ _ => Exec.Avoids.ok _
  · rintro ⟨pair, path⟩ -
    dsimp only [changeOfNew]
    split
    · exact Exec.Avoids.bind (Config.log_avoids (by simp) _ _) fun _ _ => Exec.Avoids.ok _
    · exact Exec.Avoids.ok _

theorem fetchPricesAndUpdateBestPaths_avoids {env : Environment T} {s : ChainState T}
    {blockNumber : T.BlockNumber}
    (hcalc : Exec.Avoids {.divideByZero} (T.bestPathCalculator (fetchedPairs env s)))
    (hpos : ∀ (pair : Pair T.Currency) (old : T.Path), s.bestPaths[pair]? = some old →
      old.totalCost ≠ 0) :
    Exec.Avoids {.divideByZero} (fetchPricesAndUpdateBestPaths env s blockNumber) := by
  dsimp only [fetchPricesAndUpdateBestPaths]
  split
  · exact Exec.Avoids.ok _
  · refine Exec.Avoids.bind (Exec.Avoids.mapErr hcalc) fun _ _ => ?_
    refine Exec.Avoids.bind (selectChanges_avoids hpos) fun _ _ => ?_
    split
    · exact Exec.Avoids.ok _
    · refine Exec.Avoids.bind (Exec.Avoids.orErr _ _) fun _ _ => ?_
      exact Exec.Avoids.bind (Exec.Avoids.ensure _ _) fun _ _ => Exec.Avoids.ok _

/-! ## A round that sends a payload -/

/-- What a round needs to send this payload. -/
theorem fetchPricesAndUpdateBestPaths_eq_ok_some_iff {env : Environment T} {s : ChainState T}
    {blockNumber : T.BlockNumber} {payload : T.Payload} :
    fetchPricesAndUpdateBestPaths env s blockNumber = .ok (some payload) ↔
      fetchedPairs env s ≠ [] ∧
        (∃ newBestPaths, T.bestPathCalculator (fetchedPairs env s) = .ok newBestPaths ∧
          selectChanges env.bestPathsOrder s.bestPaths newBestPaths = .ok payload.changes) ∧
        payload.changes ≠ [] ∧ payload.nonce = s.unsignedTxNonce ∧
        payload.blockNumber = blockNumber ∧ env.anyAccount = some payload.publicKey ∧
        env.submit payload = true := by
  constructor
  · intro h
    simp only [fetchPricesAndUpdateBestPaths] at h
    split at h
    · cases h
    · rename_i hfetched
      obtain ⟨newBestPaths, hcalc, h⟩ := Exec.bind_eq_ok_iff.mp h
      obtain ⟨changes, hchanges, h⟩ := Exec.bind_eq_ok_iff.mp h
      split at h
      · cases h
      · rename_i hne
        obtain ⟨account, haccount, h⟩ := Exec.bind_eq_ok_iff.mp h
        obtain ⟨⟨⟩, hpool, h⟩ := Exec.bind_eq_ok_iff.mp h
        cases h
        exact ⟨by simpa using hfetched, ⟨newBestPaths, Exec.mapErr_eq_ok_iff.mp hcalc, hchanges⟩,
          by simpa using hne, rfl, rfl, Exec.orErr_eq_ok_iff.mp haccount,
          Exec.ensure_eq_ok_iff.mp hpool⟩
  · obtain ⟨changes, nonce, block, account⟩ := payload
    rintro ⟨hfetched, ⟨newBestPaths, hcalc, hchanges⟩, hne, rfl, rfl, haccount, hpool⟩
    simp only [fetchPricesAndUpdateBestPaths]
    rw [if_neg (by simpa using hfetched), hcalc]
    simp only [Exec.mapErr, Exec.ok_bind, hchanges]
    rw [if_neg (by simpa using hne)]
    simp only [haccount, Exec.orErr_some, Exec.ok_bind, Exec.ensure_pos hpool]
    rfl

theorem fetchPricesAndUpdateBestPaths_eq_ok {env : Environment T} {s : ChainState T}
    {blockNumber : T.BlockNumber} {payload : T.Payload}
    (h : fetchPricesAndUpdateBestPaths env s blockNumber = .ok (some payload)) :
    ∃ newBestPaths, T.bestPathCalculator (fetchedPairs env s) = .ok newBestPaths ∧
      selectChanges env.bestPathsOrder s.bestPaths newBestPaths = .ok payload.changes ∧
      payload.nonce = s.unsignedTxNonce := by
  obtain ⟨-, ⟨newBestPaths, hcalc, hchanges⟩, -, hnonce, -⟩ :=
    fetchPricesAndUpdateBestPaths_eq_ok_some_iff.mp h
  exact ⟨newBestPaths, hcalc, hchanges, hnonce⟩

theorem fetchPricesAndUpdateBestPaths_changes_ne_nil {env : Environment T} {s : ChainState T}
    {blockNumber : T.BlockNumber} {payload : T.Payload}
    (h : fetchPricesAndUpdateBestPaths env s blockNumber = .ok (some payload)) :
    payload.changes ≠ [] :=
  (fetchPricesAndUpdateBestPaths_eq_ok_some_iff.mp h).2.2.1

end Aggregator
