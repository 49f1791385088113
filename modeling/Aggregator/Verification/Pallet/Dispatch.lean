import Aggregator.Model.Pallet

/-! # What a dispatched call does to the storage -/

namespace Aggregator

variable {T : Config}

/-! ## Arithmetic and logging -/

namespace Config

theorem add_eq_ok {ε : Type} {n : ℕ} {x y z : BitVec n} (h : (T.add x y : Exec ε _) = .ok z) :
    z = x + y := by
  unfold add at h
  split at h
  · cases h
  · cases h
    rfl

/-- A sum that fits where overflow is checked is the sum of the type. -/
theorem add_of_checked {ε : Type} {n : ℕ} {x y : BitVec n}
    (h : T.build.overflowChecks = true → x.toNat + y.toNat < 2 ^ n) :
    (T.add x y : Exec ε _) = .ok (x + y) :=
  if_neg fun hover => not_le.mpr (h hover.1) hover.2

/-- A sum that fits is exact, whether overflow is checked or not. -/
theorem add_of_lt {ε : Type} {n : ℕ} {x y : BitVec n} (h : x.toNat + y.toNat < 2 ^ n) :
    (T.add x y : Exec ε _) = .ok (x + y) :=
  add_of_checked fun _ => h

theorem add_eq_ok_iff {ε : Type} {n : ℕ} {x y z : BitVec n} :
    (T.add x y : Exec ε _) = .ok z ↔
      (T.build.overflowChecks = true → x.toNat + y.toNat < 2 ^ n) ∧ z = x + y := by
  constructor
  · intro h
    refine ⟨fun hchecks => ?_, add_eq_ok h⟩
    by_contra hover
    rw [add, if_pos ⟨hchecks, not_lt.mp hover⟩] at h
    cases h
  · rintro ⟨hfits, rfl⟩
    exact add_of_checked hfits

theorem add_avoids {ε : Type} {n : ℕ} {bad : Set Panic} (hbad : .overflow ∉ bad)
    (x y : BitVec n) : Exec.Avoids bad (T.add x y : Exec ε _) := by
  unfold add
  split
  · intro p hp h
    cases h
    exact hbad hp
  · exact Exec.Avoids.ok _

theorem mul_eq_ok {ε : Type} {n : ℕ} {x y z : BitVec n} (h : (T.mul x y : Exec ε _) = .ok z) :
    z = x * y := by
  unfold mul at h
  split at h
  · cases h
  · cases h
    rfl

/-- A product that fits is exact, whether overflow is checked or not. -/
theorem mul_of_lt {ε : Type} {n : ℕ} {x y : BitVec n} (h : x.toNat * y.toNat < 2 ^ n) :
    (T.mul x y : Exec ε _) = .ok (x * y) :=
  if_neg fun hover => not_le.mpr h hover.2

theorem log_avoids {ε : Type} {bad : Set Panic} (hbad : .unwrap ∉ bad) (on : Bool)
    (currencies : List T.Currency) : Exec.Avoids bad (T.log on currencies : Exec ε _) := by
  unfold log
  split
  · exact Exec.Avoids.forM fun c _ => Exec.Avoids.orPanic hbad _
  · exact Exec.Avoids.ok _

theorem log_eq_ok_iff {ε : Type} {on : Bool} {currencies : List T.Currency} :
    (T.log on currencies : Exec ε _) = .ok ⟨⟩ ↔
      on = true → ∀ c ∈ currencies, (Conversions.toStr c).isSome := by
  unfold log
  cases on with
  | false => simp
  | true =>
      rw [if_pos rfl, Exec.forM_eq_ok_iff]
      simp only [Exec.orPanic_eq_ok_iff, forall_const]
      refine forall₂_congr fun c _ => ?_
      cases Conversions.toStr c <;> simp

end Config

theorem toNat_add_one {x : BitVec 64} (h : x.toNat + 1 < 2 ^ 64) :
    (x + 1).toNat = x.toNat + 1 := by
  rw [BitVec.toNat_add]
  exact Nat.mod_eq_of_lt h

/-! ## The changes of a payload -/

/-- The pair that a change is about. -/
def BestPathChange.pair {C A : Type} (change : BestPathChange C A) : Pair C :=
  ⟨change.1, change.2.1⟩

/-- The changes written one after the other. -/
def applyChanges (changes : List T.Change) (bestPaths : T.BestPaths) : T.BestPaths :=
  changes.foldl (fun m change => m.alter change.pair fun _ => change.2.2) bestPaths

/-- A pair ends with what the last change about it says. -/
theorem getElem?_applyChanges (changes : List T.Change) (bestPaths : T.BestPaths)
    (pair : Pair T.Currency) :
    (applyChanges changes bestPaths)[pair]? =
      ((changes.filter fun change => change.pair = pair).getLast?.map fun change =>
        change.2.2).getD bestPaths[pair]? :=
  KeyedFold.getElem?_overwrite changes bestPaths pair

/-- A pair about which all changes say `v` ends with `v`. -/
theorem getElem?_applyChanges_of_mem {changes : List T.Change} {bestPaths : T.BestPaths}
    {pair : Pair T.Currency} {v : Option T.Path}
    (hall : ∀ change ∈ changes, change.pair = pair → change.2.2 = v)
    (hmem : ∃ change ∈ changes, change.pair = pair) :
    (applyChanges changes bestPaths)[pair]? = v :=
  KeyedFold.getElem?_overwrite_of_mem hall (List.mem_map.mpr hmem)

theorem getElem?_applyChanges_of_not_mem {changes : List T.Change} {bestPaths : T.BestPaths}
    {pair : Pair T.Currency} (hnone : ∀ change ∈ changes, change.pair ≠ pair) :
    (applyChanges changes bestPaths)[pair]? = bestPaths[pair]? := by
  refine KeyedFold.getElem?_overwrite_of_not_mem fun hmem => ?_
  obtain ⟨change, hchange, hpair⟩ := List.mem_map.mp hmem
  exact hnone change hchange hpair

theorem applyChange_eq_ok {acc acc' : T.BestPaths × List (BestPricesEntry T)} {change : T.Change}
    (h : applyChange acc change = .ok acc') :
    acc'.1 = acc.1.alter change.pair fun _ => change.2.2 := by
  obtain ⟨source, target, newPath⟩ := change
  unfold applyChange at h
  cases newPath with
  | some path =>
      obtain ⟨⟨⟩, -, h⟩ := Exec.bind_eq_ok_iff.mp h
      cases h
      rfl
  | none =>
      simp only at h
      split at h
      · obtain ⟨⟨⟩, -, h⟩ := Exec.bind_eq_ok_iff.mp h
        cases h
        rfl
      · rename_i habsent
        cases h
        exact (KeyedFold.alter_eq_self (Std.ExtTreeMap.getElem?_eq_none habsent).symm).symm

theorem foldlM_applyChange_eq_ok {changes : List T.Change}
    {acc acc' : T.BestPaths × List (BestPricesEntry T)}
    (h : changes.foldlM applyChange acc = .ok acc') : acc'.1 = applyChanges changes acc.1 :=
  Exec.foldlM_eq_ok Prod.fst (fun _ _ _ h => applyChange_eq_ok h) h

/-! ## Successful calls -/

theorem ensureNone_eq_ok {AccountId : Type} {origin : Origin AccountId} {u : PUnit}
    (h : ensureNone origin = .ok u) : origin = .none := by
  cases origin with
  | none => rfl
  | _ => cases h

theorem ensureRoot_eq_ok {AccountId : Type} {origin : Origin AccountId} {u : PUnit}
    (h : ensureRoot origin = .ok u) : origin = .root := by
  cases origin with
  | root => rfl
  | _ => cases h

theorem ensureSigned_eq_ok {AccountId : Type} {origin : Origin AccountId} {who : AccountId}
    (h : ensureSigned origin = .ok who) : origin = .signed who := by
  cases origin with
  | signed who' =>
      cases h
      rfl
  | _ => cases h

variable {origin : Origin T.AccountId} {s s' : ChainState T}

theorem ocwSubmitBestPathsChanges_eq_ok {payload : T.Payload} {signature : T.Signature}
    (h : ocwSubmitBestPathsChanges origin payload signature s = .ok s') :
    origin = .none ∧ s.unsignedTxNonce = payload.nonce ∧
      ∃ events, s' = { s with
        bestPaths := applyChanges payload.changes s.bestPaths
        unsignedTxNonce := s.unsignedTxNonce + 1
        events := events } := by
  unfold ocwSubmitBestPathsChanges at h
  obtain ⟨⟨⟩, horigin, h⟩ := Exec.bind_eq_ok_iff.mp h
  obtain ⟨⟨⟩, hnonce, h⟩ := Exec.bind_eq_ok_iff.mp h
  obtain ⟨⟨bestPaths, eventPayload⟩, hfold, h⟩ := Exec.bind_eq_ok_iff.mp h
  obtain ⟨nonce, hadd, h⟩ := Exec.bind_eq_ok_iff.mp h
  obtain rfl : bestPaths = applyChanges payload.changes s.bestPaths :=
    foldlM_applyChange_eq_ok hfold
  obtain rfl := Config.add_eq_ok hadd
  refine ⟨ensureNone_eq_ok horigin, Exec.ensure_eq_ok_iff.mp hnonce, ?_⟩
  cases hempty : eventPayload.isEmpty <;> simp only [hempty] at h <;> cases h <;>
    exact ⟨_, rfl⟩

theorem ocwSubmitBestPathsChanges_stale {payload : T.Payload} {signature : T.Signature}
    (h : s.unsignedTxNonce ≠ payload.nonce) :
    ocwSubmitBestPathsChanges .none payload signature s =
      .error (.err .staleUnsignedTxError) := by
  unfold ocwSubmitBestPathsChanges
  simp only [ensureNone, Exec.ensure_neg h, Exec.ok_bind, Exec.error_bind]

/-- Where the runtime logs its changes, their currencies are valid UTF-8. -/
def Printable (changes : List T.Change) : Prop :=
  T.build.logInfo = true → ∀ change ∈ changes,
    (Conversions.toStr change.1).isSome ∧ (Conversions.toStr change.2.1).isSome

theorem exists_applyChange_eq_ok {changes : List T.Change} (h : Printable changes)
    {change : T.Change} (hmem : change ∈ changes)
    (acc : T.BestPaths × List (BestPricesEntry T)) :
    ∃ acc', applyChange acc change = .ok acc' := by
  obtain ⟨source, target, newPath⟩ := change
  have hlog : (T.log T.build.logInfo [source, target] : Exec DispatchError _) = .ok ⟨⟩ :=
    Config.log_eq_ok_iff.mpr fun hon => by simpa using h hon _ hmem
  unfold applyChange
  cases newPath with
  | some path =>
      dsimp only
      rw [hlog, Exec.ok_bind]
      exact ⟨_, rfl⟩
  | none =>
      dsimp only
      split
      · rw [hlog, Exec.ok_bind]
        exact ⟨_, rfl⟩
      · exact ⟨acc, rfl⟩

/-- A printable payload with the expected nonce is applied. -/
theorem exists_ocwSubmitBestPathsChanges_eq_ok {payload : T.Payload} {signature : T.Signature}
    (hnonce : s.unsignedTxNonce = payload.nonce) (hprint : Printable payload.changes)
    (hfits : s.unsignedTxNonce.toNat + 1 < 2 ^ 64) :
    ∃ s', ocwSubmitBestPathsChanges .none payload signature s = .ok s' := by
  obtain ⟨⟨bestPaths, eventPayload⟩, hfold⟩ := Exec.exists_foldlM_eq_ok
    (fun acc _ hchange => exists_applyChange_eq_ok hprint hchange acc) (s.bestPaths, [])
  have hadd : (T.add s.unsignedTxNonce 1 : Exec DispatchError _) =
      .ok (s.unsignedTxNonce + 1) := Config.add_of_checked fun _ => hfits
  unfold ocwSubmitBestPathsChanges
  simp only [ensureNone, Exec.ensure_pos hnonce, Exec.ok_bind, hfold, hadd]
  exact ⟨_, rfl⟩

/-- Additions are applied only where their messages can be printed. -/
theorem printable_of_foldlM_applyChange {changes : List T.Change}
    {acc acc' : T.BestPaths × List (BestPricesEntry T)}
    (h : changes.foldlM applyChange acc = .ok acc')
    (hsome : ∀ change ∈ changes, change.2.2.isSome = true) : Printable changes := by
  intro hon change hchange
  obtain ⟨acc₁, acc₂, happly⟩ := Exec.exists_of_foldlM_eq_ok h hchange
  obtain ⟨source, target, newPath⟩ := change
  obtain ⟨path, rfl⟩ := Option.isSome_iff_exists.mp (hsome _ hchange)
  obtain ⟨⟨⟩, hlog, -⟩ := Exec.bind_eq_ok_iff.mp happly
  simpa using Config.log_eq_ok_iff.mp hlog hon

/-- When a payload of additions is applied. -/
theorem exists_ocwSubmitBestPathsChanges_iff {payload : T.Payload} (signature : T.Signature)
    (hsome : ∀ change ∈ payload.changes, change.2.2.isSome = true) :
    (∃ s', ocwSubmitBestPathsChanges .none payload signature s = .ok s') ↔
      s.unsignedTxNonce = payload.nonce ∧ Printable payload.changes ∧
        ∃ nonce, (T.add s.unsignedTxNonce 1 : Exec DispatchError _) = .ok nonce := by
  constructor
  · rintro ⟨s', h⟩
    unfold ocwSubmitBestPathsChanges at h
    obtain ⟨⟨⟩, -, h⟩ := Exec.bind_eq_ok_iff.mp h
    obtain ⟨⟨⟩, hnonce, h⟩ := Exec.bind_eq_ok_iff.mp h
    obtain ⟨⟨bestPaths, eventPayload⟩, hfold, h⟩ := Exec.bind_eq_ok_iff.mp h
    obtain ⟨nonce, hadd, -⟩ := Exec.bind_eq_ok_iff.mp h
    exact ⟨Exec.ensure_eq_ok_iff.mp hnonce, printable_of_foldlM_applyChange hfold hsome,
      nonce, hadd⟩
  · rintro ⟨hnonce, hprint, nonce, hadd⟩
    obtain ⟨⟨bestPaths, eventPayload⟩, hfold⟩ := Exec.exists_foldlM_eq_ok
      (fun acc _ hchange => exists_applyChange_eq_ok hprint hchange acc) (s.bestPaths, [])
    unfold ocwSubmitBestPathsChanges
    simp only [ensureNone, Exec.ensure_pos hnonce, Exec.ok_bind, hfold, hadd]
    exact ⟨_, rfl⟩

theorem submitMonitoredPairs_eq_ok {operations : List (ProviderPairOperation T.Currency Provider)}
    (h : submitMonitoredPairs origin operations s = .ok s') :
    origin = .root ∧ ∃ events, s' = { s with
      monitoredPairs := ((dedupe operations).foldl applyOperation (s.monitoredPairs, [])).1
      events := events } := by
  unfold submitMonitoredPairs at h
  obtain ⟨⟨⟩, horigin, h⟩ := Exec.bind_eq_ok_iff.mp h
  refine ⟨ensureRoot_eq_ok horigin, ?_⟩
  cases hempty : ((dedupe operations).foldl applyOperation (s.monitoredPairs, [])).2.isEmpty <;>
    simp only [hempty] at h <;> cases h <;> exact ⟨_, rfl⟩

theorem addWhitelistedOffchainAuthority_eq_ok {offchainAuthority : T.AccountId}
    (h : addWhitelistedOffchainAuthority origin offchainAuthority s = .ok s') :
    origin = .root ∧ ∃ events, s' = { s with
      whitelistedOffchainAuthorities :=
        s.whitelistedOffchainAuthorities.insert offchainAuthority ⟨⟩
      events := events } := by
  unfold addWhitelistedOffchainAuthority at h
  obtain ⟨⟨⟩, horigin, h⟩ := Exec.bind_eq_ok_iff.mp h
  cases h
  exact ⟨ensureRoot_eq_ok horigin, _, rfl⟩

theorem trade_eq_ok {source target : T.Currency} {amount : T.Amount}
    (h : trade origin source target amount s = .ok s') :
    ∃ who, origin = .signed who ∧ ∃ events, s' = { s with events := events } := by
  unfold trade at h
  obtain ⟨who, horigin, h⟩ := Exec.bind_eq_ok_iff.mp h
  refine ⟨who, ensureSigned_eq_ok horigin, ?_⟩
  split at h
  · obtain ⟨targetAmount, -, h⟩ := Exec.bind_eq_ok_iff.mp h
    cases h
    exact ⟨_, rfl⟩
  · cases h

/-- What a successful call can have done. -/
theorem Call.dispatch_eq_ok {call : Call T} (h : call.dispatch origin s = .ok s') :
    (∃ payload signature, call = .ocwSubmitBestPathsChanges payload signature ∧
      origin = .none ∧ s.unsignedTxNonce = payload.nonce ∧ ∃ events, s' = { s with
        bestPaths := applyChanges payload.changes s.bestPaths
        unsignedTxNonce := s.unsignedTxNonce + 1
        events := events }) ∨
    (∃ offchainAuthority, call = .addWhitelistedOffchainAuthority offchainAuthority ∧
      origin = .root ∧ ∃ events, s' = { s with
        whitelistedOffchainAuthorities :=
          s.whitelistedOffchainAuthorities.insert offchainAuthority ⟨⟩
        events := events }) ∨
    ((∀ payload signature, call ≠ .ocwSubmitBestPathsChanges payload signature) ∧
      ∃ monitoredPairs events, s' = { s with
        monitoredPairs := monitoredPairs
        events := events }) := by
  cases call with
  | ocwSubmitBestPathsChanges payload signature =>
      have hsubmit : Aggregator.ocwSubmitBestPathsChanges origin payload signature s = .ok s' := h
      exact .inl ⟨payload, signature, rfl, ocwSubmitBestPathsChanges_eq_ok hsubmit⟩
  | addWhitelistedOffchainAuthority offchainAuthority =>
      exact .inr (.inl ⟨offchainAuthority, rfl, addWhitelistedOffchainAuthority_eq_ok h⟩)
  | submitMonitoredPairs operations =>
      obtain ⟨-, events, hs'⟩ := submitMonitoredPairs_eq_ok h
      exact .inr (.inr ⟨by simp, _, events, hs'⟩)
  | trade source target amount =>
      obtain ⟨-, -, events, hs'⟩ := trade_eq_ok h
      exact .inr (.inr ⟨by simp, s.monitoredPairs, events, hs'⟩)

end Aggregator
