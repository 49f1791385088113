import Aggregator.Model.Calculator

/-! # The pallet: storage, dispatchables and the unsigned validator (`lib.rs`)

A dispatchable maps the chain state to the next one, returns an error that leaves the
state as it was, or panics. -/

namespace Aggregator

/-! ## Configuration -/

/-- Changes map source/target currency to an option of a best path: an update if there is
one, a removal otherwise. -/
abbrev BestPathChange (C A : Type) := C × C × Option (PricePath C Provider A)

structure BestPathChangesPayload (Public BlockNumber C A : Type) where
  changes : List (BestPathChange C A)
  nonce : BitVec 64
  blockNumber : BlockNumber
  publicKey : Public
  deriving DecidableEq

/-- What the build of the runtime decides: whether unsigned arithmetic is checked, and which
log levels evaluate the arguments of their messages. -/
structure Build where
  overflowChecks : Bool
  logInfo : Bool
  logDebug : Bool
  deriving DecidableEq, Repr

/-- The pallet's `Config`, with the parts of `frame_system::Config` that it uses. -/
structure Config where
  Currency : Type
  [currencyOrd : LinearOrder Currency]
  [currencyConversions : Conversions Currency]
  amountBits : ℕ
  blockNumberBits : ℕ
  AccountId : Type
  [accountIdOrd : LinearOrder AccountId]
  Public : Type
  Signature : Type
  bestPathCalculator : BestPathCalculator Currency Provider amountBits
  /-- `IdentifyAccount::into_account`. -/
  intoAccount : Public → AccountId
  /-- Verification by `AuthorityId` of a signature of the payload under a public key. -/
  verify : Public →
    BestPathChangesPayload Public (BitVec blockNumberBits) Currency (Amount amountBits) →
      Signature → Bool
  offchainTriggerDelay : BitVec blockNumberBits
  maxTxPoolStayTime : BitVec blockNumberBits
  unsignedPriority : BitVec 64
  priceChangeTolerance : BitVec 32
  build : Build

attribute [instance] Config.currencyOrd Config.currencyConversions Config.accountIdOrd

variable (T : Config)

namespace Config

abbrev Amount := Aggregator.Amount T.amountBits

abbrev BlockNumber := BitVec T.blockNumberBits

instance pairTransCmp :
    Std.TransCmp (compare : Pair T.Currency → Pair T.Currency → Ordering) :=
  inferInstance

instance providerPairTransCmp : Std.TransCmp
    (compare : ProviderPair T.Currency Provider → ProviderPair T.Currency Provider → Ordering) :=
  inferInstance

abbrev BestPaths := BestPathMap T.Currency Provider T.amountBits

abbrev Path := PricePath T.Currency Provider T.Amount

abbrev Change := BestPathChange T.Currency T.Amount

abbrev Payload := BestPathChangesPayload T.Public T.BlockNumber T.Currency T.Amount

/-- The sum of two unsigned integers: overflow panics where it is checked and wraps
elsewhere. -/
def add {ε : Type} {n : ℕ} (x y : BitVec n) : Exec ε (BitVec n) :=
  if T.build.overflowChecks ∧ 2 ^ n ≤ x.toNat + y.toNat then Exec.panic .overflow else .ok (x + y)

def mul {ε : Type} {n : ℕ} (x y : BitVec n) : Exec ε (BitVec n) :=
  if T.build.overflowChecks ∧ 2 ^ n ≤ x.toNat * y.toNat then Exec.panic .overflow else .ok (x * y)

/-- The currencies that a message prints through `to_str`, when its level is on. -/
def log {ε : Type} (on : Bool) (currencies : List T.Currency) : Exec ε PUnit :=
  if on then
    forM currencies fun c => Exec.orPanic .unwrap ((Conversions.toStr c).map fun _ => ⟨⟩)
  else .ok ⟨⟩

end Config

/-! ## Storage -/

inductive Event where
  | bestPricesSubmitted (changes : List (T.Currency × T.Currency × T.Amount × Operation))
  | monitoredPairsSubmitted (changes : List (T.Currency × T.Currency × Provider × Operation))
  | tradePerformed (owner : T.AccountId) (source target : T.Currency)
      (cost sourceAmount targetAmount : T.Amount)
  | whitelistedOffchainAuthorityAdded (offchainAuthority : T.AccountId)

/-- Module errors, and the error of a rejected origin. -/
inductive DispatchError where
  | pricePairNotFoundError
  | staleUnsignedTxError
  | badOrigin
  deriving DecidableEq, Repr

structure ChainState where
  bestPaths : T.BestPaths
  monitoredPairs : BTreeMap (ProviderPair T.Currency Provider) Unit
  whitelistedOffchainAuthorities : BTreeMap T.AccountId Unit
  unsignedTxNonce : BitVec 64
  blockNumber : T.BlockNumber
  events : List (Event T)

/-- The storage before any extrinsic. -/
def ChainState.genesis : ChainState T where
  bestPaths := ∅
  monitoredPairs := ∅
  whitelistedOffchainAuthorities := ∅
  unsignedTxNonce := 0
  blockNumber := 0
  events := []

variable {T}

/-- `deposit_event`. Block 0 is no exception here: FRAME records no event in it, but no extrinsic
runs before block 1 either. -/
def ChainState.depositEvent (s : ChainState T) (e : Event T) : ChainState T :=
  { s with events := s.events ++ [e] }

/-! ## Dispatchables -/

inductive Origin (AccountId : Type) where
  | root
  | signed (who : AccountId)
  | none

def ensureNone {AccountId : Type} : Origin AccountId → Exec DispatchError PUnit
  | .none => .ok ⟨⟩
  | _ => Exec.fail .badOrigin

def ensureRoot {AccountId : Type} : Origin AccountId → Exec DispatchError PUnit
  | .root => .ok ⟨⟩
  | _ => Exec.fail .badOrigin

def ensureSigned {AccountId : Type} : Origin AccountId → Exec DispatchError AccountId
  | .signed who => .ok who
  | _ => Exec.fail .badOrigin

abbrev BestPricesEntry (T : Config) := T.Currency × T.Currency × T.Amount × Operation

/-- The closure given to `BestPaths::mutate_exists`, with the entries of the event. -/
def applyChange (acc : T.BestPaths × List (BestPricesEntry T)) (change : T.Change) :
    Exec DispatchError (T.BestPaths × List (BestPricesEntry T)) := do
  let (source, target, newPath) := change
  let pair : Pair T.Currency := ⟨source, target⟩
  match newPath with
  | some path =>
      T.log T.build.logInfo [source, target]
      return (acc.1.alter pair fun _ => some path,
        acc.2 ++ [(source, target, path.totalCost, .add)])
  | none =>
      if pair ∈ acc.1 then
        T.log T.build.logInfo [source, target]
        return (acc.1.alter pair fun _ => none, acc.2 ++ [(source, target, 0, .del)])
      else return acc

def ocwSubmitBestPathsChanges (origin : Origin T.AccountId) (payload : T.Payload)
    (_signature : T.Signature) (s : ChainState T) : Exec DispatchError (ChainState T) := do
  ensureNone origin
  let currentNonce := s.unsignedTxNonce
  Exec.ensure (currentNonce = payload.nonce) .staleUnsignedTxError
  let (bestPaths, eventPayload) ← payload.changes.foldlM applyChange (s.bestPaths, [])
  let unsignedTxNonce ← T.add currentNonce 1
  let s := { s with bestPaths, unsignedTxNonce }
  -- only issue event if mods were made
  return if eventPayload.isEmpty then s
    else s.depositEvent (.bestPricesSubmitted eventPayload)

/-- Dedupe operations, keep the latest for each provider pair, preserving order. -/
def dedupe (operations : List (ProviderPairOperation T.Currency Provider)) :
    List (ProviderPairOperation T.Currency Provider) :=
  (operations.reverse.foldl (fun (acc : BTreeSet (ProviderPair T.Currency Provider) ×
      List (ProviderPairOperation T.Currency Provider)) op =>
    if op.providerPair ∈ acc.1 then acc
    else (acc.1.insert op.providerPair, acc.2 ++ [op])) (∅, [])).2.reverse

abbrev MonitoredPairsEntry (T : Config) := T.Currency × T.Currency × Provider × Operation

/-- The closure given to `MonitoredPairs::mutate_exists`, with the entries of the event. -/
def applyOperation (acc : BTreeMap (ProviderPair T.Currency Provider) Unit ×
      List (MonitoredPairsEntry T))
    (op : ProviderPairOperation T.Currency Provider) :
    BTreeMap (ProviderPair T.Currency Provider) Unit × List (MonitoredPairsEntry T) :=
  let entry := (op.providerPair.pair.source, op.providerPair.pair.target, op.providerPair.provider,
    op.operation)
  match op.operation with
  | .add =>
      if op.providerPair ∈ acc.1 then acc
      else (acc.1.alter op.providerPair fun _ => some ⟨⟩, acc.2 ++ [entry])
  | .del =>
      if op.providerPair ∈ acc.1 then
        (acc.1.alter op.providerPair fun _ => none, acc.2 ++ [entry])
      else acc

def submitMonitoredPairs (origin : Origin T.AccountId)
    (operations : List (ProviderPairOperation T.Currency Provider)) (s : ChainState T) :
    Exec DispatchError (ChainState T) := do
  ensureRoot origin
  let (monitoredPairs, eventPayload) := (dedupe operations).foldl applyOperation
    (s.monitoredPairs, [])
  let s := { s with monitoredPairs }
  -- only issue event if mods were made
  return if eventPayload.isEmpty then s
    else s.depositEvent (.monitoredPairsSubmitted eventPayload)

def addWhitelistedOffchainAuthority (origin : Origin T.AccountId)
    (offchainAuthority : T.AccountId) (s : ChainState T) :
    Exec DispatchError (ChainState T) := do
  ensureRoot origin
  let s := s.depositEvent (.whitelistedOffchainAuthorityAdded offchainAuthority)
  return { s with whitelistedOffchainAuthorities :=
    s.whitelistedOffchainAuthorities.insert offchainAuthority ⟨⟩ }

def trade (origin : Origin T.AccountId) (source target : T.Currency) (amount : T.Amount)
    (s : ChainState T) : Exec DispatchError (ChainState T) := do
  let owner ← ensureSigned origin
  match s.bestPaths[(⟨source, target⟩ : Pair T.Currency)]? with
  | some pricePath =>
      let cost := pricePath.totalCost
      let targetAmount ← T.mul amount cost
      return s.depositEvent (.tradePerformed owner source target cost amount targetAmount)
  | none => Exec.fail .pricePairNotFoundError

variable (T) in
inductive Call where
  | ocwSubmitBestPathsChanges (bestPathChangePayload : T.Payload) (signature : T.Signature)
  | submitMonitoredPairs (operations : List (ProviderPairOperation T.Currency Provider))
  | addWhitelistedOffchainAuthority (offchainAuthority : T.AccountId)
  | trade (source target : T.Currency) (amount : T.Amount)

def Call.dispatch (origin : Origin T.AccountId) (s : ChainState T) :
    Call T → Exec DispatchError (ChainState T)
  | .ocwSubmitBestPathsChanges payload signature =>
      Aggregator.ocwSubmitBestPathsChanges origin payload signature s
  | .submitMonitoredPairs operations => Aggregator.submitMonitoredPairs origin operations s
  | .addWhitelistedOffchainAuthority offchainAuthority =>
      Aggregator.addWhitelistedOffchainAuthority origin offchainAuthority s
  | .trade source target amount => Aggregator.trade origin source target amount s

/-! ## The validator of unsigned transactions -/

inductive InvalidTransaction where
  | call
  | stale
  | badProof
  deriving DecidableEq, Repr

structure ValidTransaction (BlockNumber : Type) where
  priority : BitVec 64
  /-- The tags, each under the prefix of the transaction. -/
  provides : List (String × String × BlockNumber)
  longevity : BitVec 64
  propagate : Bool
  deriving DecidableEq

/-- Transaction tag to deduplicate OCW transactions. -/
def txTag : String := "aggregator"

def validateUnsigned (s : ChainState T) :
    Call T → Exec InvalidTransaction (ValidTransaction T.BlockNumber)
  | .ocwSubmitBestPathsChanges payload signature => do
      Exec.ensure (T.verify payload.publicKey payload signature) .badProof
      let currentBlock := s.blockNumber
      let deadline ← T.add payload.blockNumber T.maxTxPoolStayTime
      -- transaction was in pool for too long
      Exec.ensure (¬ deadline < currentBlock) .stale
      let accountId := T.intoAccount payload.publicKey
      Exec.ensure (accountId ∈ s.whitelistedOffchainAuthorities) .badProof
      return {
        priority := T.unsignedPriority
        provides := [("AggregatorWorker", txTag, currentBlock)]
        longevity := 5
        propagate := true }
  | _ => Exec.fail .call

end Aggregator
