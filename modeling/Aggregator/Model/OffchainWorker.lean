import Aggregator.Model.Pallet

/-! # The offchain worker (`lib.rs`, `utils.rs`) -/

namespace Aggregator

/-! ## Price tolerance -/

/-- `u128::saturating_mul`. -/
def saturatingMul (a b : ℕ) : ℕ := min (a * b) u128Max

/-- Check if tolerance breaches the diff. -/
def breachesTolerance {ε : Type} (old new tolerance : ℕ) : Exec ε Bool := do
  let delta ←
    if old > new then
      if old = 0 then Exec.panic .divideByZero else .ok (saturatingMul 1000000 (old - new) / old)
    else
      if old = 0 then Exec.panic .divideByZero else .ok (saturatingMul 1000000 (new - old) / old)
  return decide (delta > tolerance)

/-! ## The trigger -/

/-- What reading a value of the offchain storage gives. -/
inductive Retrieved (α : Type) where
  | value (a : α)
  | missing
  | undecodable
  deriving DecidableEq, Repr

/-- Determine if can trigger OCW based on the next offchain trigger block delay mechanism. -/
def shouldTriggerOffchain {n : ℕ} (nextOffchainTrigger : Retrieved (BitVec n))
    (blockNumber : BitVec n) : Bool :=
  match nextOffchainTrigger with
  | .value next => decide (next ≤ blockNumber)
  | .missing => true
  | .undecodable => false

/-! ## A round -/

/-- The order in which a storage map is iterated, which follows the hashes of its keys. -/
structure IterOrder (K V : Type) [LinearOrder K] where
  iter : BTreeMap K V → List (K × V)
  perm : ∀ m, (iter m).Perm m.toList

/-- The order of the keys themselves. -/
def IterOrder.byKey (K V : Type) [LinearOrder K] : IterOrder K V where
  iter m := m.toList
  perm _ := List.Perm.refl _

variable {T : Config}

/-- What a round depends on besides the chain state: the prices that the trade provider
returns, the local account that signs, and whether the pool takes the transaction. -/
structure Environment (T : Config) where
  getPrice : Provider → T.Currency → T.Currency → Option T.Amount
  anyAccount : Option T.Public
  submit : T.Payload → Bool
  monitoredPairsOrder : IterOrder (ProviderPair T.Currency Provider) Unit
  bestPathsOrder : IterOrder (Pair T.Currency) T.Path

def fetchedPairs (env : Environment T) (s : ChainState T) :
    List (PairAndPrice T.Currency Provider T.amountBits) :=
  (env.monitoredPairsOrder.iter s.monitoredPairs).filterMap fun x =>
    (env.getPrice x.1.provider x.1.pair.source x.1.pair.target).map fun res => (x.1, res)

/-- The body of the loop over the stored best paths. -/
def changeOfStored (newBestPaths : T.BestPaths) (entry : Pair T.Currency × T.Path) :
    Exec String (Option T.Change) := do
  let (pair, oldPricePath) := entry
  match newBestPaths[pair]? with
  | some newPricePath =>
      let oldTotalCost ← Exec.orErr "failed to convert old_price_path.total_cost"
        oldPricePath.totalCost.toU128
      let newTotalCost ← Exec.orErr "failed to convert new_price_path.total_cost"
        newPricePath.totalCost.toU128
      if ← breachesTolerance oldTotalCost newTotalCost T.priceChangeTolerance.toNat then
        T.log T.build.logDebug [pair.source, pair.target]
        return some (pair.source, pair.target, some newPricePath)
      else
        T.log T.build.logDebug [pair.source, pair.target]
        return none
  | none =>
      T.log T.build.logDebug [pair.source, pair.target]
      return none

/-- The body of the loop over the new best paths. -/
def changeOfNew (bestPaths : T.BestPaths) (entry : Pair T.Currency × T.Path) :
    Exec String (Option T.Change) := do
  let (pair, newPricePath) := entry
  if pair ∉ bestPaths then
    T.log T.build.logDebug [pair.source, pair.target]
    return some (pair.source, pair.target, some newPricePath)
  else return none

/-- Select the best path differences. -/
def selectChanges (order : IterOrder (Pair T.Currency) T.Path) (bestPaths newBestPaths : T.BestPaths) :
    Exec String (List T.Change) := do
  let changes ← (order.iter bestPaths).mapM (changeOfStored newBestPaths)
  let additions ← newBestPaths.toList.mapM (changeOfNew bestPaths)
  return changes.reduceOption ++ additions.reduceOption

def CalculatorError.debug : CalculatorError → String
  | .negativeCyclesError => "NegativeCyclesError"
  | .conversionError => "ConversionError"

/-- Fetch the prices, sign the payload and send an unsigned transaction. The result is the
payload that was sent, if there was something to send. -/
def fetchPricesAndUpdateBestPaths (env : Environment T) (s : ChainState T)
    (blockNumber : T.BlockNumber) : Exec String (Option T.Payload) := do
  let fetched := fetchedPairs env s
  if fetched.isEmpty then return none
  else
    let newBestPaths ← Exec.mapErr
      (fun e => "Failed to calculate best prices due to " ++ e.debug) (T.bestPathCalculator fetched)
    let changes ← selectChanges env.bestPathsOrder s.bestPaths newBestPaths
    if changes.isEmpty then return none
    else
      let account ← Exec.orErr "No local accounts accounts available" env.anyAccount
      let payload : T.Payload := ⟨changes, s.unsignedTxNonce, blockNumber, account⟩
      Exec.ensure (env.submit payload) "Unable to submit transaction"
      return some payload

end Aggregator
