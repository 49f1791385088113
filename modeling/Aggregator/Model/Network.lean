import Aggregator.Model.Block
import Aggregator.Model.OffchainWorker

/-! # The chain and the payloads in flight

Workers read one block state and send payloads; calls of any origin land in any order,
payloads any number of times. -/

namespace Aggregator

variable (T : Config)

/-- A payload sent by a round, with the best paths that the round read and computed. -/
structure InFlight where
  payload : T.Payload
  seenBestPaths : T.BestPaths
  newBestPaths : T.BestPaths

structure Network where
  chain : ChainState T
  inFlight : List (InFlight T)
  /-- The payloads of the successful submissions, in order. -/
  applied : List T.Payload

inductive Action where
  /-- A worker reads the current block state. -/
  | round (env : Environment T) (blockNumber : T.BlockNumber)
  | dispatch (origin : Origin T.AccountId) (call : Call T)
  | advance

def Network.genesis : Network T := ⟨ChainState.genesis T, [], []⟩

variable {T}

def Network.round (σ : Network T) (env : Environment T) (blockNumber : T.BlockNumber) :
    Network T :=
  match T.bestPathCalculator (fetchedPairs env σ.chain),
      fetchPricesAndUpdateBestPaths env σ.chain blockNumber with
  | .ok newBestPaths, .ok (some payload) =>
      { σ with inFlight := ⟨payload, σ.chain.bestPaths, newBestPaths⟩ :: σ.inFlight }
  | _, _ => σ

/-- The payload that a call submits. -/
def Call.submitted : Call T → List T.Payload
  | .ocwSubmitBestPathsChanges payload _ => [payload]
  | _ => []

def Network.dispatch (σ : Network T) (origin : Origin T.AccountId) (call : Call T) : Network T :=
  match call.dispatch origin σ.chain with
  | .ok chain => { σ with chain, applied := σ.applied ++ call.submitted }
  | .error _ => σ

def Network.step (σ : Network T) : Action T → Network T
  | .round env blockNumber => σ.round env blockNumber
  | .dispatch origin call => σ.dispatch origin call
  | .advance => { σ with chain := σ.chain.advance }

def Network.run (σ : Network T) (actions : List (Action T)) : Network T :=
  actions.foldl Network.step σ

/-! ## Rounds without interference -/

/-- The best paths that a round computes, and the state after its payload is applied to the
state that the round read. -/
def roundAndApply (env : Environment T) (s : ChainState T) (blockNumber : T.BlockNumber)
    (signature : T.Signature) : Option (T.BestPaths × ChainState T) := do
  let newBestPaths ← (T.bestPathCalculator (fetchedPairs env s)).toOption
  let payload ← (fetchPricesAndUpdateBestPaths env s blockNumber).toOption.join
  let s' ← (ocwSubmitBestPathsChanges .none payload signature s).toOption
  return (newBestPaths, s')

/-- One round: the pairs monitored by then, and what the round meets outside the chain. -/
structure Round (T : Config) where
  monitoredPairs : BTreeMap (ProviderPair T.Currency Provider) Unit
  env : Environment T
  blockNumber : T.BlockNumber
  signature : T.Signature

/-- The state that the round reads. -/
def Round.read (r : Round T) (s : ChainState T) : ChainState T :=
  { s with monitoredPairs := r.monitoredPairs }

def Round.apply (r : Round T) (s : ChainState T) : ChainState T :=
  match roundAndApply r.env (r.read s) r.blockNumber r.signature with
  | some (_, s') => s'
  | none => r.read s

def ChainState.runRounds (s : ChainState T) (rounds : List (Round T)) : ChainState T :=
  rounds.foldl (fun s r => r.apply s) s

end Aggregator
