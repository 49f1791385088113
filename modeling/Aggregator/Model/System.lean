import Aggregator.Model.Block
import Aggregator.Model.Network
import Aggregator.Model.Worker

/-! # Blocks, the workers of all nodes, and the pool

Every node runs a worker for each block. The worker reads the state after its block while the
chain goes on, and what its round sends waits in the pool. -/

namespace Aggregator

variable (T : Config) (N : Type)

structure System where
  chain : ChainState T
  /-- The state after each finished block. -/
  imported : T.BlockNumber → Option (ChainState T)
  nodes : N → Node T
  pool : List (InFlight T)
  /-- The payloads of the successful submissions, in order. -/
  applied : List T.Payload

inductive SystemAction where
  | block (step : BlockStep T)
  /-- The worker of the block does its next step on the node. -/
  | worker (n : N) (blockNumber : T.BlockNumber) (env : Environment T)
  | elapse (n : N) (millis : ℕ)

variable {T N}

/-- What a round in this state sends. -/
def sentBy (env : Environment T) (s : ChainState T) (blockNumber : T.BlockNumber) :
    List (InFlight T) :=
  match T.bestPathCalculator (fetchedPairs env s),
      fetchPricesAndUpdateBestPaths env s blockNumber with
  | .ok newBestPaths, .ok (some payload) => [⟨payload, s.bestPaths, newBestPaths⟩]
  | _, _ => []

/-- What the extrinsic submits when it succeeds. -/
def Extrinsic.submitted (s : ChainState T) (x : Extrinsic T) : List T.Payload :=
  if (x.execute s).isSome then x.call.submitted else []

/-- No block is finished, and no worker has done a step. -/
def System.genesis (nodes : N → Retrieved T.BlockNumber × Option ℕ × ℕ) : System T N where
  chain := ChainState.genesis T
  imported _ := none
  nodes n := Node.start (nodes n).1 (nodes n).2.1 (nodes n).2.2
  pool := []
  applied := []

def System.block (σ : System T N) : BlockStep T → System T N
  | .extrinsic x => { σ with
      chain := (BlockStep.extrinsic x).apply σ.chain
      applied := σ.applied ++ x.submitted σ.chain }
  | .advance => { σ with
      chain := σ.chain.advance
      imported := Function.update σ.imported σ.chain.blockNumber (some σ.chain) }

variable [DecidableEq N]

def System.worker (σ : System T N) (n : N) (blockNumber : T.BlockNumber) (env : Environment T) :
    System T N :=
  match σ.imported blockNumber with
  | some s => { σ with
      nodes := Function.update σ.nodes n ((σ.nodes n).worker blockNumber env s)
      pool := if (σ.nodes n).phase blockNumber = .locked then sentBy env s blockNumber ++ σ.pool
        else σ.pool }
  | none => σ

def System.step (σ : System T N) : SystemAction T N → System T N
  | .block step => σ.block step
  | .worker n blockNumber env => σ.worker n blockNumber env
  | .elapse n millis => { σ with
      nodes := Function.update σ.nodes n ((σ.nodes n).step (.elapse millis)) }

def System.run (σ : System T N) (actions : List (SystemAction T N)) : System T N :=
  actions.foldl System.step σ

end Aggregator
