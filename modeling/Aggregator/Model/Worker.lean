import Aggregator.Model.OffchainWorker

/-! # The workers of one node (`lib.rs`, `offchain_worker`)

The workers of different blocks share the offchain storage of their node, and the steps of
one can fall between the steps of another. -/

namespace Aggregator

/-- Duration for getting the OCW lock, in millis. -/
def ocwLockDuration : ℕ := 100

/-- What the worker of a block has done so far. -/
inductive WorkerPhase where
  | entered
  | triggered
  | locked
  | updated
  | bumped
  | returned
  | panicked
  deriving DecidableEq, Repr

/-- A round that panics ends its worker. -/
def WorkerPhase.afterRound : Option Panic → WorkerPhase
  | none => .updated
  | some _ => .panicked

variable (T : Config)

structure Node where
  nextOffchainTrigger : Retrieved T.BlockNumber
  /-- The deadline of the lock, while one is stored. -/
  ocwWorkerLock : Option ℕ
  /-- The time in millis. -/
  now : ℕ
  phase : T.BlockNumber → WorkerPhase
  /-- The blocks of the rounds that ran, in order. -/
  rounds : List T.BlockNumber

inductive NodeAction where
  /-- The worker of the block does its next step. -/
  | worker (blockNumber : T.BlockNumber) (env : Environment T) (s : ChainState T)
  | elapse (millis : ℕ)

variable {T}

/-- No worker has done a step. -/
def Node.start (nextOffchainTrigger : Retrieved T.BlockNumber) (ocwWorkerLock : Option ℕ)
    (now : ℕ) : Node T :=
  ⟨nextOffchainTrigger, ocwWorkerLock, now, fun _ => .entered, []⟩

/-- `StorageLock::try_lock`: the new deadline, unless an unexpired lock is stored. -/
def tryLock (ocwWorkerLock : Option ℕ) (now : ℕ) : Option ℕ :=
  match ocwWorkerLock with
  | some deadline => if now > deadline then some (now + ocwLockDuration) else none
  | none => some (now + ocwLockDuration)

def Node.enter (σ : Node T) (blockNumber : T.BlockNumber) (phase : WorkerPhase) : Node T :=
  { σ with phase := Function.update σ.phase blockNumber phase }

/-- The next step of `offchain_worker`. The guard releases the lock when the worker returns. A
worker that panics leaves it to expire, as in Wasm; a native runtime unwinds and releases it. -/
def Node.worker (σ : Node T) (blockNumber : T.BlockNumber) (env : Environment T)
    (s : ChainState T) : Node T :=
  match σ.phase blockNumber with
  | .entered =>
      σ.enter blockNumber <|
        if shouldTriggerOffchain σ.nextOffchainTrigger blockNumber then .triggered else .returned
  | .triggered =>
      match tryLock σ.ocwWorkerLock σ.now with
      | some deadline => { σ with ocwWorkerLock := some deadline }.enter blockNumber .locked
      | none => σ.enter blockNumber .returned
  | .locked =>
      { σ with rounds := σ.rounds ++ [blockNumber] }.enter blockNumber <|
        .afterRound (fetchPricesAndUpdateBestPaths env s blockNumber).panicked
  | .updated =>
      match (T.add blockNumber T.offchainTriggerDelay : Exec PEmpty T.BlockNumber) with
      | .ok nextTrigger =>
          { σ with nextOffchainTrigger := .value nextTrigger }.enter blockNumber .bumped
      | .error _ => σ.enter blockNumber .panicked
  | .bumped => { σ with ocwWorkerLock := none }.enter blockNumber .returned
  | .returned => σ
  | .panicked => σ

/-- `offchain_worker` as a whole, when no other worker does a step before it ends. -/
def Node.offchainWorker (σ : Node T) (blockNumber : T.BlockNumber) (env : Environment T)
    (s : ChainState T) : Node T :=
  if shouldTriggerOffchain σ.nextOffchainTrigger blockNumber then
    match tryLock σ.ocwWorkerLock σ.now with
    | some deadline =>
        let σ := { σ with ocwWorkerLock := some deadline, rounds := σ.rounds ++ [blockNumber] }
        match (fetchPricesAndUpdateBestPaths env s blockNumber).panicked with
        | none =>
            match (T.add blockNumber T.offchainTriggerDelay : Exec PEmpty T.BlockNumber) with
            | .ok nextTrigger =>
                { σ with
                  nextOffchainTrigger := .value nextTrigger
                  ocwWorkerLock := none }.enter blockNumber .returned
            | .error _ => σ.enter blockNumber .panicked
        | some _ => σ.enter blockNumber .panicked
    | none => σ.enter blockNumber .returned
  else σ.enter blockNumber .returned

def Node.step (σ : Node T) : NodeAction T → Node T
  | .worker blockNumber env s => σ.worker blockNumber env s
  | .elapse millis => { σ with now := σ.now + millis }

def Node.run (σ : Node T) (actions : List (NodeAction T)) : Node T :=
  actions.foldl Node.step σ

end Aggregator
