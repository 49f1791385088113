import Aggregator.Model.Pallet

/-! # Extrinsics and blocks

An unsigned extrinsic is validated in the state that executes it and dispatched with
origin none. -/

namespace Aggregator

variable (T : Config)

inductive Extrinsic where
  | root (call : Call T)
  | signed (who : T.AccountId) (call : Call T)
  | unsigned (call : Call T)

inductive BlockStep where
  | extrinsic (x : Extrinsic T)
  | advance

variable {T}

def Extrinsic.call : Extrinsic T → Call T
  | .root call => call
  | .signed _ call => call
  | .unsigned call => call

def Extrinsic.origin : Extrinsic T → Origin T.AccountId
  | .root _ => .root
  | .signed who _ => .signed who
  | .unsigned _ => .none

/-- The next block starts, with no events yet. -/
def ChainState.advance (s : ChainState T) : ChainState T :=
  { s with blockNumber := s.blockNumber + 1, events := [] }

/-- The state after the extrinsic, when it is accepted and succeeds. -/
def Extrinsic.execute (s : ChainState T) : Extrinsic T → Option (ChainState T)
  | .root call => (call.dispatch .root s).toOption
  | .signed who call => (call.dispatch (.signed who) s).toOption
  | .unsigned call =>
      match validateUnsigned s call with
      | .ok _ => (call.dispatch .none s).toOption
      | .error _ => none

def BlockStep.apply (s : ChainState T) : BlockStep T → ChainState T
  | .extrinsic x => (x.execute s).getD s
  | .advance => s.advance

def ChainState.run (s : ChainState T) (steps : List (BlockStep T)) : ChainState T :=
  steps.foldl BlockStep.apply s

end Aggregator
