import Coordination.Node

namespace Coordination

inductive Op where
  | create (path : String) (data : Bytes) (mode : CreateMode)
  | delete (path : String) (version : Version)
  | setData (path : String) (data : Bytes) (version : Version)
  | check (path : String) (version : Version)
  deriving DecidableEq, Repr

namespace Op

def checkExists (path : String) : Op := .check path anyVersion

def path : Op → String
  | .create p _ _ => p
  | .delete p _ => p
  | .setData p _ _ => p
  | .check p _ => p

def name : Op → String
  | .create .. => "create"
  | .delete .. => "delete"
  | .setData .. => "setData"
  | .check .. => "check"

def payloadLength : Op → Nat
  | .create _ d _ => d.length
  | .setData _ d _ => d.length
  | .delete .. => 0
  | .check .. => 0

def mutates : Op → Bool
  | .check .. => false
  | _ => true

end Op

inductive Refusal where
  | noNode
  | nodeExists
  | badVersion
  | notEmpty
  | badArguments
  /-- Another operation of the batch was refused. -/
  | aborted
  deriving DecidableEq, Repr

namespace Refusal

def name : Refusal → String
  | .noNode => "NoNode"
  | .nodeExists => "NodeExists"
  | .badVersion => "BadVersion"
  | .notEmpty => "NotEmpty"
  | .badArguments => "BadArguments"
  | .aborted => "TransactionAborted"

def number : Refusal → Int
  | .noNode => -101
  | .nodeExists => -110
  | .badVersion => -103
  | .notEmpty => -111
  | .badArguments => -8
  | .aborted => -2

end Refusal

inductive Outcome where
  /-- The path is the one made, which a sequential create is not told beforehand. -/
  | created (path : String) (stat : Stat)
  | deleted
  | dataSet (stat : Stat)
  | checked
  | refused (cause : Refusal)
  deriving DecidableEq, Repr

namespace Outcome

def refusal? : Outcome → Option Refusal
  | .refused r => some r
  | _ => none

end Outcome

structure Rejection where
  index : Nat
  path : String
  cause : Refusal
  deriving DecidableEq, Repr

/-- The outcomes of a rejected batch: the cause at its own place, `aborted` at all others. -/
def Rejection.outcomes (r : Rejection) (length : Nat) : List Outcome :=
  (List.range length).map fun i => .refused (if i = r.index then r.cause else .aborted)

end Coordination
