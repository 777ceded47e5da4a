import Coordination.Fault

namespace Coordination

inductive Durability where
  | sync
  | async
  | none
  deriving DecidableEq, Repr

structure Config where
  queueCapacity : Nat
  maxOps : Nat
  maxDataBytes : Nat
  journalPath : Option String
  durability : Durability
  deriving DecidableEq, Repr

namespace Config

def standard : Config :=
  { queueCapacity := 1024
    maxOps := 1000
    maxDataBytes := 1048576
    journalPath := none
    durability := .async }

def check (c : Config) : Except Fault Unit :=
  if c.queueCapacity = 0 then .error (.config .noQueue)
  else if c.maxOps = 0 then .error (.config .noOps)
  else if c.durability = .sync ∧ c.journalPath = none then .error (.config .syncWithoutJournal)
  else .ok ()

def isJournaled (c : Config) : Bool := c.journalPath.isSome && c.durability != .none

/-- What keeps a batch from being queued: its length first, then its first operation that carries
too much. -/
def checkBatch (c : Config) (ops : List Op) : Except Fault Unit :=
  if c.maxOps < ops.length then .error (.request (.batchTooLong ops.length c.maxOps))
  else
    match ops.find? fun op => decide (c.maxDataBytes < op.payloadLength) with
    | some op =>
        .error (.request (.payloadTooLong op.name op.path op.payloadLength c.maxDataBytes))
    | none => .ok ()

end Config

end Coordination
