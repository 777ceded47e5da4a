import Coordination.Fault

namespace Coordination

structure Batch where
  id : Nat
  session : SessionId
  ops : List Op
  phase : Phase
  deriving DecidableEq, Repr

namespace Batch

def submit (id : Nat) (session : SessionId) (ops : List Op) : Batch :=
  { id, session, ops, phase := .pending }

def move (b : Batch) (source target : Phase) : Except Fault Batch :=
  if b.phase = source then .ok { b with phase := target }
  else .error (.request (.badMove b.id target b.phase))

def begin (b : Batch) : Except Fault Batch := b.move .pending .validating

def commit (b : Batch) : Except Fault Batch := b.move .validating .committed

def abort (b : Batch) : Except Fault Batch := b.move .validating .aborted

end Batch

end Coordination
