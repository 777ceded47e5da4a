import Coordination.Session

namespace Coordination

structure Transaction where
  session : Session
  ops : List Op
  deriving DecidableEq, Repr

namespace Transaction

def start (s : Session) : Transaction := { session := s, ops := [] }

def add (t : Transaction) (op : Op) : Transaction := { t with ops := t.ops ++ [op] }

def addAll (t : Transaction) (ops : List Op) : Transaction := ops.foldl add t

def length (t : Transaction) : Nat := t.ops.length

def isEmpty (t : Transaction) : Bool := t.ops.isEmpty

def opNames (t : Transaction) : List String := t.ops.map Op.name

def commit (t : Transaction) (st : Store) (now : Time) : Except Fault (List Outcome) × Store :=
  t.session.multi st now t.ops

end Transaction

end Coordination
