import Coordination.Event

/-!
Sets of event kinds, one bit a kind. Bits of no kind are kept and match nothing.
-/

namespace Coordination.Watch

structure Mask where
  bits : UInt8
  deriving DecidableEq, Repr

namespace Mask

def none : Mask := ⟨0⟩

def of : EventKind → Mask
  | .created => ⟨1⟩
  | .deleted => ⟨2⟩
  | .dataChanged => ⟨4⟩
  | .childrenChanged => ⟨8⟩

def union (a b : Mask) : Mask := ⟨a.bits ||| b.bits⟩

instance : OrOp Mask := ⟨union⟩

def all : Mask := ⟨15⟩

def data : Mask := of .created ||| of .deleted ||| of .dataChanged

def children : Mask := of .deleted ||| of .childrenChanged

def contains (m : Mask) (kind : EventKind) : Bool := m.bits &&& (of kind).bits != 0

def isEmpty (m : Mask) : Bool := m.bits == 0

end Mask

end Coordination.Watch
