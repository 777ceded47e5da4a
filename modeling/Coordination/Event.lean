import Coordination.Path

namespace Coordination

inductive EventKind where
  | created
  | deleted
  | dataChanged
  | childrenChanged
  deriving DecidableEq, Repr

structure Event where
  path : String
  kind : EventKind
  deriving DecidableEq, Repr

namespace Event

def withParent (p : String) (kind : EventKind) : List Event :=
  ⟨p, kind⟩ :: ((Path.parent? p).map (⟨·, .childrenChanged⟩)).toList

def ofCreate (p : String) : List Event := withParent p .created

def ofDelete (p : String) : List Event := withParent p .deleted

def ofSetData (p : String) : List Event := [⟨p, .dataChanged⟩]

end Event

end Coordination
