import Coordination.Dict
import Coordination.Stat

namespace Coordination

abbrev Bytes := List UInt8

structure Node where
  data : Bytes
  stat : Stat
  children : Dict String Unit
  deriving DecidableEq

namespace Node

def create (data : Bytes) (zxid : Zxid) (time : Time) (owner : SessionId) : Node :=
  { data, stat := Stat.created zxid time data.length owner, children := .empty }

/-- Every change of the child set is counted, also one that changes nothing. -/
def withChildren (n : Node) (children : Dict String Unit) (zxid : Zxid) : Node :=
  { n with
    children
    stat := { n.stat with
      cversion := n.stat.cversion.next, pzxid := zxid, numChildren := children.size } }

def link (n : Node) (name : String) (zxid : Zxid) : Node :=
  n.withChildren (n.children.insert name ()) zxid

def unlink (n : Node) (name : String) (zxid : Zxid) : Node :=
  n.withChildren (n.children.erase name) zxid

def setData (n : Node) (data : Bytes) (zxid : Zxid) (time : Time) : Node :=
  { n with
    data
    stat := { n.stat with
      dataLength := data.length, version := n.stat.version.next, mzxid := zxid, mtime := time } }

def hasChildren (n : Node) : Bool := !n.children.isEmpty

def hasChild (n : Node) (name : String) : Bool := n.children.contains name

def childNames (n : Node) : List String := n.children.keys

end Node

end Coordination
