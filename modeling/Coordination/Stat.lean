namespace Coordination

/-- Batches are numbered in 64 bits. -/
abbrev Zxid := Nat

def maxZxid : Zxid := 18446744073709551615

/-- After the last number comes 0. -/
def Zxid.next (z : Zxid) : Zxid := (z + 1) % UInt64.size

abbrev SessionId := Nat

/-- Milliseconds since 1970. -/
abbrev Time := Int

/-- Versions count changes in 32 bits, of which one is a sign; a request may carry a negative one.
-/
abbrev Version := Int

def maxVersion : Version := 2147483647

/-- After the last version comes the lowest. -/
def Version.next (v : Version) : Version := if v = maxVersion then -maxVersion - 1 else v + 1

def anyVersion : Version := -1

structure CreateMode where
  ephemeral : Bool
  sequential : Bool
  deriving DecidableEq, Repr, Inhabited

namespace CreateMode

def persistent : CreateMode := ⟨false, false⟩

def persistentSequential : CreateMode := ⟨false, true⟩

def ephemeralOnly : CreateMode := ⟨true, false⟩

def ephemeralSequential : CreateMode := ⟨true, true⟩

end CreateMode

structure Stat where
  /-- Batch that created the node. -/
  czxid : Zxid
  /-- Batch that last set its data. -/
  mzxid : Zxid
  /-- Batch that last added or removed a child. -/
  pzxid : Zxid
  ctime : Time
  mtime : Time
  version : Version
  cversion : Version
  /-- Session of an ephemeral node, otherwise 0. -/
  owner : SessionId
  dataLength : Nat
  numChildren : Nat
  deriving DecidableEq, Repr, Inhabited

namespace Stat

def created (zxid : Zxid) (time : Time) (dataLength : Nat) (owner : SessionId) : Stat :=
  { czxid := zxid, mzxid := zxid, pzxid := zxid, ctime := time, mtime := time
    version := 0, cversion := 0, owner, dataLength, numChildren := 0 }

def admits (s : Stat) (expected : Version) : Bool :=
  expected == anyVersion || expected == s.version

end Stat

end Coordination
