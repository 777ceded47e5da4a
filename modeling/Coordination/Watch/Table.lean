import Coordination.Dict
import Coordination.Watch.Channel
import Coordination.Watch.Mask

/-!
Registrations of watches. A registration stands in the list of its path and in the index of
handles, and leaves both when it is cancelled, when its session is detached, or when an event
matches it, which is the one time that it is delivered.
-/

namespace Coordination.Watch

structure Registration where
  handle : Handle
  session : SessionId
  mask : Mask
  deriving DecidableEq, Repr

structure Table where
  lastHandle : Nat
  byPath : Dict String (List Registration)
  paths : Dict Handle String
  attached : Dict SessionId Nat
  channels : List Channel
  deriving DecidableEq

namespace Table

def empty : Table :=
  { lastHandle := 0, byPath := .empty, paths := .empty, attached := .empty, channels := [] }

def size (t : Table) : Nat := t.paths.size

def registrations (t : Table) (p : String) : List Registration := (t.byPath.get? p).getD []

def watching (t : Table) (p : String) : List Handle := (t.registrations p).map (·.handle)

def channel? (t : Table) (c : Nat) : Option Channel := t.channels[c]?

def isOpen (t : Table) (c : Nat) : Bool := t.attached.values.contains c

def queued (t : Table) (c : Nat) : List Notification :=
  match t.channel? c with
  | some ch => ch.queued
  | none => []

def modifyChannel (t : Table) (c : Nat) (f : Channel → Channel) : Table :=
  { t with channels := t.channels.modify c f }

def attach (t : Table) (s : SessionId) : Nat × Table :=
  (t.channels.length,
    { t with
      attached := t.attached.insert s t.channels.length
      channels := t.channels ++ [Channel.fresh] })

def register (t : Table) (s : SessionId) (p : String) (mask : Mask) : Handle × Table :=
  let handle := t.lastHandle + 1
  (handle,
    { t with
      lastHandle := handle
      byPath := t.byPath.insert p (t.registrations p ++ [{ handle, session := s, mask }])
      paths := t.paths.insert handle p })

def setRegistrations (t : Table) (p : String) (rs : List Registration) : Table :=
  { t with byPath := if rs.isEmpty then t.byPath.erase p else t.byPath.insert p rs }

def unlink (t : Table) (h : Handle) : Table :=
  match t.paths.get? h with
  | none => t
  | some p =>
      { t with paths := t.paths.erase h }.setRegistrations p
        ((t.registrations p).filter (·.handle != h))

def isPending (t : Table) (h : Handle) : Bool := t.paths.contains h

def owned (t : Table) (s : SessionId) : List Handle :=
  (t.byPath.values.flatten.filter (·.session == s)).map (·.handle)

def detach (t : Table) (s : SessionId) : Table :=
  (t.owned s).foldl unlink { t with attached := t.attached.erase s }

/-- Puts a notification on a session's channel. A session whose receiver is gone is forgotten. -/
def deliver (t : Table) (s : SessionId) (n : Notification) : Bool × Table :=
  match t.attached.get? s with
  | none => (false, t)
  | some c =>
      match t.channel? c with
      | some ch =>
          if ch.listening then (true, t.modifyChannel c (·.send n))
          else (false, { t with attached := t.attached.erase s })
      | none => (false, { t with attached := t.attached.erase s })

def fire (t : Table) (zxid : Zxid) (e : Event) : List Registration → Nat × Table
  | [] => (0, t)
  | r :: rs =>
      let (ok, t) := { t with paths := t.paths.erase r.handle }.deliver r.session
        (.event r.handle e.path e.kind zxid)
      let (n, t) := t.fire zxid e rs
      (if ok then n + 1 else n, t)

def publishOne (t : Table) (zxid : Zxid) (e : Event) : Nat × Table :=
  let rs := t.registrations e.path
  (t.setRegistrations e.path (rs.filter (!·.mask.contains e.kind))).fire zxid e
    (rs.filter (·.mask.contains e.kind))

/-- Fires the registrations that the events match, each at its first match. -/
def publish (t : Table) (zxid : Zxid) : List Event → Nat × Table
  | [] => (0, t)
  | e :: es =>
      let (m, t) := t.publishOne zxid e
      let (n, t) := t.publish zxid es
      (m + n, t)

end Table

end Coordination.Watch
