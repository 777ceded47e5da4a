import Coordination.Fault
import Coordination.Watch.Table

/-!
The table of registrations behind its lock. Arguments are checked before the lock is taken; once a
holder of the lock has died, whatever needs it fails.
-/

namespace Coordination.Watch

structure Hub where
  table : Table
  poisoned : Bool
  deriving DecidableEq

namespace Hub

def empty : Hub := { table := .empty, poisoned := false }

def poison (h : Hub) : Hub := { h with poisoned := true }

def lock (h : Hub) : Except Fault Table :=
  if h.poisoned then .error (.lock .poisoned) else .ok h.table

def withTable (h : Hub) (t : Table) : Hub := { h with table := t }

def attach (h : Hub) (s : SessionId) : Except Fault (Nat × Hub) :=
  match h.lock with
  | .error e => .error e
  | .ok t =>
      if t.attached.contains s then .error (.request (.alreadyAttached s))
      else
        let (c, t) := t.attach s
        .ok (c, h.withTable t)

def detach (h : Hub) (s : SessionId) : Except Fault (Nat × Hub) :=
  match h.lock with
  | .error e => .error e
  | .ok t => .ok ((t.owned s).length, h.withTable (t.detach s))

def register (h : Hub) (s : SessionId) (p : String) (mask : Mask) : Except Fault (Handle × Hub) :=
  match Path.check p with
  | .error e => .error e
  | .ok () =>
      if mask.isEmpty then .error (.request .emptyMask)
      else
        match h.lock with
        | .error e => .error e
        | .ok t =>
            if t.attached.contains s then
              let (handle, t) := t.register s p mask
              .ok (handle, h.withTable t)
            else .error (.sessionClosed s)

def cancel (h : Hub) (handle : Handle) : Except Fault (Bool × Hub) :=
  match h.lock with
  | .error e => .error e
  | .ok t => .ok (t.isPending handle, h.withTable (t.unlink handle))

def publish (h : Hub) (zxid : Zxid) (events : List Event) : Except Fault (Nat × Hub) :=
  match h.lock with
  | .error e => .error e
  | .ok t =>
      let (n, t) := t.publish zxid events
      .ok (n, h.withTable t)

/-- Puts a marker behind all that has been delivered to a session. A refused marker, too, makes
the table forget a session whose receiver is gone. -/
def barrier (h : Hub) (s : SessionId) (zxid : Zxid) : Except Fault Unit × Hub :=
  match h.lock with
  | .error e => (.error e, h)
  | .ok t =>
      let (ok, t) := t.deliver s (.synced zxid)
      (if ok then .ok () else .error (.sessionClosed s), h.withTable t)

def size (h : Hub) : Except Fault Nat := h.lock.map Table.size

def watching (h : Hub) (p : String) : Except Fault (List Handle) := h.lock.map (·.watching p)

def receive (h : Hub) (c : Nat) (f : Channel → Channel) : Hub :=
  h.withTable (h.table.modifyChannel c f)

end Hub

end Coordination.Watch
