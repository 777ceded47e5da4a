import Coordination.Store

/-!
A client's session: its number, the receiving end of its channel, and whether it is open. A closed
session refuses every call that reaches the store, but what is queued on its channel can still be
taken.
-/

namespace Coordination

open Watch (Channel Handle Mask Notification)

structure Session where
  id : SessionId
  channel : Nat
  active : Bool
  deriving DecidableEq, Repr

/-- The next number is used up also where no session is opened. -/
def Store.connect (st : Store) : Except Fault Session × Store :=
  let id := st.nextSession
  let st := { st with nextSession := Store.sessionAfter id }
  match st.hub.attach id with
  | .error f => (.error f, st)
  | .ok (channel, hub) => (.ok { id, channel, active := true }, st.withHub hub)

inductive Received where
  | notification (n : Notification)
  | closed
  | waiting
  deriving DecidableEq, Repr

namespace Session

def checkActive (s : Session) : Except Fault Unit :=
  if s.active then .ok () else .error (.sessionClosed s.id)

def multi (s : Session) (st : Store) (now : Time) (ops : List Op) :
    Except Fault (List Outcome) × Store :=
  match s.checkActive with
  | .error f => (.error f, st)
  | .ok () => st.submit now s.id ops

def single (s : Session) (st : Store) (now : Time) (op : Op) : Except Fault Outcome × Store :=
  match s.multi st now [op] with
  | (.ok outcomes, st) =>
      match outcomes.getLast? with
      | some o => (.ok o, st)
      | none => (.error (.request .noOutcome), st)
  | (.error (.rejected r _), st) => (.error (.refused r.path r.cause), st)
  | (.error f, st) => (.error f, st)

def create (s : Session) (st : Store) (now : Time) (p : String) (data : Bytes)
    (mode : CreateMode) : Except Fault String × Store :=
  match s.single st now (.create p data mode) with
  | (.ok (.created p _), st) => (.ok p, st)
  | (.ok o, st) => (.error (.request (.unexpectedOutcome "create" o)), st)
  | (.error f, st) => (.error f, st)

def delete (s : Session) (st : Store) (now : Time) (p : String) (version : Version) :
    Except Fault Unit × Store :=
  match s.single st now (.delete p version) with
  | (.ok .deleted, st) => (.ok (), st)
  | (.ok o, st) => (.error (.request (.unexpectedOutcome "delete" o)), st)
  | (.error f, st) => (.error f, st)

def setData (s : Session) (st : Store) (now : Time) (p : String) (data : Bytes)
    (version : Version) : Except Fault Stat × Store :=
  match s.single st now (.setData p data version) with
  | (.ok (.dataSet stat), st) => (.ok stat, st)
  | (.ok o, st) => (.error (.request (.unexpectedOutcome "set_data" o)), st)
  | (.error f, st) => (.error f, st)

def checkRead (s : Session) (p : String) : Except Fault Unit :=
  match s.checkActive with
  | .error f => .error f
  | .ok () => Path.check p

def noNode (p : String) : Fault := .refused p .noNode

def exists? (s : Session) (st : Store) (p : String) : Except Fault (Option Stat) :=
  match s.checkRead p with
  | .error f => .error f
  | .ok () => .ok ((st.tree.lookup p).map Node.stat)

def getData (s : Session) (st : Store) (p : String) : Except Fault (Bytes × Stat) :=
  match s.checkRead p with
  | .error f => .error f
  | .ok () =>
      match st.tree.lookup p with
      | some n => .ok (n.data, n.stat)
      | none => .error (noNode p)

def getChildren (s : Session) (st : Store) (p : String) : Except Fault (List String) :=
  match s.checkRead p with
  | .error f => .error f
  | .ok () =>
      match st.tree.children? p with
      | some ns => .ok ns
      | none => .error (noNode p)

def watchedRead (s : Session) (st : Store) (p : String) (mask : Mask) (required : Bool) :
    Except Fault (Tree × Option Handle) × Store :=
  match s.checkRead p with
  | .error f => (.error f, st)
  | .ok () => st.watchAndRead s.id p mask required

/-- The watch is kept also where the node is absent. -/
def existsWatched (s : Session) (st : Store) (p : String) :
    Except Fault (Option Stat × Handle) × Store :=
  match s.watchedRead st p .data false with
  | (.error f, st) => (.error f, st)
  | (.ok (t, some h), st) => (.ok ((t.lookup p).map Node.stat, h), st)
  | (.ok (_, none), st) => (.error (.request .notRegistered), st)

def getDataWatched (s : Session) (st : Store) (p : String) :
    Except Fault (Bytes × Stat × Handle) × Store :=
  match s.watchedRead st p .data true with
  | (.error f, st) => (.error f, st)
  | (.ok (t, h), st) =>
      match t.lookup p, h with
      | some n, some h => (.ok (n.data, n.stat, h), st)
      | _, _ => (.error (noNode p), st)

def getChildrenWatched (s : Session) (st : Store) (p : String) :
    Except Fault (List String × Handle) × Store :=
  match s.watchedRead st p .children true with
  | (.error f, st) => (.error f, st)
  | (.ok (t, h), st) =>
      match t.children? p, h with
      | some ns, some h => (.ok (ns, h), st)
      | _, _ => (.error (noNode p), st)

def watch (s : Session) (st : Store) (p : String) (mask : Mask) : Except Fault Handle × Store :=
  match s.checkActive with
  | .error f => (.error f, st)
  | .ok () =>
      match st.hub.register s.id p mask with
      | .error f => (.error f, st)
      | .ok (h, hub) => (.ok h, st.withHub hub)

/-- Any handle may be given, and a closed session may still cancel. -/
def cancel (st : Store) (h : Handle) : Except Fault Bool × Store :=
  match st.hub.cancel h with
  | .error f => (.error f, st)
  | .ok (b, hub) => (.ok b, st.withHub hub)

def queued (s : Session) (st : Store) : List Notification := st.hub.table.queued s.channel

def receive (s : Session) (st : Store) (f : Channel → Channel) : Store :=
  st.withHub (st.hub.receive s.channel f)

def isOpen (s : Session) (st : Store) : Bool :=
  s.active && st.hub.table.isOpen s.channel

def next (s : Session) (st : Store) : Received × Store :=
  match s.queued st with
  | n :: _ => (.notification n, s.receive st Channel.takeOne)
  | [] => (if s.isOpen st then .waiting else .closed, st)

def tryNext (s : Session) (st : Store) : Option Notification × Store :=
  match s.next st with
  | (.notification n, st) => (some n, st)
  | (_, st) => (none, st)

def sync (s : Session) (st : Store) : Except Fault Zxid × Store :=
  match s.checkActive with
  | .error f => (.error f, st)
  | .ok () => st.sync s.id

/-- Takes notifications up to the marker of `target`, markers of other batches passed over. The
marker must be queued; without it the session counts as closed. -/
def takeUntil (s : Session) (st : Store) (target : Zxid) : Nat →
    Except Fault (List Notification) × Store
  | 0 => (.error (.sessionClosed s.id), st)
  | limit + 1 =>
      match s.next st with
      | (.notification (.synced z), st) =>
          if z = target then (.ok [], st) else s.takeUntil st target limit
      | (.notification n, st) =>
          match s.takeUntil st target limit with
          | (.ok ns, st) => (.ok (n :: ns), st)
          | (.error f, st) => (.error f, st)
      | (_, st) => (.error (.sessionClosed s.id), st)

def drainUntilSynced (s : Session) (st : Store) : Except Fault (List Notification) × Store :=
  match s.sync st with
  | (.error f, st) => (.error f, st)
  | (.ok target, st) => s.takeUntil st target ((s.queued st).length + 1)

def close (s : Session) (st : Store) : Except Fault Unit × Session × Store :=
  if s.active then
    match st.hub.detach s.id with
    | .error f => (.error f, s, st)
    | .ok (_, hub) =>
        let s' := { s with active := false }
        (.ok (), s', s'.receive (st.withHub hub) Channel.close)
  else (.ok (), s, st)

/-- Closes a session that nobody holds any more; its receiver goes in any case. -/
def drop (s : Session) (st : Store) : Store :=
  let (_, s, st) := s.close st
  s.receive st Channel.close

end Session

end Coordination
