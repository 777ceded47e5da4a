import Coordination.Batch
import Coordination.Journal.Log
import Coordination.Replay
import Coordination.Watch.Hub

/-!
The engine that commits batches, one after the other. A batch is checked against the published
tree, written to the journal, published, and announced to the watches; a failure after the check
halts the engine for good. The journal is any sink, and the time of a batch is given.
-/

namespace Coordination

open Journal (Sink)
open Watch (Handle Hub Mask)

structure Stats where
  committed : Nat
  aborted : Nat
  fired : Nat
  deriving DecidableEq, Repr

structure Engine where
  tree : Tree
  hub : Hub
  halted : Option HaltCause
  stats : Stats
  nextBatch : Nat
  deriving DecidableEq

namespace Engine

def start (t : Tree) : Engine :=
  { tree := t, hub := .empty, halted := none, stats := ⟨0, 0, 0⟩, nextBatch := 1 }

def isHalted (e : Engine) : Bool := e.halted.isSome

def lastZxid (e : Engine) : Zxid := e.tree.lastZxid

def withHub (e : Engine) (hub : Hub) : Engine := { e with hub }

def halt (e : Engine) (cause : HaltCause) : Engine := { e with halted := some cause }

def countCommitted (e : Engine) : Engine :=
  { e with stats := { e.stats with committed := e.stats.committed + 1 } }

def countAborted (e : Engine) : Engine :=
  { e with stats := { e.stats with aborted := e.stats.aborted + 1 } }

def countFired (e : Engine) (n : Nat) : Engine :=
  { e with stats := { e.stats with fired := e.stats.fired + n } }

def stamp (e : Engine) (now : Time) (s : SessionId) : Stamp :=
  { zxid := e.lastZxid.next, time := now, session := s }

def record (ops : List Op) (c : Commit) : Record :=
  { zxid := c.stamp.zxid, time := c.stamp.time, session := c.stamp.session, ops
    events := c.events }

/-- Announces a commit. It is final already, so a failure halts later batches alone. -/
def announce (e : Engine) (c : Commit) : Engine :=
  match e.hub.publish c.stamp.zxid c.events with
  | .error f => e.halt (.publish c.stamp.zxid f.message)
  | .ok (n, hub) => (e.withHub hub).countFired n

variable {σ : Type} [Sink σ]

def publish (e : Engine) (log : σ) (batch : Batch) (c : Commit) :
    Except Fault (List Outcome) × Engine × σ :=
  match Sink.append (record batch.ops c) log with
  | (.error f, log) =>
      let cause := HaltCause.append c.stamp.zxid f.message
      match batch.abort with
      | .error f => (.error f, e.halt cause, log)
      | .ok _ => (.error (.halted cause), e.halt cause, log)
  | (.ok (), log) =>
      let e := { e with tree := c.tree }
      match batch.commit with
      | .error f => (.error f, e, log)
      | .ok _ => (.ok c.outcomes, e.countCommitted.announce c, log)

/-- A rejected batch and one that edits nothing use no number and leave no record. -/
def runBatch (e : Engine) (log : σ) (now : Time) (batch : Batch) :
    Except Fault (List Outcome) × Engine × σ :=
  match batch.begin with
  | .error f => (.error f, e, log)
  | .ok batch =>
      match e.tree.plan batch.ops (e.stamp now batch.session) with
      | .error r =>
          match batch.abort with
          | .error f => (.error f, e, log)
          | .ok _ => (.error (.ofRejection batch.ops.length r), e.countAborted, log)
      | .ok plan =>
          if plan.isReadOnly then
            match batch.commit with
            | .error f => (.error f, e, log)
            | .ok _ => (.ok plan.outcomes, e.countCommitted, log)
          else e.publish log batch (e.tree.commit plan)

def submit (e : Engine) (log : σ) (now : Time) (s : SessionId) (ops : List Op) :
    Except Fault (List Outcome) × Engine × σ :=
  match e.halted with
  | some cause => (.error (.halted cause), e, log)
  | none =>
      { e with nextBatch := e.nextBatch + 1 }.runBatch log now (.submit e.nextBatch s ops)

/-- Takes the published tree and registers a watch in one step. If the node is required and absent,
nothing is registered. -/
def watchAndRead (e : Engine) (s : SessionId) (p : String) (mask : Mask) (required : Bool) :
    Except Fault ((Tree × Option Handle) × Engine) :=
  if required && !e.tree.contains p then .ok ((e.tree, none), e)
  else
    match e.hub.register s p mask with
    | .error f => .error f
    | .ok (h, hub) => .ok ((e.tree, some h), e.withHub hub)

def sync (e : Engine) (s : SessionId) : Except Fault Zxid × Engine :=
  match e.hub.barrier s e.lastZxid with
  | (.error f, hub) => (.error f, e.withHub hub)
  | (.ok (), hub) => (.ok e.lastZxid, e.withHub hub)

end Engine

end Coordination
