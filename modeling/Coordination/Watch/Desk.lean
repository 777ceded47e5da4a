import Coordination.Watch.Hub

namespace Coordination.Watch

inductive Call where
  | attach (session : SessionId)
  | detach (session : SessionId)
  | register (session : SessionId) (path : String) (mask : Mask)
  | cancel (handle : Handle)
  | publish (zxid : Zxid) (events : List Event)
  | barrier (session : SessionId) (zxid : Zxid)
  | watching (path : String)
  | drain (session : SessionId)
  | dropReceiver (session : SessionId)
  | poison
  deriving DecidableEq, Repr

inductive Answer where
  | done
  | poisoned
  | count (n : Nat)
  | handle (h : Handle)
  | flag (b : Bool)
  | handles (hs : List Handle)
  | drained (got : List Notification) (isOpen : Bool)
  | noReceiver
  | fault (f : Fault)
  deriving DecidableEq, Repr

structure Desk where
  hub : Hub
  receivers : Dict SessionId Nat
  deriving DecidableEq

namespace Desk

def empty : Desk := { hub := .empty, receivers := .empty }

def withHub (d : Desk) (hub : Hub) : Desk := { d with hub }

def settle {α : Type} (d : Desk) (r : Except Fault (α × Hub)) (answer : α → Answer) :
    Answer × Desk :=
  match r with
  | .error f => (.fault f, d)
  | .ok (a, hub) => (answer a, d.withHub hub)

def release (d : Desk) (s : SessionId) : Desk :=
  match d.receivers.get? s with
  | none => d
  | some c => { hub := d.hub.receive c Channel.close, receivers := d.receivers.erase s }

def attach (d : Desk) (s : SessionId) : Answer × Desk :=
  match d.hub.attach s with
  | .error f => (.fault f, d)
  | .ok (c, hub) =>
      let d := (d.withHub hub).release s
      (.done, { d with receivers := d.receivers.insert s c })

def drained (d : Desk) (c : Nat) : Answer :=
  .drained (d.hub.table.queued c) (d.hub.table.isOpen c)

def drain (d : Desk) (s : SessionId) : Answer × Desk :=
  match d.receivers.get? s with
  | none => (.noReceiver, d)
  | some c => (d.drained c, d.withHub (d.hub.receive c Channel.takeAll))

def step (d : Desk) : Call → Answer × Desk
  | .attach s => d.attach s
  | .detach s => d.settle (d.hub.detach s) .count
  | .register s p mask => d.settle (d.hub.register s p mask) .handle
  | .cancel h => d.settle (d.hub.cancel h) .flag
  | .publish zxid events => d.settle (d.hub.publish zxid events) .count
  | .barrier s zxid =>
      match d.hub.barrier s zxid with
      | (.ok (), hub) => (.done, d.withHub hub)
      | (.error f, hub) => (.fault f, d.withHub hub)
  | .watching p =>
      match d.hub.watching p with
      | .ok hs => (.handles hs, d)
      | .error f => (.fault f, d)
  | .drain s => d.drain s
  | .dropReceiver s => (.flag (d.receivers.contains s), d.release s)
  | .poison => (.poisoned, d.withHub d.hub.poison)

def run (d : Desk) (calls : List Call) : Desk := calls.foldl (fun d c => (d.step c).2) d

end Desk

end Coordination.Watch
