import Coordination.Transaction

namespace Coordination

open Watch (Handle Mask Notification)

namespace Session

inductive Call where
  | multi (ops : List Op)
  | transaction (ops : List Op)
  | create (path : String) (data : Bytes) (mode : CreateMode)
  | delete (path : String) (version : Version)
  | setData (path : String) (data : Bytes) (version : Version)
  | checkExists (path : String)
  | getData (path : String)
  | getChildren (path : String)
  | existsWatched (path : String)
  | getDataWatched (path : String)
  | getChildrenWatched (path : String)
  | watch (path : String) (mask : Mask)
  | cancel (handle : Handle)
  | tryNext
  | next
  | sync
  | drain
  | close
  | info
  deriving DecidableEq, Repr

inductive Answer where
  | done
  | flag (b : Bool)
  | zxid (z : Zxid)
  | path (p : String)
  | stat (s : Stat)
  | stat? (s : Option Stat)
  | data (bytes : Bytes) (s : Stat)
  | names (ns : List String)
  | watchedStat (s : Option Stat) (h : Handle)
  | watchedData (bytes : Bytes) (s : Stat) (h : Handle)
  | watchedNames (ns : List String) (h : Handle)
  | handle (h : Handle)
  | notification? (n : Option Notification)
  | received (r : Received)
  | notifications (ns : List Notification)
  | outcomes (os : List Outcome)
  | transaction (length : Nat) (isEmpty : Bool) (names : List String) (result : Answer)
  | info (id : SessionId) (active : Bool)
  | fault (f : Fault)

def answer {α : Type} (of : α → Answer) : Except Fault α → Answer
  | .ok a => of a
  | .error f => .fault f

def reply {α : Type} (s : Session) (of : α → Answer) (r : Except Fault α × Store) :
    Answer × Session × Store :=
  (answer of r.1, s, r.2)

def perform (s : Session) (st : Store) (now : Time) : Call → Answer × Session × Store
  | .multi ops => s.reply .outcomes (s.multi st now ops)
  | .transaction ops =>
      let t := (Transaction.start s).addAll ops
      let (r, st) := t.commit st now
      (.transaction t.length t.isEmpty t.opNames (answer .outcomes r), s, st)
  | .create p data mode => s.reply .path (s.create st now p data mode)
  | .delete p version => s.reply (fun _ => .done) (s.delete st now p version)
  | .setData p data version => s.reply .stat (s.setData st now p data version)
  | .checkExists p => s.reply .stat? (s.exists? st p, st)
  | .getData p => s.reply (fun (b, stat) => .data b stat) (s.getData st p, st)
  | .getChildren p => s.reply .names (s.getChildren st p, st)
  | .existsWatched p => s.reply (fun (stat, h) => .watchedStat stat h) (s.existsWatched st p)
  | .getDataWatched p => s.reply (fun (b, stat, h) => .watchedData b stat h) (s.getDataWatched st p)
  | .getChildrenWatched p => s.reply (fun (ns, h) => .watchedNames ns h) (s.getChildrenWatched st p)
  | .watch p mask => s.reply .handle (s.watch st p mask)
  | .cancel h => s.reply .flag (cancel st h)
  | .tryNext =>
      let (n, st) := s.tryNext st
      (.notification? n, s, st)
  | .next =>
      let (r, st) := s.next st
      (.received r, s, st)
  | .sync => s.reply .zxid (s.sync st)
  | .drain => s.reply .notifications (s.drainUntilSynced st)
  | .close =>
      let (r, s, st) := s.close st
      (answer (fun _ => .done) r, s, st)
  | .info => (.info s.id s.active, s, st)

end Session

structure Server where
  store : Store
  /-- The sessions by the order of their connection; nothing where one has been dropped. -/
  sessions : List (Option Session)
  deriving DecidableEq

namespace Server

inductive Call where
  | connect
  | session (number : Nat) (call : Session.Call)
  | drop (number : Nat)
  deriving DecidableEq, Repr

inductive Answer where
  | connected (id : SessionId)
  | session (a : Session.Answer)
  | dropped (held : Bool)
  | noSession
  | fault (f : Fault)

def host (st : Store) : Server := { store := st, sessions := [] }

def session? (v : Server) (n : Nat) : Option Session := v.sessions[n]?.join

def connect (v : Server) : Answer × Server :=
  match v.store.connect with
  | (.ok s, store) => (.connected s.id, { store, sessions := v.sessions ++ [some s] })
  | (.error f, store) => (.fault f, { v with store })

def step (v : Server) (now : Time) : Call → Answer × Server
  | .connect => v.connect
  | .session n call =>
      match v.session? n with
      | none => (.noSession, v)
      | some s =>
          let (a, s, store) := s.perform v.store now call
          (.session a, { store, sessions := v.sessions.set n (some s) })
  | .drop n =>
      match v.session? n with
      | none => (.dropped false, v)
      | some s =>
          (.dropped true, { store := s.drop v.store, sessions := v.sessions.set n none })

def run (v : Server) (calls : List (Time × Call)) : Server :=
  calls.foldl (fun v c => (v.step c.1 c.2).2) v

end Server

end Coordination
