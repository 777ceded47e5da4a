import Coordination.Config
import Coordination.Writer

/-!
A store: its configuration, its writer and the numbers of its sessions. Changes and watched reads
go through the writer; other reads take the published tree as it is. A request that the writer can
no longer take fails, and so does one that it drops.
-/

namespace Coordination

open Journal (Disk Volume)
open Watch (Handle Hub Mask)

structure Store where
  config : Config
  writer : Writer Volume
  running : Bool
  nextSession : SessionId
  deriving DecidableEq

namespace Store

/-- Sessions are numbered in 64 bits; after the last number comes 0. -/
def sessionAfter (s : SessionId) : SessionId := (s + 1) % UInt64.size

def firstSession (rs : List Record) : SessionId :=
  sessionAfter ((rs.map Record.session).foldl max 0)

def start (config : Config) (t : Tree) (log : Volume) (nextSession : SessionId) : Store :=
  { config, writer := { engine := .start t, log }, running := true, nextSession }

/-- Opens a store on the disk; a journal that is kept is repaired and replayed first. The disk is
given back where no store can be opened. -/
def openOn (disk : Disk) (config : Config) : Except (Fault × Disk) Store :=
  match config.check with
  | .error f => .error (f, disk)
  | .ok () =>
      if config.isJournaled then
        match disk.recover config.durability with
        | .error f => .error (f, disk)
        | .ok (records, log) =>
            match replay records with
            | .error f => .error (f, log.disk)
            | .ok t => .ok (start config t log (firstSession records))
      else .ok (start config .initial { disk, log := .null 0 } 1)

def engine (st : Store) : Engine := st.writer.engine

def tree (st : Store) : Tree := st.engine.tree

def hub (st : Store) : Hub := st.engine.hub

def disk (st : Store) : Disk := st.writer.log.disk

def withWriter (st : Store) (writer : Writer Volume) : Store := { st with writer }

def withHub (st : Store) (hub : Hub) : Store :=
  st.withWriter { st.writer with engine := st.engine.withHub hub }

def withDisk (st : Store) (disk : Disk) : Store :=
  st.withWriter { st.writer with log := { st.writer.log with disk } }

def stop (st : Store) : Store := { st with running := false }

def checkRunning (st : Store) : Except Fault Unit :=
  if st.running then .ok () else .error (.channelClosed .writerStopped)

def submit (st : Store) (now : Time) (s : SessionId) (ops : List Op) :
    Except Fault (List Outcome) × Store :=
  match st.config.checkBatch ops with
  | .error f => (.error f, st)
  | .ok () =>
      match st.checkRunning with
      | .error f => (.error f, st)
      | .ok () =>
          let (r, writer) := st.writer.submit now s ops
          (r, st.withWriter writer)

def sync (st : Store) (s : SessionId) : Except Fault Zxid × Store :=
  match st.checkRunning with
  | .error f => (.error f, st)
  | .ok () =>
      let (r, writer) := st.writer.sync s
      (r, st.withWriter writer)

def watchAndRead (st : Store) (s : SessionId) (p : String) (mask : Mask) (required : Bool) :
    Except Fault (Tree × Option Handle) × Store :=
  match st.checkRunning with
  | .error f => (.error f, st)
  | .ok () =>
      let (r, writer) := st.writer.watchAndRead s p mask required
      (r, st.withWriter writer)

def orphan (st : Store) (r : Request) : Fault × Store :=
  let early := match r with
    | .submit _ ops => st.config.checkBatch ops
    | _ => .ok ()
  let fault := match early with
    | .error f => f
    | .ok () =>
        match st.checkRunning with
        | .error f => f
        | .ok () => .channelClosed r.dropped
  (fault, st.stop)

end Store

end Coordination
