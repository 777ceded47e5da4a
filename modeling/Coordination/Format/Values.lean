import Coordination.Config
import Coordination.Format.Codec
import Coordination.Journal.Record
import Coordination.Tree
import Coordination.Watch.Channel
import Coordination.Watch.Mask

namespace Coordination.Format

open Fields in
def statCodec : Codec Stat :=
  .record
    (cons "czxid" .nat64 none <| cons "mzxid" .nat64 none <| cons "pzxid" .nat64 none <|
      cons "ctime" .int64 none <| cons "mtime" .int64 none <|
      cons "version" .int32 none <| cons "cversion" .int32 none <|
      cons "ephemeral_owner" .nat64 none <| cons "data_length" .nat64 none <|
      cons "num_children" .nat64 none done)
    (fun (czxid, mzxid, pzxid, ctime, mtime, version, cversion, owner, dataLength, numChildren,
        _) =>
      { czxid, mzxid, pzxid, ctime, mtime, version, cversion, owner, dataLength, numChildren })
    (fun s => (s.czxid, s.mzxid, s.pzxid, s.ctime, s.mtime, s.version, s.cversion, s.owner,
      s.dataLength, s.numChildren, ()))

def modeCodec : Codec CreateMode :=
  .choice [("Persistent", .persistent), ("PersistentSequential", .persistentSequential),
    ("Ephemeral", .ephemeralOnly), ("EphemeralSequential", .ephemeralSequential)]

def refusalCodec : Codec Refusal :=
  .choice [("NoNode", .noNode), ("NodeExists", .nodeExists), ("BadVersion", .badVersion),
    ("NotEmpty", .notEmpty), ("BadArguments", .badArguments), ("TransactionAborted", .aborted)]

def eventKindCodec : Codec EventKind :=
  .choice [("NodeCreated", .created), ("NodeDeleted", .deleted), ("NodeDataChanged", .dataChanged),
    ("NodeChildrenChanged", .childrenChanged)]

def durabilityCodec : Codec Durability :=
  .choice [("Sync", .sync), ("Async", .async), ("None", .none)]

open Fields in
def eventCodec : Codec Event :=
  .record (cons "path" .text none <| cons "kind" eventKindCodec none done)
    (fun (path, kind, _) => { path, kind })
    (fun e => (e.path, e.kind, ()))

open Fields in
def opCodec : Codec Op :=
  .sum [
    .fields "Create" (cons "path" .text none <| cons "data" .bytes none <|
        cons "mode" modeCodec none done)
      (fun (p, d, m, _) => .create p d m)
      (fun | .create p d m => some (p, d, m, ()) | _ => none),
    .fields "Delete" (cons "path" .text none <| cons "version" .int32 none done)
      (fun (p, v, _) => .delete p v)
      (fun | .delete p v => some (p, v, ()) | _ => none),
    .fields "SetData" (cons "path" .text none <| cons "data" .bytes none <|
        cons "version" .int32 none done)
      (fun (p, d, v, _) => .setData p d v)
      (fun | .setData p d v => some (p, d, v, ()) | _ => none),
    .fields "Check" (cons "path" .text none <| cons "version" .int32 none done)
      (fun (p, v, _) => .check p v)
      (fun | .check p v => some (p, v, ()) | _ => none)]

open Fields in
def outcomeCodec : Codec Outcome :=
  .sum [
    .fields "Create" (cons "path" .text none <| cons "stat" statCodec none done)
      (fun (p, s, _) => .created p s)
      (fun | .created p s => some (p, s, ()) | _ => none),
    .unit "Delete" .deleted,
    .fields "SetData" (cons "stat" statCodec none done)
      (fun (s, _) => .dataSet s)
      (fun | .dataSet s => some (s, ()) | _ => none),
    .unit "Check" .checked,
    .fields "Error" (cons "code" refusalCodec none done)
      (fun (r, _) => .refused r)
      (fun | .refused r => some (r, ()) | _ => none)]

open Fields in
def recordCodec : Codec Record :=
  .record
    (cons "zxid" .nat64 none <| cons "time" .int64 none <| cons "session" .nat64 none <|
      cons "ops" (.list opCodec) none <| cons "events" (.list eventCodec) none done)
    (fun (zxid, time, session, ops, events, _) => { zxid, time, session, ops, events })
    (fun r => (r.zxid, r.time, r.session, r.ops, r.events, ()))

def maskCodec : Codec Watch.Mask := Codec.byte.convert Watch.Mask.mk Watch.Mask.bits

def handleCodec : Codec Watch.Handle := .nat64

open Fields in
def nodeCodec : Codec Node :=
  .record (cons "data" .bytes none <| cons "stat" statCodec none <|
      cons "children" .names none done)
    (fun (data, stat, children, _) => { data, stat, children })
    (fun n => (n.data, n.stat, n.children, ()))

open Fields in
def treeCodec : Codec Tree :=
  .record (cons "nodes" (.dict nodeCodec) none <| cons "last_zxid" .nat64 none done)
    (fun (nodes, lastZxid, _) => { nodes, lastZxid })
    (fun t => (t.nodes, t.lastZxid, ()))

open Fields in
/-- A missing field of a configuration has its standard value. -/
def configCodec : Codec Config :=
  let s := Config.standard
  .record
    (cons "queue_capacity" .nat64 s.queueCapacity <| cons "max_batch_ops" .nat64 s.maxOps <|
      cons "max_data_bytes" .nat64 s.maxDataBytes <|
      cons "journal_path" (.option .text) (some s.journalPath) <|
      cons "durability" durabilityCodec s.durability done)
    (fun (queueCapacity, maxOps, maxDataBytes, journalPath, durability, _) =>
      { queueCapacity, maxOps, maxDataBytes, journalPath, durability })
    (fun c => (c.queueCapacity, c.maxOps, c.maxDataBytes, c.journalPath, c.durability, ()))

end Coordination.Format

namespace Coordination.Config

def ofText (s : String) : Except Fault Config :=
  match Format.configCodec.ofJson? s with
  | none => .error (.config .malformed)
  | some c => c.check.map fun _ => c

end Coordination.Config
