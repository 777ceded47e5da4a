import Coordination.Fault
import Coordination.Format.Values

/-!
The journal as bytes. A record is written as a frame: four bytes of length, lowest first, then the
record. Reading takes complete frames from the front; what a crash has left of the last one is not
a frame, and a complete frame that is no record is a fault.
-/

namespace Coordination

namespace Record

def toBytes (r : Record) : Bytes := Format.recordCodec.toBytes r

def ofBytes? (bs : Bytes) : Option Record := Format.recordCodec.ofBytes? bs

/-- Four bytes hold the length as far as it fits. -/
def frame (r : Record) : Bytes :=
  Format.littleEndian 4 r.toBytes.length ++ r.toBytes

end Record

namespace Journal

def frame? (bs : Bytes) : Option (Bytes × Bytes) :=
  match Format.split? 4 bs with
  | none => none
  | some (head, rest) => Format.split? (Format.ofLittleEndian head) rest

def framesUpTo : Nat → Bytes → List Bytes
  | 0, _ => []
  | limit + 1, bs =>
      match frame? bs with
      | none => []
      | some (payload, rest) => payload :: framesUpTo limit rest

def frames (bs : Bytes) : List Bytes := framesUpTo bs.length bs

def framesLength : List Bytes → Nat
  | [] => 0
  | payload :: payloads => 4 + payload.length + framesLength payloads

structure Scan where
  records : List Record
  validLength : Nat
  fileLength : Nat
  deriving DecidableEq

def Scan.empty : Scan := { records := [], validLength := 0, fileLength := 0 }

def scan (bs : Bytes) : Except Fault Scan :=
  let payloads := frames bs
  match payloads.mapM Record.ofBytes? with
  | none => .error (.journal .decodeRecord)
  | some records =>
      .ok { records, validLength := framesLength payloads, fileLength := bs.length }

end Journal

end Coordination
