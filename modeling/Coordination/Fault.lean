import Coordination.Op
import Coordination.Path

namespace Coordination

inductive Phase where
  | pending
  | validating
  | committed
  | aborted
  deriving DecidableEq, Repr

namespace Phase

def isFinal : Phase → Bool
  | .committed | .aborted => true
  | _ => false

def name : Phase → String
  | .pending => "PENDING"
  | .validating => "VALIDATING"
  | .committed => "COMMITTED"
  | .aborted => "ABORTED"

end Phase

inductive OsError where
  | fileExists
  | notDirectory
  | isDirectory
  | noSpace
  deriving DecidableEq, Repr

def OsError.message : OsError → String
  | .fileExists => "File exists (os error 17)"
  | .notDirectory => "Not a directory (os error 20)"
  | .isDirectory => "Is a directory (os error 21)"
  | .noSpace => "No space left on device (os error 28)"

inductive RequestFault where
  | badPath (path : String) (flaw : Path.Flaw)
  | emptyMask
  | alreadyAttached (session : SessionId)
  | batchTooLong (length limit : Nat)
  | payloadTooLong (op path : String) (length limit : Nat)
  | badMove (batch : Nat) (target current : Phase)
  | unexpectedOutcome (call : String) (outcome : Outcome)
  | noOutcome
  | notRegistered
  | other (text : String)
  deriving DecidableEq, Repr

inductive ConfigFault where
  | malformed
  | noQueue
  | noOps
  | syncWithoutJournal
  | other (text : String)
  deriving DecidableEq, Repr

/-- What stopped the writer; the reason is the wording of the fault behind it. -/
inductive HaltCause where
  | append (zxid : Zxid) (reason : String)
  | publish (zxid : Zxid) (reason : String)
  | other (text : String)
  deriving DecidableEq, Repr

inductive ChannelFault where
  | writerStopped
  | batchDropped
  | syncDropped
  | watchDropped
  | other (text : String)
  deriving DecidableEq, Repr

inductive JournalFault where
  | createDirectory (cause : OsError)
  | openFile (cause : OsError)
  | readLength (cause : OsError)
  | decodeRecord
  | outOfOrder (zxid last : Zxid)
  | rejected (zxid : Zxid) (rejection : Rejection)
  | other (text : String)
  deriving DecidableEq, Repr

inductive LockFault where
  | poisoned
  | other (text : String)
  deriving DecidableEq, Repr

inductive IoFault where
  | system (cause : OsError)
  | other (text : String)
  deriving DecidableEq, Repr

inductive Fault where
  | rejected (rejection : Rejection) (outcomes : List Outcome)
  | refused (path : String) (cause : Refusal)
  | request (cause : RequestFault)
  | config (cause : ConfigFault)
  | halted (cause : HaltCause)
  | sessionClosed (session : SessionId)
  | channelClosed (cause : ChannelFault)
  | journal (cause : JournalFault)
  | lock (cause : LockFault)
  | io (cause : IoFault)
  deriving DecidableEq, Repr

def Outcome.name : Outcome → String
  | .created .. => "Create"
  | .deleted => "Delete"
  | .dataSet .. => "SetData"
  | .checked => "Check"
  | .refused .. => "Error"

def hexText (n : Nat) : String := String.ofList (Numeral.hex n)

def batchName (n : Nat) : String := "batch_" ++ Numeral.text n

def Rejection.message (r : Rejection) : String :=
  "failed at op " ++ Numeral.text r.index ++ " (" ++ r.path ++ "): " ++ r.cause.name

def RequestFault.message : RequestFault → String
  | .badPath p flaw => "invalid path '" ++ p ++ "': " ++ flaw.reason
  | .emptyMask => "empty watch mask"
  | .alreadyAttached s => "session " ++ Numeral.text s ++ " is already attached"
  | .batchTooLong n limit =>
      "batch of " ++ Numeral.text n ++ " ops exceeds max_batch_ops " ++ Numeral.text limit
  | .payloadTooLong op p n limit =>
      op ++ " on " ++ p ++ " carries " ++ Numeral.text n ++ " bytes, limit is " ++
        Numeral.text limit
  | .badMove batch target current =>
      "Cannot move " ++ batchName batch ++ " to " ++ target.name ++ ": batch is " ++ current.name
  | .unexpectedOutcome call outcome => call ++ " returned " ++ outcome.name
  | .noOutcome => "writer returned no result"
  | .notRegistered => "watch was not registered"
  | .other text => text

def ConfigFault.message : ConfigFault → String
  | .malformed => "malformed configuration"
  | .noQueue => "queue_capacity must be > 0"
  | .noOps => "max_batch_ops must be > 0"
  | .syncWithoutJournal => "durability Sync requires a journal_path"
  | .other text => text

def HaltCause.message : HaltCause → String
  | .append zxid reason => "journal append failed at zxid " ++ hexText zxid ++ ": " ++ reason
  | .publish zxid reason => "watch publish failed at zxid " ++ hexText zxid ++ ": " ++ reason
  | .other text => text

def ChannelFault.message : ChannelFault → String
  | .writerStopped => "writer stopped"
  | .batchDropped => "writer dropped the batch"
  | .syncDropped => "writer dropped the sync"
  | .watchDropped => "writer dropped the watch"
  | .other text => text

def JournalFault.message : JournalFault → String
  | .createDirectory e => "Failed to create journal directory: " ++ e.message
  | .openFile e => "Failed to open journal: " ++ e.message
  | .readLength e => "Failed to read record length: " ++ e.message
  | .decodeRecord => "Failed to decode record"
  | .outOfOrder zxid last => "zxid " ++ hexText zxid ++ " is not after " ++ hexText last
  | .rejected zxid r => "replay of zxid " ++ hexText zxid ++ " " ++ r.message
  | .other text => text

def LockFault.message : LockFault → String
  | .poisoned => "poisoned lock: another task failed inside"
  | .other text => text

def IoFault.message : IoFault → String
  | .system e => e.message
  | .other text => text

namespace Fault

def message : Fault → String
  | .rejected r _ => "Transaction " ++ r.message
  | .refused p cause => cause.name ++ " for path '" ++ p ++ "'"
  | .request cause => "Invalid request: " ++ cause.message
  | .config cause => "Invalid configuration: " ++ cause.message
  | .halted cause => "Writer halted: " ++ cause.message
  | .sessionClosed s => "Session " ++ Numeral.text s ++ " is closed"
  | .channelClosed cause => "Channel closed: " ++ cause.message
  | .journal cause => "Journal error: " ++ cause.message
  | .lock cause => "Lock error: " ++ cause.message
  | .io cause => "I/O error: " ++ cause.message

def refusal? : Fault → Option Refusal
  | .rejected r _ => some r.cause
  | .refused _ cause => some cause
  | _ => none

def outcomes? : Fault → Option (List Outcome)
  | .rejected _ outcomes => some outcomes
  | _ => none

def ofRejection (length : Nat) (r : Rejection) : Fault := .rejected r (r.outcomes length)

end Fault

def Path.check (p : String) : Except Fault Unit :=
  match Path.flaw? p with
  | none => .ok ()
  | some flaw => .error (.request (.badPath p flaw))

end Coordination
