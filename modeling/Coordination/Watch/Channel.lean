import Coordination.Event
import Coordination.Numeral
import Coordination.Stat

/-!
The delivery channel of a session. Everything ever put on it stays in `sent`, of which the
receiver has taken a first part; what it has not is queued.
-/

namespace Coordination.Watch

abbrev Handle := Nat

def handleName (h : Handle) : String := "watch_" ++ Numeral.text h

inductive Notification where
  | event (handle : Handle) (path : String) (kind : EventKind) (zxid : Zxid)
  /-- Whatever the batches up to `zxid` cause comes before this. -/
  | synced (zxid : Zxid)
  deriving DecidableEq, Repr

namespace Notification

def zxid : Notification → Zxid
  | .event _ _ _ z => z
  | .synced z => z

def isEvent : Notification → Bool
  | .event .. => true
  | .synced _ => false

end Notification

structure Channel where
  sent : List Notification
  taken : Nat
  listening : Bool
  deriving DecidableEq, Repr

namespace Channel

def fresh : Channel := { sent := [], taken := 0, listening := true }

def queued (c : Channel) : List Notification := c.sent.drop c.taken

def send (c : Channel) (n : Notification) : Channel := { c with sent := c.sent ++ [n] }

def takeOne (c : Channel) : Channel := { c with taken := c.taken + 1 }

def takeAll (c : Channel) : Channel := { c with taken := c.sent.length }

def close (c : Channel) : Channel := { c with listening := false }

end Channel

end Coordination.Watch
