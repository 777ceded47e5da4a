import Coordination.Journal.Disk

namespace Coordination.Journal

/-- What takes records; an append may fail, and what has taken a record has changed. -/
class Sink (σ : Type) where
  append : Record → σ → Except Fault Unit × σ

structure Memory where
  records : List Record
  /-- Counted from 1; with 0 no append fails. -/
  failAt : Nat
  calls : Nat
  deriving DecidableEq

def Memory.start (failAt : Nat) : Memory := { records := [], failAt, calls := 0 }

instance : Sink Memory where
  append r m :=
    let m := { m with calls := m.calls + 1 }
    if m.failAt ≠ 0 ∧ m.failAt ≤ m.calls then (.error (.io (.other "disk full")), m)
    else (.ok (), { m with records := m.records ++ [r] })

inductive Log where
  | null (appended : Nat)
  /-- Without a target nothing is written or counted. -/
  | file (target : Option Target) (appended : Nat)
  deriving DecidableEq, Repr

def Log.appended : Log → Nat
  | .null n => n
  | .file _ n => n

structure Volume where
  disk : Disk
  log : Log
  deriving DecidableEq

instance : Sink Volume where
  append r v :=
    match v.log with
    | .null n => (.ok (), { v with log := .null (n + 1) })
    | .file none _ => (.ok (), v)
    | .file (some target) n =>
        match v.disk.append r.frame target with
        | (.error e, disk) => (.error (.io (.system e)), { v with disk })
        | (.ok (), disk) => (.ok (), { disk, log := .file (some target) (n + 1) })

def Disk.openLog (d : Disk) (durability : Durability) : Except Fault Volume :=
  match d.createDirectory with
  | .error e => .error (.journal (.createDirectory e))
  | .ok () =>
      if durability = .none then .ok { disk := d, log := .file none 0 }
      else
        match d.openTarget with
        | .error e => .error (.journal (.openFile e))
        | .ok (target, disk) => .ok { disk, log := .file (some target) 0 }

def Disk.repair (d : Disk) (s : Scan) : Disk :=
  if s.validLength < s.fileLength then d.modifyPresent (·.take s.validLength) else d

def Disk.recover (d : Disk) (durability : Durability) : Except Fault (List Record × Volume) :=
  match d.scan with
  | .error e => .error e
  | .ok s =>
      match (d.repair s).openLog durability with
      | .error e => .error e
      | .ok v => .ok (s.records, v)

end Coordination.Journal
