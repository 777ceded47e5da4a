import Coordination.Journal.Frame

/-!
The file system as a journal sees it: one path, and the files that were ever at it. A file that is
removed stays what it is for those that hold it open.
-/

namespace Coordination.Journal

inductive Site where
  | file
  /-- A device that reads as empty and takes nothing. -/
  | fullDevice
  | directory
  /-- Nothing, and a file stands where the directory of the path should be. -/
  | blocked
  deriving DecidableEq, Repr

inductive Target where
  | file (number : Nat)
  | device
  deriving DecidableEq, Repr

structure Disk where
  site : Site
  /-- The files by number, removed ones included. -/
  files : List Bytes
  present : Option Nat
  capacity : UInt64
  deriving DecidableEq, Repr

namespace Disk

def blank (site : Site) : Disk :=
  { site, files := [], present := none, capacity := 18446744073709551615 }

def content? (d : Disk) : Option Bytes := d.present.bind (d.files[·]?)

def modifyFile (d : Disk) (n : Nat) (f : Bytes → Bytes) : Disk :=
  { d with files := d.files.modify n f }

def modifyPresent (d : Disk) (f : Bytes → Bytes) : Disk :=
  match d.present with
  | some n => d.modifyFile n f
  | none => d

def ensureFile (d : Disk) : Nat × Disk :=
  match d.present with
  | some n => (n, d)
  | none =>
      (d.files.length, { d with files := d.files ++ [[]], present := some d.files.length })

def createDirectory (d : Disk) : Except OsError Unit :=
  match d.site with
  | .blocked => .error .fileExists
  | _ => .ok ()

def openTarget (d : Disk) : Except OsError (Target × Disk) :=
  match d.site with
  | .file =>
      let (n, d) := d.ensureFile
      .ok (.file n, d)
  | .fullDevice => .ok (.device, d)
  | .directory => .error .isDirectory
  | .blocked => .error .notDirectory

/-- As much is written as there is room for. -/
def append (d : Disk) (bs : Bytes) : Target → Except OsError Unit × Disk
  | .file n =>
      let room := d.capacity.toNat - (d.files.getD n []).length
      let disk := d.modifyFile n (· ++ bs.take room)
      if bs.length ≤ room then (.ok (), disk) else (.error .noSpace, disk)
  | .device => (.error .noSpace, d)

/-- Adds bytes to what is at the path from outside, and tells whether that was done. To the full
device only nothing can be added. -/
def write (d : Disk) (bs : Bytes) : Bool × Disk :=
  match d.site with
  | .file =>
      let (n, d) := d.ensureFile
      (true, d.modifyFile n (· ++ bs))
  | .fullDevice => (bs.isEmpty, d)
  | .directory => (false, d)
  | .blocked => (false, d)

def cut (d : Disk) (n : Nat) : Bool × Disk :=
  match d.present with
  | some _ => (true, d.modifyPresent fun bs => bs.take (bs.length - n))
  | none => (false, d)

def remove (d : Disk) : Bool × Disk := (d.present.isSome, { d with present := none })

def pathExists (d : Disk) : Bool :=
  match d.site with
  | .file => d.present.isSome
  | .fullDevice => true
  | .directory => true
  | .blocked => false

def scan (d : Disk) : Except Fault Scan :=
  match d.site with
  | .file =>
      match d.content? with
      | some bs => Journal.scan bs
      | none => .ok .empty
  | .fullDevice => .ok .empty
  | .directory => .error (.journal (.readLength .isDirectory))
  | .blocked => .ok .empty

def readAll (d : Disk) : Except Fault (List Record) := d.scan.map Scan.records

end Disk

end Coordination.Journal
