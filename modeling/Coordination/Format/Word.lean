import Coordination.Node

namespace Coordination.Format

def wordCount (width : Nat) : Nat := Nat.pow 256 width

/-- The lowest `width` bytes of a number, highest first. -/
def bigEndian : Nat → Nat → Bytes
  | 0, _ => []
  | width + 1, n => UInt8.ofNat (n / wordCount width) :: bigEndian width n

def littleEndian (width n : Nat) : Bytes := (bigEndian width n).reverse

def ofBigEndian (bs : Bytes) : Nat := bs.foldl (fun n b => n * 256 + b.toNat) 0

def ofLittleEndian (bs : Bytes) : Nat := ofBigEndian bs.reverse

def twosComplement (width : Nat) (i : Int) : Nat := (i % wordCount width).toNat

def ofTwosComplement (width n : Nat) : Int :=
  if n < wordCount width / 2 then n else n - wordCount width

def split? (n : Nat) (bs : Bytes) : Option (Bytes × Bytes) :=
  let first := bs.take n
  if first.length = n then some (first, bs.drop n) else none

def utf8 (s : String) : Bytes := s.toUTF8.data.toList

def ofUtf8? (bs : Bytes) : Option String := String.fromUTF8? ⟨bs.toArray⟩

end Coordination.Format
