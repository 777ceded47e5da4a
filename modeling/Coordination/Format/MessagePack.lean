import Coordination.Format.Word

/-!
MessagePack. Writing takes the shortest form of every number and length; reading takes any form and
gives back what follows the value. `fits` bounds the levels of a value that are counted.
-/

namespace Coordination.Format

inductive Pack where
  | nil
  | bool (b : Bool)
  | unsigned (n : Nat)
  | signed (i : Int)
  | float
  | text (bytes : Bytes)
  | binary (bytes : Bytes)
  | array (items : List Pack)
  | map (entries : List (Pack × Pack))
  | extension
  deriving Repr

namespace Pack

def int (i : Int) : Pack := if 0 ≤ i then .unsigned i.toNat else .signed i

def unsignedBytes (n : Nat) : Bytes :=
  if n < 128 then [UInt8.ofNat n]
  else if n < 256 then 0xcc :: bigEndian 1 n
  else if n < 65536 then 0xcd :: bigEndian 2 n
  else if n < 4294967296 then 0xce :: bigEndian 4 n
  else 0xcf :: bigEndian 8 n

def signedBytes (i : Int) : Bytes :=
  if -32 ≤ i then bigEndian 1 (twosComplement 1 i)
  else if -128 ≤ i then 0xd0 :: bigEndian 1 (twosComplement 1 i)
  else if -32768 ≤ i then 0xd1 :: bigEndian 2 (twosComplement 2 i)
  else if -2147483648 ≤ i then 0xd2 :: bigEndian 4 (twosComplement 4 i)
  else 0xd3 :: bigEndian 8 (twosComplement 8 i)

/-- The head of text. A length is written in four bytes at most, whatever it is. -/
def textHead (n : Nat) : Bytes :=
  if n < 32 then [UInt8.ofNat (0xa0 + n)]
  else if n < 256 then 0xd9 :: bigEndian 1 n
  else if n < 65536 then 0xda :: bigEndian 2 n
  else 0xdb :: bigEndian 4 n

def binaryHead (n : Nat) : Bytes :=
  if n < 256 then 0xc4 :: bigEndian 1 n
  else if n < 65536 then 0xc5 :: bigEndian 2 n
  else 0xc6 :: bigEndian 4 n

def arrayHead (n : Nat) : Bytes :=
  if n < 16 then [UInt8.ofNat (0x90 + n)]
  else if n < 65536 then 0xdc :: bigEndian 2 n
  else 0xdd :: bigEndian 4 n

def mapHead (n : Nat) : Bytes :=
  if n < 16 then [UInt8.ofNat (0x80 + n)]
  else if n < 65536 then 0xde :: bigEndian 2 n
  else 0xdf :: bigEndian 4 n

mutual

def push (done : Bytes) : Pack → Bytes
  | .nil => 0xc0 :: done
  | .bool false => 0xc2 :: done
  | .bool true => 0xc3 :: done
  | .unsigned n => (unsignedBytes n).reverseAux done
  | .signed i => (signedBytes i).reverseAux done
  | .float => ([0xcb, 0, 0, 0, 0, 0, 0, 0, 0] : Bytes).reverseAux done
  | .text bs => bs.reverseAux ((textHead bs.length).reverseAux done)
  | .binary bs => bs.reverseAux ((binaryHead bs.length).reverseAux done)
  | .array items => pushAll ((arrayHead items.length).reverseAux done) items
  | .map entries => pushEntries ((mapHead entries.length).reverseAux done) entries
  | .extension => ([0xd4, 0, 0] : Bytes).reverseAux done

def pushAll (done : Bytes) : List Pack → Bytes
  | [] => done
  | p :: ps => pushAll (push done p) ps

def pushEntries (done : Bytes) : List (Pack × Pack) → Bytes
  | [] => done
  | (k, v) :: es => pushEntries (push (push done k) v) es

end

def encode (p : Pack) : Bytes := (push [] p).reverse

inductive Head where
  | whole (p : Pack)
  | array (n : Nat)
  | map (n : Nat)

def word? (width : Nat) (bs : Bytes) : Option (Nat × Bytes) :=
  (split? width bs).map fun (w, rest) => (ofBigEndian w, rest)

def wordHead? (width : Nat) (f : Nat → Head) (bs : Bytes) : Option (Head × Bytes) :=
  (word? width bs).map fun (n, rest) => (f n, rest)

def bytesHead? (f : Bytes → Pack) (n : Nat) (bs : Bytes) : Option (Head × Bytes) :=
  (split? n bs).map fun (b, rest) => (.whole (f b), rest)

def sizedHead? (width extra : Nat) (f : Bytes → Pack) (bs : Bytes) : Option (Head × Bytes) :=
  match word? width bs with
  | none => none
  | some (n, rest) => bytesHead? f (n + extra) rest

def signedHead (width n : Nat) : Head := .whole (.signed (ofTwosComplement width n))

def head? (tag : UInt8) (bs : Bytes) : Option (Head × Bytes) :=
  let t := tag.toNat
  if t < 0x80 then some (.whole (.unsigned t), bs)
  else if t < 0x90 then some (.map (t - 0x80), bs)
  else if t < 0xa0 then some (.array (t - 0x90), bs)
  else if t < 0xc0 then bytesHead? .text (t - 0xa0) bs
  else if 0xe0 ≤ t then some (signedHead 1 t, bs)
  else
    match t with
    | 0xc0 => some (.whole .nil, bs)
    | 0xc2 => some (.whole (.bool false), bs)
    | 0xc3 => some (.whole (.bool true), bs)
    | 0xc4 => sizedHead? 1 0 .binary bs
    | 0xc5 => sizedHead? 2 0 .binary bs
    | 0xc6 => sizedHead? 4 0 .binary bs
    | 0xc7 => sizedHead? 1 1 (fun _ => .extension) bs
    | 0xc8 => sizedHead? 2 1 (fun _ => .extension) bs
    | 0xc9 => sizedHead? 4 1 (fun _ => .extension) bs
    | 0xca => bytesHead? (fun _ => .float) 4 bs
    | 0xcb => bytesHead? (fun _ => .float) 8 bs
    | 0xcc => wordHead? 1 (.whole ∘ .unsigned) bs
    | 0xcd => wordHead? 2 (.whole ∘ .unsigned) bs
    | 0xce => wordHead? 4 (.whole ∘ .unsigned) bs
    | 0xcf => wordHead? 8 (.whole ∘ .unsigned) bs
    | 0xd0 => wordHead? 1 (signedHead 1) bs
    | 0xd1 => wordHead? 2 (signedHead 2) bs
    | 0xd2 => wordHead? 4 (signedHead 4) bs
    | 0xd3 => wordHead? 8 (signedHead 8) bs
    | 0xd4 => bytesHead? (fun _ => .extension) 2 bs
    | 0xd5 => bytesHead? (fun _ => .extension) 3 bs
    | 0xd6 => bytesHead? (fun _ => .extension) 5 bs
    | 0xd7 => bytesHead? (fun _ => .extension) 9 bs
    | 0xd8 => bytesHead? (fun _ => .extension) 17 bs
    | 0xd9 => sizedHead? 1 0 .text bs
    | 0xda => sizedHead? 2 0 .text bs
    | 0xdb => sizedHead? 4 0 .text bs
    | 0xdc => wordHead? 2 .array bs
    | 0xdd => wordHead? 4 .array bs
    | 0xde => wordHead? 2 .map bs
    | 0xdf => wordHead? 4 .map bs
    | _ => none

def readItems (read : Bytes → Option (Pack × Bytes)) :
    Nat → List Pack → Bytes → Option (List Pack × Bytes)
  | 0, done, bs => some (done.reverse, bs)
  | n + 1, done, bs =>
      match read bs with
      | none => none
      | some (p, bs) => readItems read n (p :: done) bs

def readEntries (read : Bytes → Option (Pack × Bytes)) :
    Nat → List (Pack × Pack) → Bytes → Option (List (Pack × Pack) × Bytes)
  | 0, done, bs => some (done.reverse, bs)
  | n + 1, done, bs =>
      match read bs with
      | none => none
      | some (k, bs) =>
          match read bs with
          | none => none
          | some (v, bs) => readEntries read n ((k, v) :: done) bs

def read (depth : Nat) (bs : Bytes) : Option (Pack × Bytes) :=
  match bs with
  | [] => none
  | tag :: bs =>
      match head? tag bs with
      | none => none
      | some (.whole p, bs) => some (p, bs)
      | some (.array n, bs) =>
          match depth with
          | 0 => none
          | depth + 1 => (readItems (read depth) n [] bs).map fun (ps, bs) => (.array ps, bs)
      | some (.map n, bs) =>
          match depth with
          | 0 => none
          | depth + 1 => (readEntries (read depth) n [] bs).map fun (es, bs) => (.map es, bs)

mutual

/-- Whether a value has at most `room` levels of containers. An extension is one, bytes are not. -/
def fits (room : Nat) : Pack → Bool
  | .array items =>
      match room with
      | 0 => false
      | room + 1 => allFit room items
  | .map entries =>
      match room with
      | 0 => false
      | room + 1 => entriesFit room entries
  | .extension => room != 0
  | _ => true

def allFit (room : Nat) : List Pack → Bool
  | [] => true
  | p :: ps => if p.fits room then allFit room ps else false

def entriesFit (room : Nat) : List (Pack × Pack) → Bool
  | [] => true
  | (k, v) :: es => if k.fits room && v.fits room then entriesFit room es else false

end

def maxDepth : Nat := 1023

/-- The value at the front of the bytes; what follows it is not looked at. The map around a variant
is not counted as a level, but what it holds is either counted or no container. -/
def decode (bs : Bytes) : Option Pack := (read (2 * maxDepth + 1) bs).map (·.1)

end Pack

end Coordination.Format
