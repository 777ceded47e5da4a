import Coordination.Numeral

/-!
JSON text. A number without fraction and exponent is an integer if it fits in 64 bits, and any
other number is only known to be one; text with an unpaired surrogate is only known to be text.
-/

namespace Coordination.Format

inductive Json where
  | null
  | bool (b : Bool)
  | int (i : Int)
  | real
  /-- Nothing stands for text that cannot be decoded. -/
  | text (s : Option String)
  | array (items : List Json)
  | object (members : List (Option String × Json))
  deriving Repr

namespace Json

def escaped (c : Char) : List Char :=
  if c = '"' then ['\\', '"']
  else if c = '\\' then ['\\', '\\']
  else if c = '\n' then ['\\', 'n']
  else if c = '\r' then ['\\', 'r']
  else if c = '\t' then ['\\', 't']
  else if c.toNat = 8 then ['\\', 'b']
  else if c.toNat = 12 then ['\\', 'f']
  else if c.toNat < 32 then
    ['\\', 'u', '0', '0', Nat.digitChar (c.toNat / 16), Nat.digitChar (c.toNat % 16)]
  else [c]

/-- Writes text in quotes behind `done`, which is held backwards. -/
def pushText (done : List Char) (s : Option String) : List Char :=
  match s with
  | some s => '"' :: s.toList.foldl (fun done c => (escaped c).reverseAux done) ('"' :: done)
  | none => ['"', '\\', 'u', 'd', '8', '0', '0', '"'].reverseAux done

mutual

def push (done : List Char) : Json → List Char
  | .null => ['n', 'u', 'l', 'l'].reverseAux done
  | .bool true => ['t', 'r', 'u', 'e'].reverseAux done
  | .bool false => ['f', 'a', 'l', 's', 'e'].reverseAux done
  | .int i => (Numeral.signed i).reverseAux done
  | .real => ['0', '.', '0'].reverseAux done
  | .text s => pushText done s
  | .array [] => ']' :: '[' :: done
  | .array (x :: xs) => ']' :: pushItems (push ('[' :: done) x) xs
  | .object [] => '}' :: '{' :: done
  | .object ((k, v) :: es) => '}' :: pushMembers (push (':' :: pushText ('{' :: done) k) v) es

def pushItems (done : List Char) : List Json → List Char
  | [] => done
  | x :: xs => pushItems (push (',' :: done) x) xs

def pushMembers (done : List Char) : List (Option String × Json) → List Char
  | [] => done
  | (k, v) :: es => pushMembers (push (':' :: pushText (',' :: done) k) v) es

end

def render (j : Json) : String := String.ofList (push [] j).reverse

def isBlank (c : Char) : Bool := c = ' ' || c = '\n' || c = '\t' || c = '\r'

def skipBlanks (cs : List Char) : List Char := cs.dropWhile isBlank

def isDigit (c : Char) : Bool := '0' ≤ c && c ≤ '9'

def skipFraction : List Char → Option (Bool × List Char)
  | '.' :: cs => if (cs.takeWhile isDigit).isEmpty then none else some (true, cs.dropWhile isDigit)
  | cs => some (false, cs)

def skipSign : List Char → List Char
  | '+' :: cs => cs
  | '-' :: cs => cs
  | cs => cs

def skipExponent : List Char → Option (Bool × List Char)
  | c :: cs =>
      if c = 'e' ∨ c = 'E' then
        let cs := skipSign cs
        if (cs.takeWhile isDigit).isEmpty then none else some (true, cs.dropWhile isDigit)
      else some (false, c :: cs)
  | [] => some (false, [])

/-- A negative zero is not an integer. -/
def integer (negative : Bool) (n : Nat) : Json :=
  if negative then
    if 0 < n ∧ n ≤ 9223372036854775808 then .int (-n) else .real
  else if n < 18446744073709551616 then .int n else .real

def readNumber (negative : Bool) (cs : List Char) : Option (Json × List Char) :=
  let ds := cs.takeWhile isDigit
  if ds.isEmpty ∨ (ds.head? = some '0' ∧ ds.length ≠ 1) then none
  else
    match skipFraction (cs.dropWhile isDigit) with
    | none => none
    | some (fraction, cs) =>
        match skipExponent cs with
        | none => none
        | some (exponent, cs) =>
            some (if fraction || exponent then .real else integer negative (Numeral.value ds), cs)

/-- A character of text, or a unit of UTF-16 that an escape gives. -/
inductive Piece where
  | char (c : Char)
  | unit (n : Nat)
  deriving Repr

def hex4? (a b c d : Char) : Option Nat :=
  match Numeral.hexDigit? a, Numeral.hexDigit? b, Numeral.hexDigit? c, Numeral.hexDigit? d with
  | some a, some b, some c, some d => some (((a * 16 + b) * 16 + c) * 16 + d)
  | _, _, _, _ => none

def unescaped? (c : Char) : Option Char :=
  match c with
  | '"' => some '"'
  | '\\' => some '\\'
  | '/' => some '/'
  | 'b' => some (Char.ofNat 8)
  | 'f' => some (Char.ofNat 12)
  | 'n' => some '\n'
  | 'r' => some '\r'
  | 't' => some '\t'
  | _ => none

def readPieces (done : List Piece) : List Char → Option (List Piece × List Char)
  | [] => none
  | '"' :: cs => some (done.reverse, cs)
  | '\\' :: 'u' :: a :: b :: c :: d :: cs =>
      match hex4? a b c d with
      | none => none
      | some n => readPieces (.unit n :: done) cs
  | '\\' :: c :: cs =>
      match unescaped? c with
      | none => none
      | some c => readPieces (.char c :: done) cs
  | c :: cs => if c.toNat < 32 ∨ c = '\\' then none else readPieces (.char c :: done) cs

def isHigh (n : Nat) : Bool := 0xd800 ≤ n && n < 0xdc00

def isLow (n : Nat) : Bool := 0xdc00 ≤ n && n < 0xe000

def joinPieces (done : List Char) : List Piece → Option (List Char)
  | [] => some done.reverse
  | .char c :: ps => joinPieces (c :: done) ps
  | .unit n :: ps =>
      if isHigh n || isLow n then
        match ps with
        | .unit m :: ps =>
            if isHigh n && isLow m then
              joinPieces (Char.ofNat (0x10000 + (n - 0xd800) * 1024 + (m - 0xdc00)) :: done) ps
            else none
        | _ => none
      else joinPieces (Char.ofNat n :: done) ps

def readText (cs : List Char) : Option (Option String × List Char) :=
  (readPieces [] cs).map fun (ps, cs) => ((joinPieces [] ps).map String.ofList, cs)

def readWord (word : List Char) (j : Json) (cs : List Char) : Option (Json × List Char) :=
  if word.isPrefixOf cs then some (j, cs.drop word.length) else none

def readItems (read : List Char → Option (Json × List Char)) :
    Nat → List Json → List Char → Option (List Json × List Char)
  | 0, _, _ => none
  | limit + 1, done, cs =>
      match read (skipBlanks cs) with
      | none => none
      | some (x, cs) =>
          match skipBlanks cs with
          | ',' :: cs => readItems read limit (x :: done) cs
          | ']' :: cs => some ((x :: done).reverse, cs)
          | _ => none

def readMember (read : List Char → Option (Json × List Char)) (cs : List Char) :
    Option ((Option String × Json) × List Char) :=
  match skipBlanks cs with
  | '"' :: cs =>
      match readText cs with
      | none => none
      | some (k, cs) =>
          match skipBlanks cs with
          | ':' :: cs => (read (skipBlanks cs)).map fun (v, cs) => ((k, v), cs)
          | _ => none
  | _ => none

def readMembers (read : List Char → Option (Json × List Char)) :
    Nat → List (Option String × Json) → List Char →
      Option (List (Option String × Json) × List Char)
  | 0, _, _ => none
  | limit + 1, done, cs =>
      match readMember read cs with
      | none => none
      | some (e, cs) =>
          match skipBlanks cs with
          | ',' :: cs => readMembers read limit (e :: done) cs
          | '}' :: cs => some ((e :: done).reverse, cs)
          | _ => none

/-- Reads a value that begins at the front, nested less than `depth` deep and with at most `limit`
parts in a container. -/
def read (limit : Nat) : Nat → List Char → Option (Json × List Char)
  | 0, _ => none
  | depth + 1, cs =>
      match cs with
      | [] => none
      | '{' :: cs =>
          match skipBlanks cs with
          | '}' :: cs => some (.object [], cs)
          | cs => (readMembers (read limit depth) limit [] cs).map fun (es, cs) => (.object es, cs)
      | '[' :: cs =>
          match skipBlanks cs with
          | ']' :: cs => some (.array [], cs)
          | cs => (readItems (read limit depth) limit [] cs).map fun (xs, cs) => (.array xs, cs)
      | '"' :: cs => (readText cs).map fun (s, cs) => (.text s, cs)
      | '-' :: cs => readNumber true cs
      | 'n' :: cs => readWord ['u', 'l', 'l'] .null cs
      | 't' :: cs => readWord ['r', 'u', 'e'] (.bool true) cs
      | 'f' :: cs => readWord ['a', 'l', 's', 'e'] (.bool false) cs
      | c :: cs => readNumber false (c :: cs)

def parse (s : String) : Option Json :=
  let cs := s.toList
  let bound := cs.length + 1
  match read bound bound (skipBlanks cs) with
  | some (j, rest) => if (skipBlanks rest).isEmpty then some j else none
  | none => none

end Json

end Coordination.Format
