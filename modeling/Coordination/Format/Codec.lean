import Coordination.Format.Medium

/-!
Descriptions of values from which both directions follow, in any format.
-/

namespace Coordination.Format

structure Codec (α : Type) where
  write {F : Type} [Output F] : α → F
  read {F : Type} [Input F] : F → Option α

structure Fields (α : Type) where
  names : List String
  write {F : Type} [Output F] : α → List F
  read {F : Type} [Input F] : List (Option F) → Option α

structure Case (α : Type) where
  name : String
  /-- Nothing for a value of another variant. -/
  write {F : Type} [Output F] : α → Option (Option (List (String × F)))
  read {F : Type} [Input F] : Option F → Option α

namespace Fields

def done : Fields Unit where
  names := []
  write _ := []
  read _ := some ()

def tagged {α : Type} (fs : Fields α) {F : Type} [Output F] (a : α) : List (String × F) :=
  fs.names.zip (fs.write a)

/-- Puts a field in front. Where the field is missing it has the default, if there is one. -/
def cons {α β : Type} (name : String) (c : Codec α) (absent : Option α) (fs : Fields β) :
    Fields (α × β) where
  names := name :: fs.names
  write x := c.write x.1 :: fs.write x.2
  read
    | [] => none
    | x :: xs =>
        match (match x with | some f => c.read f | none => absent), fs.read xs with
        | some a, some b => some (a, b)
        | _, _ => none

end Fields

namespace Case

def unit {α : Type} [DecidableEq α] (name : String) (a : α) : Case α where
  name
  write b := if b = a then some none else none
  read
    | none => some a
    | some f => if Input.isNothing f then some a else none

def fields {α β : Type} (name : String) (fs : Fields β) (of : β → α) (parts : α → Option β) :
    Case α where
  name
  write a := (parts a).map fun b => some (fs.tagged b)
  read
    | none => none
    | some f => ((Input.record? fs.names f).bind fs.read).map of

end Case

namespace Codec

def int (low high : Int) : Codec Int where
  write := Output.int
  read f := (Input.int? f).filter fun i => low ≤ i ∧ i ≤ high

def convert {α β : Type} (c : Codec α) (of : α → β) (back : β → α) : Codec β where
  write b := c.write (back b)
  read f := (c.read f).map of

def nat (limit : Nat) : Codec Nat := (int 0 (limit - 1)).convert Int.toNat Int.ofNat

def nat64 : Codec Nat := nat UInt64.size

def int32 : Codec Int := int (-2147483648) 2147483647

def int64 : Codec Int := int (-9223372036854775808) 9223372036854775807

def byte : Codec UInt8 := (nat 256).convert UInt8.ofNat UInt8.toNat

def text : Codec String where
  write := Output.text
  read := Input.text?

def list {α : Type} (c : Codec α) : Codec (List α) where
  write xs := Output.list (xs.map c.write)
  read f := (Input.list? f).bind (·.mapM c.read)

def bytes : Codec Bytes := list byte

def names : Codec (Dict String Unit) :=
  (list text).convert (fun ns => Dict.ofList (ns.map (·, ()))) Dict.keys

def dict {α : Type} (c : Codec α) : Codec (Dict String α) where
  write d := Output.dict (d.toList.map fun e => (e.1, c.write e.2))
  read f := (Input.dict? f).bind fun es =>
    (es.mapM fun e => (c.read e.2).map (e.1, ·)).map Dict.ofList

def option {α : Type} (c : Codec α) : Codec (Option α) where
  write
    | none => Output.nothing
    | some a => c.write a
  read f := if Input.isNothing f then some none else (c.read f).map some

def record {α β : Type} (fs : Fields β) (of : β → α) (parts : α → β) : Codec α where
  write a := Output.record (fs.tagged (parts a))
  read f := ((Input.record? fs.names f).bind fs.read).map of

/-- Writes a value by the first case that it belongs to. -/
def writeCase {α : Type} {F : Type} [Output F] (a : α) : List (Case α) → F
  | [] => Output.nothing
  | c :: cs =>
      match c.write a with
      | some payload => Output.variant c.name payload
      | none => writeCase a cs

def sum {α : Type} (cases : List (Case α)) : Codec α where
  write a := writeCase a cases
  read f :=
    match Input.variant? (cases.map (·.name)) f with
    | none => none
    | some (name, payload) =>
        match cases.find? (·.name == name) with
        | none => none
        | some c => c.read payload

def choice {α : Type} [DecidableEq α] (cases : List (String × α)) : Codec α :=
  sum (cases.map fun (name, a) => Case.unit name a)

def toJson {α : Type} (c : Codec α) (a : α) : String := (c.write a : Json).render

def ofJson? {α : Type} (c : Codec α) (s : String) : Option α := (Json.parse s).bind c.read

def toBytes {α : Type} (c : Codec α) (a : α) : Bytes := (c.write a : Pack).encode

def ofBytes? {α : Type} (c : Codec α) (bs : Bytes) : Option α :=
  (Pack.decode bs).bind fun p => c.read ({ pack := p, room := Pack.maxDepth } : Pack.Limited)

end Codec

end Coordination.Format
