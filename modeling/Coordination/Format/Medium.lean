import Coordination.Format.Json
import Coordination.Format.MessagePack

/-!
What a format offers for writing and reading values: integers, text, lists, maps by text, optional
values, records with named fields and variants. JSON and MessagePack are the two formats; a value
that is described once is written to and read from both.
-/

namespace Coordination.Format

class Output (F : Type) where
  int : Int → F
  text : String → F
  list : List F → F
  dict : List (String × F) → F
  nothing : F
  record : List (String × F) → F
  variant : String → Option (List (String × F)) → F

class Input (F : Type) where
  int? : F → Option Int
  text? : F → Option String
  list? : F → Option (List F)
  dict? : F → Option (List (String × F))
  isNothing : F → Bool
  record? : List String → F → Option (List (Option F))
  /-- The variant, one of the names if the medium numbers them, and what it carries. -/
  variant? : List String → F → Option (String × Option F)

/-- The fields of a record that is given by position; those at the end may be missing. -/
def positional {F : Type} (names : List String) (xs : List F) : Option (List (Option F)) :=
  if names.length < xs.length then none
  else some (xs.map some ++ List.replicate (names.length - xs.length) none)

/-- The field of a name; a repeated field is refused. -/
def fieldNamed {F : Type} (members : List (Option String × F)) (name : String) :
    Option (Option F) :=
  match members.filter (·.1 == some name) with
  | [] => some none
  | [(_, x)] => some (some x)
  | _ => none

def named {F : Type} (names : List String) (members : List (Option String × F)) :
    Option (List (Option F)) :=
  names.mapM (fieldNamed members)

namespace Json

def members (es : List (String × Json)) : Json := .object (es.map fun (k, v) => (some k, v))

def keyed? : Option String × Json → Option (String × Json)
  | (some k, v) => some (k, v)
  | (none, _) => none

instance : Output Json where
  int := .int
  text s := .text (some s)
  list := .array
  dict := members
  nothing := .null
  record := members
  variant name
    | none => .text (some name)
    | some fields => members [(name, members fields)]

instance : Input Json where
  int?
    | .int i => some i
    | _ => none
  text?
    | .text s => s
    | _ => none
  list?
    | .array xs => some xs
    | _ => none
  dict?
    | .object es => es.mapM keyed?
    | _ => none
  isNothing
    | .null => true
    | _ => false
  record? names
    | .array xs => positional names xs
    | .object es => if es.all (·.1.isSome) then named names es else none
    | _ => none
  variant? _
    | .text (some s) => some (s, none)
    | .object [(some k, v)] => some (k, some v)
    | _ => none

end Json

namespace Pack

def ofText (s : String) : Pack := .text (utf8 s)

def text? : Pack → Option String
  | .text bs => ofUtf8? bs
  | .binary bs => ofUtf8? bs
  | _ => none

/-- What a name refers to: a name is text, bytes, or its position among the names. -/
def name? (names : List String) : Pack → Option (Option String)
  | .text bs => some (names.find? fun n => utf8 n == bs)
  | .binary bs => some (names.find? fun n => utf8 n == bs)
  | .unsigned i => some names[i]?
  | _ => none

instance : Output Pack where
  int := .int
  text := ofText
  list := .array
  dict es := .map (es.map fun (k, v) => (ofText k, v))
  nothing := .nil
  record es := .array (es.map (·.2))
  variant name
    | none => ofText name
    | some fields => .map [(ofText name, .array (fields.map (·.2)))]

structure Limited where
  pack : Pack
  room : Nat
  deriving Repr

namespace Limited

/-- The items of bytes. They are numbers, and no name is taken from them. -/
def numbers (bs : Bytes) (room : Nat) : List Limited :=
  bs.map fun b => { pack := .signed b.toNat, room }

/-- The member of a map that stands for a record; one under no name has to fit all the same. -/
def member? (names : List String) (room : Nat) (e : Pack × Pack) :
    Option (Option String × Limited) :=
  match name? names e.1 with
  | none => none
  | some none => if e.2.fits room then some (none, { pack := e.2, room }) else none
  | some (some k) => some (some k, { pack := e.2, room })

def keyed? (room : Nat) (e : Pack × Pack) : Option (String × Limited) :=
  (text? e.1).map fun k => (k, { pack := e.2, room })

/-- Bytes may stand for a list, and for a record, whose fields are then the first of them. The map
around a variant is no level. -/
instance : Input Limited where
  int? v :=
    match v.pack with
    | .unsigned n => some n
    | .signed i => some i
    | _ => none
  text? v := text? v.pack
  list?
    | { pack := .array ps, room := room + 1 } => some (ps.map fun p => { pack := p, room })
    | { pack := .binary bs, room } => some (numbers bs room)
    | _ => none
  dict?
    | { pack := .map es, room := room + 1 } => es.mapM (keyed? room)
    | _ => none
  isNothing v :=
    match v.pack with
    | .nil => true
    | _ => false
  record? names
    | { pack := .array ps, room := room + 1 } =>
        positional names (ps.map fun p => { pack := p, room })
    | { pack := .binary bs, room } => positional names (numbers (bs.take names.length) room)
    | { pack := .map es, room := room + 1 } => (es.mapM (member? names room)).bind (named names)
    | _ => none
  variant? names
    | { pack := .map [(k, v)], room } =>
        (name? names k).bind fun k => k.map fun k => (k, some { pack := v, room })
    | { pack := .map _, .. } => none
    | { pack := p, .. } => (name? names p).bind fun k => k.map fun k => (k, none)

end Limited

end Pack

end Coordination.Format
