import Coordination.Numeral

/-!
Paths of nodes. A path is `/`, or a sequence of segments with a slash before each; `flaw?` says
what keeps a text from being one. `parent?` and `name` take the last segment off, `child` puts
one on, and `numbered` makes the name of a sequential node.
-/

namespace Coordination.Path

def root : String := "/"

inductive Flaw where
  | empty
  | relative
  | trailingSlash
  | nul
  | emptySegment
  | dotSegment
  deriving DecidableEq, Repr

def Flaw.reason : Flaw → String
  | .empty => "empty"
  | .relative => "must start with '/'"
  | .trailingSlash => "must not end with '/'"
  | .nul => "contains NUL"
  | .emptySegment => "empty segment"
  | .dotSegment => "relative segment"

def segments : List Char → List (List Char)
  | [] => [[]]
  | c :: cs =>
      if c = '/' then [] :: segments cs
      else
        match segments cs with
        | [] => [[c]]
        | s :: ss => (c :: s) :: ss

def segmentFlaw? (s : List Char) : Option Flaw :=
  if s = [] then some .emptySegment
  else if s = ['.'] ∨ s = ['.', '.'] then some .dotSegment
  else none

/-- The first flaw of a text, the whole looked at before its segments; none in a path. -/
def flaw? (p : String) : Option Flaw :=
  match p.toList with
  | [] => some .empty
  | c :: cs =>
      if c ≠ '/' then some .relative
      else if cs = [] then none
      else if cs.getLast? = some '/' then some .trailingSlash
      else if Char.ofNat 0 ∈ cs then some .nul
      else (segments cs).findSome? segmentFlaw?

def valid (p : String) : Bool := (flaw? p).isNone

def beforeSlash? (cs : List Char) : Option (List Char) :=
  match cs.reverse.dropWhile (· ≠ '/') with
  | [] => none
  | _ :: r => some r.reverse

def afterSlash (cs : List Char) : List Char :=
  (cs.reverse.takeWhile (· ≠ '/')).reverse

/-- The root has no parent, nor has a text without a slash. -/
def parent? (p : String) : Option String :=
  if p = root then none
  else
    match beforeSlash? p.toList with
    | none => none
    | some [] => some root
    | some cs => some (String.ofList cs)

def name (p : String) : String := String.ofList (afterSlash p.toList)

def child (p c : String) : String :=
  if p = root then "/" ++ c else p ++ "/" ++ c

def numbered (p : String) (counter : Int) : String :=
  p ++ String.ofList (Numeral.padded 10 counter)

end Coordination.Path
