import Coordination.Draft
import Coordination.Op

/-!
A batch checked against a tree: each operation against the draft that the ones before it leave.
The first refused operation rejects the batch; otherwise the plan lists what is to be changed and
what each operation answers.
-/

namespace Coordination

structure Stamp where
  zxid : Zxid
  time : Time
  session : SessionId
  deriving DecidableEq, Repr

inductive Edit where
  | create (path : String) (node : Node)
  | delete (path : String)
  | setData (path : String) (data : Bytes)
  deriving DecidableEq

structure Acceptance where
  draft : Draft
  edit? : Option Edit
  outcome : Outcome

structure Plan where
  stamp : Stamp
  edits : List Edit
  outcomes : List Outcome
  deriving DecidableEq

def Plan.isReadOnly (p : Plan) : Bool := p.edits.isEmpty

namespace Draft

/-- The path that a create makes. The text of a sequential create may end in a slash, because the
counter completes the last segment. -/
def target (d : Draft) (p : String) (mode : CreateMode) : Except Refusal String :=
  if mode.sequential then
    if Path.valid (p ++ "1") then
      match Path.parent? p with
      | none => .error .badArguments
      | some q =>
          match d.resolve q with
          | none => .error .noNode
          | some n => .ok (Path.numbered p n.stat.cversion)
    else .error .badArguments
  else if Path.valid p then .ok p
  else .error .badArguments

def acceptCreateAt (d : Draft) (s : Stamp) (p : String) (data : Bytes) (ephemeral : Bool) :
    Except Refusal Acceptance :=
  if d.isLive p then .error .nodeExists
  else
    match Path.parent? p with
    | none => .error .badArguments
    | some q =>
        if d.isLive q then
          let node := Node.create data s.zxid s.time (if ephemeral then s.session else 0)
          .ok {
            draft := d.create p node s.zxid
            edit? := some (.create p node)
            outcome := .created p node.stat }
        else .error .noNode

def acceptCreate (d : Draft) (s : Stamp) (p : String) (data : Bytes) (mode : CreateMode) :
    Except Refusal Acceptance :=
  match d.target p mode with
  | .error r => .error r
  | .ok p => d.acceptCreateAt s p data mode.ephemeral

/-- The root is never deleted, and a node with children not before them. -/
def acceptDelete (d : Draft) (s : Stamp) (p : String) (version : Version) :
    Except Refusal Acceptance :=
  if Path.valid p = false ∨ p = Path.root then .error .badArguments
  else
    match d.resolve p with
    | none => .error .noNode
    | some n =>
        if n.hasChildren then .error .notEmpty
        else if n.stat.admits version then
          .ok { draft := d.delete p s.zxid, edit? := some (.delete p), outcome := .deleted }
        else .error .badVersion

def expect (d : Draft) (p : String) (version : Version) : Except Refusal Node :=
  if Path.valid p then
    match d.resolve p with
    | none => .error .noNode
    | some n => if n.stat.admits version then .ok n else .error .badVersion
  else .error .badArguments

def acceptSetData (d : Draft) (s : Stamp) (p : String) (data : Bytes) (version : Version) :
    Except Refusal Acceptance :=
  match d.expect p version with
  | .error r => .error r
  | .ok _ =>
      match d.setData p data s.zxid s.time with
      | none => .error .noNode
      | some (stat, d) =>
          .ok { draft := d, edit? := some (.setData p data), outcome := .dataSet stat }

def acceptCheck (d : Draft) (p : String) (version : Version) : Except Refusal Acceptance :=
  match d.expect p version with
  | .error r => .error r
  | .ok _ => .ok { draft := d, edit? := none, outcome := .checked }

def accept (d : Draft) (s : Stamp) : Op → Except Refusal Acceptance
  | .create p data mode => d.acceptCreate s p data mode
  | .delete p version => d.acceptDelete s p version
  | .setData p data version => d.acceptSetData s p data version
  | .check p version => d.acceptCheck p version

def acceptAll (s : Stamp) (d : Draft) (index : Nat) : List Op → Except Rejection Plan
  | [] => .ok { stamp := s, edits := [], outcomes := [] }
  | op :: ops =>
      match d.accept s op with
      | .error cause => .error { index, path := op.path, cause }
      | .ok a =>
          match acceptAll s a.draft (index + 1) ops with
          | .error r => .error r
          | .ok plan =>
              .ok { plan with
                edits := a.edit?.toList ++ plan.edits
                outcomes := a.outcome :: plan.outcomes }

end Draft

def Tree.plan (t : Tree) (ops : List Op) (s : Stamp) : Except Rejection Plan :=
  (Draft.ofTree t).acceptAll s 0 ops

end Coordination
