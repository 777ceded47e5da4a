import Coordination.Node
import Coordination.Path

/-!
The namespace: nodes by path, and the number of the last committed batch. The operations do what
they are told on any tree; that the tree stays well formed rests on the checks made before.
-/

namespace Coordination

structure Tree where
  nodes : Dict String Node
  lastZxid : Zxid
  deriving DecidableEq

namespace Tree

def initial : Tree :=
  { nodes := Dict.empty.insert Path.root (Node.create [] 0 0 0), lastZxid := 0 }

def lookup (t : Tree) (p : String) : Option Node := t.nodes.get? p

def contains (t : Tree) (p : String) : Bool := (t.lookup p).isSome

def children? (t : Tree) (p : String) : Option (List String) := (t.lookup p).map Node.childNames

def size (t : Tree) : Nat := t.nodes.size

def modify (t : Tree) (p : String) (f : Node → Node) : Tree :=
  { t with nodes := t.nodes.modify p f }

def modifyParent (t : Tree) (p : String) (f : Node → Node) : Tree :=
  match Path.parent? p with
  | some q => t.modify q f
  | none => t

def insert (t : Tree) (p : String) (n : Node) (zxid : Zxid) : Tree :=
  let t := t.modifyParent p (·.link (Path.name p) zxid)
  { t with nodes := t.nodes.insert p n }

/-- An absent node is not unlinked either. -/
def remove (t : Tree) (p : String) (zxid : Zxid) : Tree :=
  if t.contains p then
    { t with nodes := t.nodes.erase p }.modifyParent p (·.unlink (Path.name p) zxid)
  else t

def setData (t : Tree) (p : String) (data : Bytes) (zxid : Zxid) (time : Time) : Tree :=
  t.modify p (·.setData data zxid time)

theorem lookup_modify (t : Tree) (p q : String) (f : Node → Node) :
    (t.modify p f).lookup q = if q = p then (t.lookup p).map f else t.lookup q :=
  Dict.get?_modify t.nodes p q f

theorem lookup_modifyParent (t : Tree) (p q : String) (f : Node → Node) :
    (t.modifyParent p f).lookup q =
      if some q = Path.parent? p then (t.lookup q).map f else t.lookup q := by
  unfold modifyParent
  cases h : Path.parent? p with
  | none => simp
  | some r =>
      simp only [lookup_modify, Option.some.injEq]
      split
      · subst q
        rfl
      · rfl

theorem lookup_insert (t : Tree) (p q : String) (n : Node) (zxid : Zxid) :
    (t.insert p n zxid).lookup q =
      if q = p then some n else (t.modifyParent p (·.link (Path.name p) zxid)).lookup q := by
  simp [insert, lookup, Dict.get?_insert]

theorem lookup_remove (t : Tree) (p q : String) (zxid : Zxid) :
    (t.remove p zxid).lookup q =
      if t.contains p then
        if some q = Path.parent? p then
          (if q = p then none else t.lookup q).map (·.unlink (Path.name p) zxid)
        else if q = p then none else t.lookup q
      else t.lookup q := by
  unfold remove
  split
  · simp only [lookup_modifyParent]
    simp only [lookup, Dict.get?_erase]
  · rfl

theorem lookup_setData (t : Tree) (p q : String) (data : Bytes) (zxid : Zxid) (time : Time) :
    (t.setData p data zxid time).lookup q =
      if q = p then (t.lookup p).map (·.setData data zxid time) else t.lookup q :=
  lookup_modify ..

theorem ext_lookup {t u : Tree} (h : ∀ p, t.lookup p = u.lookup p)
    (hz : t.lastZxid = u.lastZxid) : t = u := by
  cases t
  cases u
  simp only [lookup] at h hz
  simp [Dict.ext_get? h, hz]

end Tree

end Coordination
