import Coordination.Tree

namespace Coordination

structure Draft where
  base : Tree
  /-- What touched paths now hold; nothing where the node has been deleted. -/
  touched : Dict String (Option Node)

namespace Draft

def ofTree (t : Tree) : Draft := { base := t, touched := .empty }

def resolve (d : Draft) (p : String) : Option Node :=
  match d.touched.get? p with
  | some n => n
  | none => d.base.lookup p

def isLive (d : Draft) (p : String) : Bool := (d.resolve p).isSome

def size (d : Draft) : Nat := d.touched.size

def put (d : Draft) (p : String) (n : Option Node) : Draft :=
  { d with touched := d.touched.insert p n }

def modify (d : Draft) (p : String) (f : Node → Node) : Draft :=
  match d.resolve p with
  | some n => d.put p (some (f n))
  | none => d

def modifyParent (d : Draft) (p : String) (f : Node → Node) : Draft :=
  match Path.parent? p with
  | some q => d.modify q f
  | none => d

def create (d : Draft) (p : String) (n : Node) (zxid : Zxid) : Draft :=
  (d.modifyParent p (·.link (Path.name p) zxid)).put p (some n)

def delete (d : Draft) (p : String) (zxid : Zxid) : Draft :=
  (d.put p none).modifyParent p (·.unlink (Path.name p) zxid)

def setData (d : Draft) (p : String) (data : Bytes) (zxid : Zxid) (time : Time) :
    Option (Stat × Draft) :=
  (d.resolve p).map fun n =>
    let n := n.setData data zxid time
    (n.stat, d.put p (some n))

@[simp] theorem resolve_ofTree (t : Tree) (p : String) : (ofTree t).resolve p = t.lookup p := rfl

theorem resolve_put (d : Draft) (p q : String) (n : Option Node) :
    (d.put p n).resolve q = if q = p then n else d.resolve q := by
  by_cases h : q = p <;> simp [resolve, put, Dict.get?_insert, h]

theorem resolve_modify (d : Draft) (p q : String) (f : Node → Node) :
    (d.modify p f).resolve q = if q = p then (d.resolve p).map f else d.resolve q := by
  unfold modify
  cases h : d.resolve p with
  | none =>
      by_cases hq : q = p
      · simp [hq, h]
      · simp [hq]
  | some n => simp [resolve_put]

theorem resolve_modifyParent (d : Draft) (p q : String) (f : Node → Node) :
    (d.modifyParent p f).resolve q =
      if some q = Path.parent? p then (d.resolve q).map f else d.resolve q := by
  unfold modifyParent
  cases h : Path.parent? p with
  | none => simp
  | some r =>
      simp only [resolve_modify, Option.some.injEq]
      split
      · subst q
        rfl
      · rfl

theorem resolve_create (d : Draft) (p q : String) (n : Node) (zxid : Zxid) :
    (d.create p n zxid).resolve q =
      if q = p then some n else (d.modifyParent p (·.link (Path.name p) zxid)).resolve q :=
  resolve_put ..

theorem resolve_delete (d : Draft) (p q : String) (zxid : Zxid) :
    (d.delete p zxid).resolve q =
      if some q = Path.parent? p then
        (if q = p then none else d.resolve q).map (·.unlink (Path.name p) zxid)
      else if q = p then none else d.resolve q := by
  simp [delete, resolve_modifyParent, resolve_put]

theorem resolve_setData {d e : Draft} {p : String} {data : Bytes} {zxid : Zxid} {time : Time}
    {stat : Stat} (h : d.setData p data zxid time = some (stat, e)) (q : String) :
    e.resolve q = if q = p then (d.resolve p).map (·.setData data zxid time) else d.resolve q := by
  unfold setData at h
  cases hn : d.resolve p with
  | none => simp [hn] at h
  | some n =>
      simp only [hn, Option.map_some, Option.some.injEq, Prod.mk.injEq] at h
      rw [← h.2, resolve_put]
      rfl

end Draft

end Coordination
