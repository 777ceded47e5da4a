import Coordination.Proofs.View
import Mathlib.Data.Finset.Card

/-!
Changes staged on a draft and the same changes made to a copy of the tree, in the same order and
checked by nobody. Both show the same at every path, and the draft touches just the paths that are
written (`staging`). The one condition is that what is deleted lives: where it does not, a draft
unlinks it from its parent all the same, and a tree does nothing.
-/

namespace Coordination

namespace Tree

variable {t : Tree}

def applyAll (t : Tree) (es : List (Stamp × Edit)) : Tree := es.foldl (fun t e => e.2.apply e.1 t) t

/-- The paths that a change writes: a parent is written where it lives, and data where there is a
node to hold it. -/
def written (t : Tree) : Edit → List String
  | .create p _ | .delete p => p :: ((Path.parent? p).filter t.contains).toList
  | .setData p _ => if t.contains p then [p] else []

def writtenAll (t : Tree) : List (Stamp × Edit) → List String
  | [] => []
  | e :: es => t.written e.2 ++ (e.2.apply e.1 t).writtenAll es

theorem mem_written_withParent {p q : String} :
    q ∈ p :: ((Path.parent? p).filter t.contains).toList ↔
      q = p ∨ (Path.parent? p = some q ∧ t.contains q = true) := by
  simp [Option.mem_toList, Option.filter_eq_some_iff]

end Tree

namespace Draft

variable {d : Draft} {t : Tree} {s : Stamp} {e : Edit} {p q : String}

def stage (d : Draft) (s : Stamp) : Edit → Draft
  | .create p n => d.create p n s.zxid
  | .delete p => d.delete p s.zxid
  | .setData p data =>
      match d.setData p data s.zxid s.time with
      | some (_, d) => d
      | none => d

def stageAll (d : Draft) (es : List (Stamp × Edit)) : Draft :=
  es.foldl (fun d e => d.stage e.1 e.2) d

def DeletesLive (d : Draft) : List (Stamp × Edit) → Prop
  | [] => True
  | e :: es => (∀ p, e.2 = .delete p → d.isLive p = true) ∧ (d.stage e.1 e.2).DeletesLive es

theorem isLive_eq (hd : d.resolve = t.lookup) (p : String) : d.isLive p = t.contains p := by
  rw [isLive, hd, Tree.contains]

theorem setData_of_live {n : Node} (hn : d.resolve p = some n) (data : Bytes) (zxid : Zxid)
    (time : Time) :
    d.setData p data zxid time =
      some ((n.setData data zxid time).stat, d.put p (some (n.setData data zxid time))) := by
  rw [setData, hn]
  rfl

theorem setData_of_absent (hn : d.resolve p = none) (data : Bytes) (zxid : Zxid) (time : Time) :
    d.setData p data zxid time = none := by
  rw [setData, hn]
  rfl

theorem resolve_stage (s : Stamp) (hdelete : ∀ p, e = .delete p → d.isLive p = true) :
    (d.stage s e).resolve = View.edit s d.resolve e := by
  cases e with
  | create p n => exact resolve_create_eq d p n s.zxid
  | delete p =>
      have hlive : (d.resolve p).isSome = true := hdelete p rfl
      rw [View.edit, if_pos hlive]
      exact resolve_delete_eq d p s.zxid
  | setData p data =>
      cases hn : d.resolve p with
      | some n =>
          have hset := setData_of_live hn data s.zxid s.time
          simp only [stage, hset]
          exact resolve_setData_eq hset
      | none =>
          simp only [stage, setData_of_absent hn]
          funext q
          rw [View.edit_setData]
          split
          · subst q
            rw [hn, Option.map_none]
          · rfl

theorem resolve_stage_eq (hd : d.resolve = t.lookup)
    (hdelete : ∀ p, e = .delete p → d.isLive p = true) :
    (d.stage s e).resolve = (e.apply s t).lookup := by
  rw [resolve_stage s hdelete, hd, Tree.lookup_apply]

section Touched

def touches (d : Draft) (q : String) : Prop := d.touched.contains q = true

theorem touches_put {n : Option Node} : (d.put p n).touches q ↔ q = p ∨ d.touches q :=
  Dict.contains_insert

theorem touches_modify {f : Node → Node} :
    (d.modify p f).touches q ↔ (q = p ∧ d.isLive p = true) ∨ d.touches q := by
  unfold modify
  cases hn : d.resolve p with
  | some n => simp [touches_put, isLive, hn]
  | none => simp [isLive, hn]

theorem touches_modifyParent {f : Node → Node} :
    (d.modifyParent p f).touches q ↔
      (Path.parent? p = some q ∧ d.isLive q = true) ∨ d.touches q := by
  unfold modifyParent
  cases hr : Path.parent? p with
  | none => simp
  | some r =>
      simp only [touches_modify, Option.some.injEq]
      grind

theorem touches_stage (hd : d.resolve = t.lookup) (s : Stamp) (e : Edit) (q : String) :
    (d.stage s e).touches q ↔ q ∈ t.written e ∨ d.touches q := by
  cases e with
  | create p n =>
      rw [stage, create, touches_put, touches_modifyParent, isLive_eq hd, Tree.written,
        Tree.mem_written_withParent, or_assoc]
  | delete p =>
      -- the mark that the node is gone does not hide its parent
      have hparent : (Path.parent? p = some q ∧ (d.put p none).isLive q = true) ↔
          (Path.parent? p = some q ∧ t.contains q = true) := by
        refine and_congr_right fun hq => ?_
        rw [isLive, resolve_put, if_neg (Path.parent?_ne hq), hd, Tree.contains]
      rw [stage, delete, touches_modifyParent, hparent, touches_put, Tree.written,
        Tree.mem_written_withParent, or_left_comm, or_assoc]
  | setData p data =>
      rw [Tree.written, ← isLive_eq hd]
      cases hn : d.resolve p with
      | some n =>
          simp only [stage, setData_of_live hn, isLive, hn]
          rw [touches_put]
          simp
      | none => simp [stage, setData_of_absent hn, isLive, hn]

end Touched

theorem stageAll_spec {es : List (Stamp × Edit)} (hd : d.resolve = t.lookup)
    (h : d.DeletesLive es) :
    (d.stageAll es).resolve = (t.applyAll es).lookup ∧
      ∀ q, (d.stageAll es).touches q ↔ q ∈ t.writtenAll es ∨ d.touches q := by
  induction es generalizing d t with
  | nil => exact ⟨hd, fun q => by simp [stageAll, Tree.writtenAll]⟩
  | cons e es ih =>
      obtain ⟨hdelete, h⟩ := h
      obtain ⟨hresolve, htouches⟩ := ih (resolve_stage_eq hd hdelete) h
      refine ⟨hresolve, fun q => ?_⟩
      rw [Tree.writtenAll, List.mem_append, or_comm (a := q ∈ t.written e.2), or_assoc,
        ← touches_stage hd]
      exact htouches q

theorem size_eq {qs : List String} (h : ∀ q, d.touches q ↔ q ∈ qs) : d.size = qs.toFinset.card := by
  have hkeys : d.touched.keys.toFinset = qs.toFinset := by
    ext q
    rw [List.mem_toFinset, List.mem_toFinset, ← Dict.contains_iff_mem_keys]
    exact h q
  rw [← hkeys, List.toFinset_card_of_nodup d.touched.nodup_keys, Dict.keys, List.length_map]
  rfl

end Draft

theorem staging (t : Tree) (es : List (Stamp × Edit)) (h : (Draft.ofTree t).DeletesLive es) :
    (∀ p, ((Draft.ofTree t).stageAll es).resolve p = (t.applyAll es).lookup p) ∧
    (∀ p data zxid time,
      ((((Draft.ofTree t).stageAll es).setData p data zxid time).isSome = true ↔
        ((Draft.ofTree t).stageAll es).isLive p = true) ∧
      (((Draft.ofTree t).stageAll es).setData p data zxid time).map Prod.fst =
        (((t.applyAll es).setData p data zxid time).lookup p).map Node.stat) ∧
    ((Draft.ofTree t).stageAll es).size = (t.writtenAll es).toFinset.card := by
  obtain ⟨hresolve, htouches⟩ := Draft.stageAll_spec (Draft.resolve_ofTree_eq t) h
  refine ⟨congrFun hresolve, fun p data zxid time => ?_, Draft.size_eq fun q => ?_⟩
  · rw [Tree.lookup_setData, if_pos rfl, ← hresolve]
    cases hn : ((Draft.ofTree t).stageAll es).resolve p with
    | some n => simp [Draft.setData_of_live hn, Draft.isLive, hn]
    | none => simp [Draft.setData_of_absent hn, Draft.isLive, hn]
  · have hfresh : ¬(Draft.ofTree t).touches q := Bool.false_ne_true
    rw [htouches, or_iff_left hfresh]

theorem staging_orphan :
    let t : Tree := { nodes := Dict.empty.insert "/a" (Node.create [1] 1 10 0), lastZxid := 1 }
    let es : List (Stamp × Edit) :=
      [(⟨2, 20, 0⟩, .create "/a/b" (Node.create [] 2 20 0)), (⟨3, 30, 0⟩, .delete "/a"),
        (⟨4, 40, 0⟩, .create "/a/c" (Node.create [] 4 40 0)), (⟨5, 50, 0⟩, .setData "/a" [2])]
    (Draft.ofTree t).DeletesLive es ∧
      ((Draft.ofTree t).stageAll es).resolve "/a/c" = (t.applyAll es).lookup "/a/c" ∧
      ((Draft.ofTree t).stageAll es).setData "/a" [2] 6 60 = none ∧
      ((Draft.ofTree t).stageAll es).size = 3 := by
  intro t es
  have hlive : (Draft.ofTree t).DeletesLive es := by
    refine ⟨by simp, fun p hp => ?_, by simp, by simp, trivial⟩
    obtain rfl := Edit.delete.inj hp
    decide
  obtain ⟨hresolve, hset, hsize⟩ := staging t es hlive
  refine ⟨hlive, hresolve "/a/c", ?_, hsize.trans (by decide)⟩
  have hnone := mt (hset "/a" [2] 6 60).1.1 (by decide)
  simpa using hnone

end Coordination
