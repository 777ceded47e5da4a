import Coordination.Commit
import Coordination.Proofs.PathGrammar

/-!
What a tree or a draft shows at each path. Edits act on a tree only through its view
(`lookup_apply`), a draft answers an operation from what it shows on the operation's footprint
(`accept_congr`), and `accept_spec` says what an accepted operation needs, changes and answers.
-/

namespace Coordination

abbrev View := String → Option Node

namespace View

def put (v : View) (p : String) (n : Option Node) : View := fun q => if q = p then n else v q

def modify (v : View) (p : String) (f : Node → Node) : View :=
  fun q => if q = p then (v q).map f else v q

def modifyParent (v : View) (p : String) (f : Node → Node) : View :=
  fun q => if some q = Path.parent? p then (v q).map f else v q

/-- A deletion leaves the view alone where there is nothing to delete. -/
def edit (s : Stamp) (v : View) : Edit → View
  | .create p n => (v.modifyParent p (·.link (Path.name p) s.zxid)).put p (some n)
  | .delete p =>
      if (v p).isSome then (v.put p none).modifyParent p (·.unlink (Path.name p) s.zxid) else v
  | .setData p data => v.modify p (·.setData data s.zxid s.time)

def editAll (s : Stamp) (v : View) (es : List Edit) : View := es.foldl (edit s) v

@[simp] theorem editAll_nil (s : Stamp) (v : View) : v.editAll s [] = v := rfl

@[simp] theorem editAll_cons (s : Stamp) (v : View) (e : Edit) (es : List Edit) :
    v.editAll s (e :: es) = (v.edit s e).editAll s es := rfl

theorem editAll_append (s : Stamp) (v : View) (es fs : List Edit) :
    v.editAll s (es ++ fs) = (v.editAll s es).editAll s fs :=
  List.foldl_append

section Pointwise

variable {v : View} {s : Stamp} {p q : String} {n : Node}

theorem edit_create (r : String) (hq : Path.parent? p = some q) :
    v.edit s (.create p n) r =
      if r = p then some n
      else if r = q then (v q).map (·.link (Path.name p) s.zxid) else v r := by
  simp only [edit, put, modifyParent, hq, Option.some.injEq]
  by_cases hr : r = q
  · subst r
    simp
  · simp [hr]

theorem edit_delete (r : String) (hn : v p = some n) (hq : Path.parent? p = some q) :
    v.edit s (.delete p) r =
      if r = p then none
      else if r = q then (v q).map (·.unlink (Path.name p) s.zxid) else v r := by
  have hne := Path.parent?_ne hq
  simp only [edit, hn, Option.isSome_some, if_true, put, modifyParent, hq, Option.some.injEq]
  by_cases hr : r = q
  · subst r
    simp [hne]
  · simp [hr]

theorem edit_setData {data : Bytes} (r : String) :
    v.edit s (.setData p data) r =
      if r = p then (v p).map (·.setData data s.zxid s.time) else v r := by
  simp only [edit, modify]
  by_cases hr : r = p
  · rw [if_pos hr, if_pos hr, hr]
  · rw [if_neg hr, if_neg hr]

end Pointwise

inductive Names (v : View) (r : String) (mode : CreateMode) : String → Prop
  | requested : mode.sequential = false → Path.valid r = true → Names v r mode r
  | numbered {q : String} {parent : Node} :
      mode.sequential = true → Path.valid (r ++ "1") = true → Path.parent? r = some q →
      v q = some parent → Names v r mode (Path.numbered r parent.stat.cversion)

/-- When a view admits an operation, and what is then edited and answered. -/
inductive Admits (s : Stamp) (v : View) : Op → Option Edit → Outcome → Prop
  | create {r p q : String} {data : Bytes} {mode : CreateMode} {n parent : Node} :
      v.Names r mode p → Path.valid p = true → v p = none →
      Path.parent? p = some q → v q = some parent →
      n = Node.create data s.zxid s.time (if mode.ephemeral then s.session else 0) →
      Admits s v (.create r data mode) (some (.create p n)) (.created p n.stat)
  | delete {p : String} {version : Version} {n : Node} :
      Path.valid p = true → p ≠ Path.root → v p = some n → n.hasChildren = false →
      n.stat.admits version = true →
      Admits s v (.delete p version) (some (.delete p)) .deleted
  | setData {p : String} {data : Bytes} {version : Version} {n : Node} :
      Path.valid p = true → v p = some n → n.stat.admits version = true →
      Admits s v (.setData p data version) (some (.setData p data))
        (.dataSet (n.setData data s.zxid s.time).stat)
  | check {p : String} {version : Version} {n : Node} :
      Path.valid p = true → v p = some n → n.stat.admits version = true →
      Admits s v (.check p version) none .checked

end View

/-- The footprint of an operation. The name of a sequential node is not known beforehand, so that
any child of its parent may be looked at. -/
inductive Op.Touches : Op → String → Prop
  | self (op : Op) : Touches op op.path
  | parent {op : Op} {q : String} : Path.parent? op.path = some q → Touches op q
  | sibling {r p q : String} {data : Bytes} {mode : CreateMode} :
      mode.sequential = true → Path.parent? r = some q → Path.parent? p = some q →
      Touches (.create r data mode) p

namespace View.Names

variable {v : View} {r p q : String} {mode : CreateMode}

theorem touches (h : v.Names r mode p) (data : Bytes) : (Op.create r data mode).Touches p := by
  cases h with
  | requested _ _ => exact .self _
  | numbered hm _ hq _ => exact .sibling hm hq (Path.parent?_numbered hq _)

theorem touches_parent (h : v.Names r mode p) (data : Bytes) (hq : Path.parent? p = some q) :
    (Op.create r data mode).Touches q := by
  cases h with
  | requested _ _ => exact .parent hq
  | numbered _ _ hr _ =>
      obtain rfl : _ = q := Option.some.inj ((Path.parent?_numbered hr _).symm.trans hq)
      exact .parent hr

end View.Names

namespace Tree

theorem lookup_apply (s : Stamp) (t : Tree) (e : Edit) :
    (e.apply s t).lookup = View.edit s t.lookup e := by
  funext q
  cases e with
  | create p n =>
      simp only [Edit.apply, lookup_insert, lookup_modifyParent, View.edit, View.put,
        View.modifyParent]
  | delete p =>
      rw [Edit.apply, lookup_remove, contains, View.edit]
      by_cases hp : (t.lookup p).isSome = true
      · rw [if_pos hp, if_pos hp]
        rfl
      · rw [if_neg hp, if_neg hp]
  | setData p data =>
      simp only [Edit.apply, lookup_setData, View.edit, View.modify]
      split
      · subst q
        rfl
      · rfl

theorem lookup_applyAll (s : Stamp) (t : Tree) (es : List Edit) :
    (es.foldl (Edit.apply s) t).lookup = View.editAll s t.lookup es := by
  induction es generalizing t with
  | nil => rfl
  | cons e es ih => rw [List.foldl_cons, ih, lookup_apply, View.editAll_cons]

theorem lookup_commit (t : Tree) (plan : Plan) :
    (t.commit plan).tree.lookup = View.editAll plan.stamp t.lookup plan.edits :=
  lookup_applyAll plan.stamp t plan.edits

@[simp] theorem lastZxid_commit (t : Tree) (plan : Plan) :
    (t.commit plan).tree.lastZxid = plan.stamp.zxid := rfl

end Tree

namespace Draft

variable {d d' : Draft} {s : Stamp} {op : Op} {a : Acceptance}

theorem resolve_ofTree_eq (t : Tree) : (ofTree t).resolve = t.lookup := rfl

theorem resolve_create_eq (d : Draft) (p : String) (n : Node) (zxid : Zxid) :
    (d.create p n zxid).resolve =
      (View.modifyParent d.resolve p (·.link (Path.name p) zxid)).put p (some n) := by
  funext q
  simp only [resolve_create, resolve_modifyParent, View.put, View.modifyParent]

theorem resolve_delete_eq (d : Draft) (p : String) (zxid : Zxid) :
    (d.delete p zxid).resolve =
      (View.put d.resolve p none).modifyParent p (·.unlink (Path.name p) zxid) := by
  funext q
  simp only [resolve_delete, View.put, View.modifyParent]

theorem resolve_setData_eq {p : String} {data : Bytes} {zxid : Zxid} {time : Time} {stat : Stat}
    (h : d.setData p data zxid time = some (stat, d')) :
    d'.resolve = View.modify d.resolve p (·.setData data zxid time) := by
  funext q
  rw [resolve_setData h, View.modify]
  split
  · subst q
    rfl
  · rfl

theorem target_ok {r p : String} {mode : CreateMode} (h : d.target r mode = .ok p) :
    View.Names d.resolve r mode p ∧ Path.valid p = true := by
  unfold target at h
  split at h <;> rename_i hm
  · split at h <;> rename_i hv
    · split at h
      · simp at h
      · rename_i q hq
        split at h
        · simp at h
        · rename_i n hn
          simp only [Except.ok.injEq] at h
          exact h ▸ ⟨.numbered hm hv hq hn, Path.valid_numbered hv _⟩
    · simp at h
  · split at h <;> rename_i hv
    · simp only [Except.ok.injEq] at h
      exact h ▸ ⟨.requested (by simpa using hm) hv, hv⟩
    · simp at h

theorem expect_ok {p : String} {version : Version} {n : Node}
    (h : d.expect p version = .ok n) :
    Path.valid p = true ∧ d.resolve p = some n ∧ n.stat.admits version = true := by
  unfold expect at h
  split at h <;> rename_i hv
  · split at h
    · simp at h
    · rename_i m hm
      split at h <;> rename_i ha
      · simp only [Except.ok.injEq] at h
        subst h
        exact ⟨hv, hm, ha⟩
      · simp at h
  · simp at h

theorem acceptCreate_spec {r : String} {data : Bytes} {mode : CreateMode}
    (h : d.acceptCreate s r data mode = .ok a) :
    View.Admits s d.resolve (.create r data mode) a.edit? a.outcome ∧
      a.draft.resolve = View.editAll s d.resolve a.edit?.toList := by
  unfold acceptCreate at h
  split at h
  · simp at h
  · rename_i p hp
    obtain ⟨hnames, hv⟩ := target_ok hp
    unfold acceptCreateAt at h
    split at h <;> rename_i hlive
    · simp at h
    · split at h
      · simp at h
      · rename_i q hq
        split at h <;> rename_i hparent
        · simp only [Except.ok.injEq] at h
          subst h
          obtain ⟨parent, hparent⟩ := Option.isSome_iff_exists.1 hparent
          have hp : d.resolve p = none := by simpa [isLive] using hlive
          exact ⟨.create hnames hv hp hq hparent rfl, resolve_create_eq ..⟩
        · simp at h

theorem acceptDelete_spec {p : String} {version : Version}
    (h : d.acceptDelete s p version = .ok a) :
    View.Admits s d.resolve (.delete p version) a.edit? a.outcome ∧
      a.draft.resolve = View.editAll s d.resolve a.edit?.toList := by
  unfold acceptDelete at h
  split at h <;> rename_i hv
  · simp at h
  · obtain ⟨hv, hr⟩ := not_or.1 hv
    split at h
    · simp at h
    · rename_i n hn
      split at h <;> rename_i hc
      · simp at h
      · split at h <;> rename_i ha
        · simp only [Except.ok.injEq] at h
          subst h
          refine ⟨.delete (by simpa using hv) hr hn (by simpa using hc) ha, ?_⟩
          simp [View.edit, hn, resolve_delete_eq]
        · simp at h

theorem acceptSetData_spec {p : String} {data : Bytes} {version : Version}
    (h : d.acceptSetData s p data version = .ok a) :
    View.Admits s d.resolve (.setData p data version) a.edit? a.outcome ∧
      a.draft.resolve = View.editAll s d.resolve a.edit?.toList := by
  unfold acceptSetData at h
  split at h
  · simp at h
  · rename_i n hexp
    obtain ⟨hv, hn, ha⟩ := expect_ok hexp
    split at h
    · simp at h
    · rename_i stat d' hset
      simp only [Except.ok.injEq] at h
      subst h
      have hstat : stat = (n.setData data s.zxid s.time).stat := by
        simp only [setData, hn, Option.map_some, Option.some.injEq, Prod.mk.injEq] at hset
        exact hset.1.symm
      exact ⟨hstat ▸ .setData hv hn ha, resolve_setData_eq hset⟩

theorem acceptCheck_spec {p : String} {version : Version}
    (h : d.acceptCheck p version = .ok a) :
    View.Admits s d.resolve (.check p version) a.edit? a.outcome ∧
      a.draft.resolve = View.editAll s d.resolve a.edit?.toList := by
  unfold acceptCheck at h
  split at h
  · simp at h
  · rename_i n hexp
    obtain ⟨hv, hn, ha⟩ := expect_ok hexp
    simp only [Except.ok.injEq] at h
    subst h
    exact ⟨.check hv hn ha, rfl⟩

theorem accept_spec (h : d.accept s op = .ok a) :
    View.Admits s d.resolve op a.edit? a.outcome ∧
      a.draft.resolve = View.editAll s d.resolve a.edit?.toList := by
  cases op with
  | create r data mode => exact acceptCreate_spec h
  | delete p version => exact acceptDelete_spec h
  | setData p data version => exact acceptSetData_spec h
  | check p version => exact acceptCheck_spec h

def answer (a : Acceptance) : Option Edit × Outcome := (a.edit?, a.outcome)

theorem target_congr {r : String} {data : Bytes} {mode : CreateMode}
    (h : ∀ p, (Op.create r data mode).Touches p → d.resolve p = d'.resolve p) :
    d.target r mode = d'.target r mode := by
  simp only [target]
  cases hq : Path.parent? r with
  | none => rfl
  | some q => simp only [h q (.parent hq)]

theorem isLive_congr {p : String} (h : d.resolve p = d'.resolve p) : d.isLive p = d'.isLive p := by
  rw [isLive, h, isLive]

theorem expect_congr {p : String} (h : d.resolve p = d'.resolve p) (version : Version) :
    d.expect p version = d'.expect p version := by
  rw [expect, h, expect]

theorem acceptCreateAt_congr {p : String} (hp : d.resolve p = d'.resolve p)
    (hparent : ∀ q, Path.parent? p = some q → d.resolve q = d'.resolve q) (s : Stamp)
    (data : Bytes) (ephemeral : Bool) :
    (d.acceptCreateAt s p data ephemeral).map answer =
      (d'.acceptCreateAt s p data ephemeral).map answer := by
  simp only [acceptCreateAt, isLive_congr hp]
  cases d'.isLive p with
  | true => rfl
  | false =>
      cases hq : Path.parent? p with
      | none => rfl
      | some q =>
          simp only [isLive_congr (hparent q hq)]
          cases d'.isLive q with
          | false => simp
          | true =>
              simp only [if_true]
              rfl

theorem acceptDelete_congr {p : String} (h : d.resolve p = d'.resolve p) (s : Stamp)
    (version : Version) :
    (d.acceptDelete s p version).map answer = (d'.acceptDelete s p version).map answer := by
  simp only [acceptDelete, h]
  by_cases hv : Path.valid p = false ∨ p = Path.root
  · rw [if_pos hv, if_pos hv]
  · rw [if_neg hv, if_neg hv]
    cases d'.resolve p with
    | none => rfl
    | some n =>
        simp only [apply_ite (Except.map answer)]
        rfl

theorem accept_congr (h : ∀ p, op.Touches p → d.resolve p = d'.resolve p) (s : Stamp) :
    (d.accept s op).map answer = (d'.accept s op).map answer := by
  cases op with
  | create r data mode =>
      simp only [accept, acceptCreate, target_congr h]
      cases ht : d'.target r mode with
      | error cause => rfl
      | ok p =>
          have hnames := (target_ok ht).1
          exact acceptCreateAt_congr (h p (hnames.touches data))
            (fun q hq => h q (hnames.touches_parent data hq)) s data mode.ephemeral
  | delete p version => exact acceptDelete_congr (h p (.self _)) s version
  | setData p data version =>
      have hp : d.resolve p = d'.resolve p := h p (.self _)
      simp only [accept, acceptSetData, expect_congr hp, setData, hp]
      cases d'.expect p version with
      | error cause => rfl
      | ok n => cases d'.resolve p <;> rfl
  | check p version =>
      simp only [accept, acceptCheck, expect_congr (h p (.self _))]
      cases d'.expect p version <;> rfl

theorem accept_error_congr {cause : Refusal}
    (h : ∀ p, op.Touches p → d.resolve p = d'.resolve p)
    (hd : d.accept s op = .error cause) : d'.accept s op = .error cause := by
  have hc := accept_congr h s
  rw [hd] at hc
  cases hd' : d'.accept s op with
  | error c =>
      rw [hd'] at hc
      simpa [Except.map] using hc.symm
  | ok b => simp [hd', Except.map] at hc

theorem accept_ok_congr (h : ∀ p, op.Touches p → d.resolve p = d'.resolve p)
    (hd : d.accept s op = .ok a) :
    ∃ b, d'.accept s op = .ok b ∧ b.edit? = a.edit? ∧ b.outcome = a.outcome := by
  have hc := accept_congr h s
  rw [hd] at hc
  cases hd' : d'.accept s op with
  | error c => simp [hd', Except.map] at hc
  | ok b =>
      simp only [hd', Except.map, answer, Except.ok.injEq, Prod.mk.injEq] at hc
      exact ⟨b, rfl, hc.1.symm, hc.2.symm⟩

end Draft

end Coordination
