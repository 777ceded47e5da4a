import Coordination.Proofs.Stepwise

/-!
The events of a batch cover all that it changes (`change_set`). Where a path has no event its node
is the same in every field; an event for the children of a node leaves the rest of it alone, and the
other way round. Nothing is reported beside the paths that the batch edits and their parents.
-/

namespace Coordination

namespace Node

structure SameData (n m : Node) : Prop where
  data : m.data = n.data
  version : m.stat.version = n.stat.version
  czxid : m.stat.czxid = n.stat.czxid
  mzxid : m.stat.mzxid = n.stat.mzxid
  ctime : m.stat.ctime = n.stat.ctime
  mtime : m.stat.mtime = n.stat.mtime
  owner : m.stat.owner = n.stat.owner
  dataLength : m.stat.dataLength = n.stat.dataLength

structure SameChildren (n m : Node) : Prop where
  czxid : m.stat.czxid = n.stat.czxid
  children : m.children = n.children
  numChildren : m.stat.numChildren = n.stat.numChildren
  cversion : m.stat.cversion = n.stat.cversion
  pzxid : m.stat.pzxid = n.stat.pzxid

variable {n m k : Node}

theorem SameData.refl (n : Node) : n.SameData n := ⟨rfl, rfl, rfl, rfl, rfl, rfl, rfl, rfl⟩

theorem SameData.trans (h : n.SameData m) (h' : m.SameData k) : n.SameData k where
  data := h'.data.trans h.data
  version := h'.version.trans h.version
  czxid := h'.czxid.trans h.czxid
  mzxid := h'.mzxid.trans h.mzxid
  ctime := h'.ctime.trans h.ctime
  mtime := h'.mtime.trans h.mtime
  owner := h'.owner.trans h.owner
  dataLength := h'.dataLength.trans h.dataLength

theorem SameChildren.refl (n : Node) : n.SameChildren n := ⟨rfl, rfl, rfl, rfl, rfl⟩

theorem SameChildren.trans (h : n.SameChildren m) (h' : m.SameChildren k) : n.SameChildren k where
  czxid := h'.czxid.trans h.czxid
  children := h'.children.trans h.children
  numChildren := h'.numChildren.trans h.numChildren
  cversion := h'.cversion.trans h.cversion
  pzxid := h'.pzxid.trans h.pzxid

theorem sameData_withChildren (n : Node) (children : Dict String Unit) (zxid : Zxid) :
    n.SameData (n.withChildren children zxid) := ⟨rfl, rfl, rfl, rfl, rfl, rfl, rfl, rfl⟩

theorem sameChildren_setData (n : Node) (data : Bytes) (zxid : Zxid) (time : Time) :
    n.SameChildren (n.setData data zxid time) := ⟨rfl, rfl, rfl, rfl, rfl⟩

abbrev Kept : Option Node → Option Node → Prop := Option.Rel SameData

theorem kept_refl (x : Option Node) : Kept x x := by
  cases x with
  | none => exact .none
  | some n => exact .some (.refl n)

theorem Kept.trans {x y z : Option Node} (h : Kept x y) (h' : Kept y z) : Kept x z := by
  cases h with
  | none => exact h'
  | some hxy =>
      cases h' with
      | some hyz => exact .some (hxy.trans hyz)

theorem kept_map {f : Node → Node} (hf : ∀ n : Node, n.SameData (f n)) (x : Option Node) :
    Kept x (x.map f) := by
  cases x with
  | none => exact .none
  | some n => exact .some (hf n)

end Node

namespace View

/-- What the events rule out at a path has not happened there between two views. -/
structure Covers (es : List Event) (p : String) (u v : View) : Prop where
  entry : (∀ kind, ⟨p, kind⟩ ∉ es) → v p = u p
  data : ⟨p, .created⟩ ∉ es → ⟨p, .deleted⟩ ∉ es → ⟨p, .dataChanged⟩ ∉ es →
    Node.Kept (u p) (v p)
  children : ⟨p, .deleted⟩ ∉ es → ⟨p, .childrenChanged⟩ ∉ es →
    ∀ n, u p = some n → ∃ m, v p = some m ∧ n.SameChildren m

variable {es fs : List Event} {p q r : String} {u v w : View} {s : Stamp} {n : Node}

theorem Covers.of_eq (h : v p = u p) : Covers es p u v where
  entry := fun _ => h
  data := fun _ _ _ => h ▸ Node.kept_refl (u p)
  children := fun _ _ n hn => ⟨n, h.trans hn, .refl n⟩

theorem Covers.append (h : Covers es p u v) (h' : Covers fs p v w) : Covers (es ++ fs) p u w := by
  have hleft : ∀ {kind}, ⟨p, kind⟩ ∉ es ++ fs → ⟨p, kind⟩ ∉ es := mt (List.mem_append_left fs)
  have hright : ∀ {kind}, ⟨p, kind⟩ ∉ es ++ fs → ⟨p, kind⟩ ∉ fs := mt (List.mem_append_right es)
  constructor
  · intro hno
    exact (h'.entry fun kind => hright (hno kind)).trans (h.entry fun kind => hleft (hno kind))
  · intro hc hd hs
    exact (h.data (hleft hc) (hleft hd) (hleft hs)).trans
      (h'.data (hright hc) (hright hd) (hright hs))
  · intro hd hc n hn
    obtain ⟨m, hm, hnm⟩ := h.children (hleft hd) (hleft hc) n hn
    obtain ⟨k, hk, hmk⟩ := h'.children (hright hd) (hright hc) m hm
    exact ⟨k, hk, hnm.trans hmk⟩

/-- A path comes or goes, its parent keeps all but its children, and nothing else changes. -/
theorem covers_withParent {kind : EventKind} {f : Node → Node} (hq : Path.parent? p = some q)
    (hkind : kind = .created ∧ v p = none ∨ kind = .deleted) (hf : ∀ n : Node, n.SameData (f n))
    (hparent : w q = (v q).map f) (hrest : ∀ r, r ≠ p → r ≠ q → w r = v r) (r : String) :
    Covers (Event.withParent p kind) r v w := by
  have hevents : Event.withParent p kind = [⟨p, kind⟩, ⟨q, .childrenChanged⟩] := by
    simp [Event.withParent, hq]
  rw [hevents]
  by_cases hrp : r = p
  · subst r
    rcases hkind with ⟨rfl, hp⟩ | rfl
    · refine ⟨fun h => absurd (h .created) (by simp), fun h => absurd h (by simp), ?_⟩
      intro _ _ m hm
      rw [hp] at hm
      cases hm
    · exact ⟨fun h => absurd (h .deleted) (by simp), fun _ h => absurd h (by simp),
        fun h => absurd h (by simp)⟩
  · by_cases hrq : r = q
    · subst r
      refine ⟨fun h => absurd (h .childrenChanged) (by simp), fun _ _ _ => ?_,
        fun _ h => absurd h (by simp)⟩
      rw [hparent]
      exact Node.kept_map hf (v q)
    · exact .of_eq (hrest r hrp hrq)

theorem covers_create (hp : v p = none) (hq : Path.parent? p = some q) (r : String) :
    Covers (Event.ofCreate p) r v (v.edit s (.create p n)) := by
  refine covers_withParent (f := (·.link (Path.name p) s.zxid)) hq (.inl ⟨rfl, hp⟩)
    (fun m => m.sameData_withChildren _ _) ?_ ?_ r
  · rw [edit_create q hq, if_neg (Path.parent?_ne hq), if_pos rfl]
  · intro r hrp hrq
    rw [edit_create r hq, if_neg hrp, if_neg hrq]

theorem covers_delete (hn : v p = some n) (hq : Path.parent? p = some q) (r : String) :
    Covers (Event.ofDelete p) r v (v.edit s (.delete p)) := by
  refine covers_withParent (f := (·.unlink (Path.name p) s.zxid)) hq (.inr rfl)
    (fun m => m.sameData_withChildren _ _) ?_ ?_ r
  · rw [edit_delete q hn hq, if_neg (Path.parent?_ne hq), if_pos rfl]
  · intro r hrp hrq
    rw [edit_delete r hn hq, if_neg hrp, if_neg hrq]

theorem covers_setData {data : Bytes} (p r : String) (v : View) :
    Covers (Event.ofSetData p) r v (v.edit s (.setData p data)) := by
  by_cases hrp : r = p
  · subst r
    refine ⟨fun h => absurd (h .dataChanged) (by simp [Event.ofSetData]),
      fun _ _ h => absurd h (by simp [Event.ofSetData]), fun _ _ n hn => ?_⟩
    rw [edit_setData, if_pos rfl, hn]
    exact ⟨_, rfl, n.sameChildren_setData _ _ _⟩
  · apply Covers.of_eq
    rw [edit_setData, if_neg hrp]

theorem Admits.covers {op : Op} {e? : Option Edit} {o : Outcome} (h : Admits s v op e? o)
    (r : String) : Covers (e?.toList.flatMap Edit.events) r v (v.editAll s e?.toList) := by
  cases h with
  | create _ _ hp hq _ _ =>
      rw [Option.toList_some, List.flatMap_singleton]
      exact covers_create hp hq r
  | delete hv hroot hn _ _ =>
      obtain ⟨q, hq⟩ := Path.exists_parent? hv hroot
      rw [Option.toList_some, List.flatMap_singleton]
      exact covers_delete hn hq r
  | setData _ _ _ =>
      rw [Option.toList_some, List.flatMap_singleton]
      exact covers_setData _ r v
  | check _ _ _ => exact .of_eq rfl

end View

namespace Tree

variable {p : String} {s : Stamp} {t u : Tree} {ops : List Op} {cs : List Commit} {plan : Plan}

theorem covers_stepwise (h : Stepwise s t ops cs u) (p : String) :
    View.Covers (cs.flatMap Commit.events) p t.lookup u.lookup := by
  induction h with
  | nil => exact .of_eq rfl
  | cons hplan _ ih =>
      obtain ⟨x, o, hadm, rfl, hlook⟩ := Draft.admits_of_plan hplan
      have hstep := hadm.covers p
      rw [← hlook] at hstep
      exact hstep.append ih

theorem covers_commit (h : t.plan ops s = .ok plan) (p : String) :
    View.Covers (t.commit plan).events p t.lookup (t.commit plan).tree.lookup := by
  obtain ⟨cs, u, hsteps, -, hevents, htree⟩ := Stepwise.exists_commits h
  have hcovers := covers_stepwise hsteps p
  rw [hevents, htree]
  exact hcovers

end Tree

section Reported

variable {e : Event} {x : Edit} {v : View} {s : Stamp} {op : Op} {o : Outcome}

theorem Event.of_mem_withParent {p : String} {kind : EventKind} (h : e ∈ withParent p kind) :
    e = ⟨p, kind⟩ ∨ e.kind = .childrenChanged ∧ Path.parent? p = some e.path := by
  rcases List.mem_cons.1 h with rfl | h
  · exact .inl rfl
  · obtain ⟨q, hq, rfl⟩ := Option.map_eq_some_iff.1 (Option.mem_toList.1 h)
    exact .inr ⟨rfl, hq⟩

theorem Event.valid_of_mem_withParent {p : String} {kind : EventKind} (hp : Path.valid p = true)
    (h : e ∈ withParent p kind) : Path.valid e.path = true := by
  rcases of_mem_withParent h with rfl | ⟨-, hq⟩
  · exact hp
  · exact Path.valid_parent? hp hq

theorem View.Admits.valid_event (h : v.Admits s op (some x) o) (he : e ∈ x.events) :
    Path.valid e.path = true := by
  cases h with
  | create _ hp _ _ _ _ => exact Event.valid_of_mem_withParent hp he
  | delete hp _ _ _ _ => exact Event.valid_of_mem_withParent hp he
  | setData hp _ _ =>
      obtain rfl := List.mem_singleton.1 he
      exact hp

theorem Edit.exists_cause (he : e ∈ x.events) (hk : e.kind = .childrenChanged) :
    ∃ c ∈ x.events, (c.kind = .created ∨ c.kind = .deleted) ∧
      Path.parent? c.path = some e.path := by
  cases x with
  | create p n =>
      rcases Event.of_mem_withParent he with rfl | ⟨-, hq⟩
      · cases hk
      · exact ⟨⟨p, .created⟩, List.mem_cons_self, .inl rfl, hq⟩
  | delete p =>
      rcases Event.of_mem_withParent he with rfl | ⟨-, hq⟩
      · cases hk
      · exact ⟨⟨p, .deleted⟩, List.mem_cons_self, .inr rfl, hq⟩
  | setData p data =>
      obtain rfl := List.mem_singleton.1 he
      cases hk

end Reported

theorem Tree.change_set {t : Tree} {ops : List Op} {s : Stamp} {plan : Plan}
    (h : t.plan ops s = .ok plan) :
    let c := t.commit plan
    (∀ p, (∀ e ∈ c.events, e.path ≠ p) → c.tree.lookup p = t.lookup p) ∧
    (∀ p, ⟨p, .created⟩ ∉ c.events → ⟨p, .deleted⟩ ∉ c.events → ⟨p, .dataChanged⟩ ∉ c.events →
      Option.Rel Node.SameData (t.lookup p) (c.tree.lookup p)) ∧
    (∀ p n, t.lookup p = some n → ⟨p, .deleted⟩ ∉ c.events → ⟨p, .childrenChanged⟩ ∉ c.events →
      ∃ m, c.tree.lookup p = some m ∧ n.SameChildren m) ∧
    (∀ e ∈ c.events, Path.valid e.path = true) ∧
    (∀ e ∈ c.events, e.kind = .childrenChanged →
      ∃ e' ∈ c.events, (e'.kind = .created ∨ e'.kind = .deleted) ∧
        Path.parent? e'.path = some e.path) := by
  intro c
  refine ⟨fun p hno => ?_, fun p => (covers_commit h p).data,
    fun p n hn hd hc => (covers_commit h p).children hd hc n hn, fun e he => ?_, fun e he hk => ?_⟩
  · exact (covers_commit h p).entry fun kind he => hno _ he rfl
  · obtain ⟨x, hx, he⟩ := List.mem_flatMap.1 he
    obtain ⟨v, op, o, -, hadm⟩ := Draft.admits_of_mem h hx
    exact hadm.valid_event he
  · obtain ⟨x, hx, he⟩ := List.mem_flatMap.1 he
    obtain ⟨e', he', hcause⟩ := x.exists_cause he hk
    exact ⟨e', List.mem_flatMap.2 ⟨x, hx, he'⟩, hcause⟩

theorem Tree.change_set_lock :
    ∃ plan, Tree.initial.plan
        [.create "/lock-" [] .ephemeralSequential, .delete "/lock-0000000000" 0] ⟨1, 10, 3⟩ =
          .ok plan ∧
      Option.Rel Node.SameData (Tree.initial.lookup "/")
        ((Tree.initial.commit plan).tree.lookup "/") ∧
      (Tree.initial.commit plan).tree.lookup "/lock" = Tree.initial.lookup "/lock" := by
  obtain ⟨plan, hplan, hevents⟩ : ∃ plan,
      Tree.initial.plan [.create "/lock-" [] .ephemeralSequential, .delete "/lock-0000000000" 0]
        ⟨1, 10, 3⟩ = .ok plan ∧
      (Tree.initial.commit plan).events =
        [⟨"/lock-0000000000", .created⟩, ⟨"/", .childrenChanged⟩,
          ⟨"/lock-0000000000", .deleted⟩, ⟨"/", .childrenChanged⟩] := ⟨_, rfl, rfl⟩
  obtain ⟨hentry, hdata, -⟩ := Tree.change_set hplan
  rw [hevents] at hentry hdata
  exact ⟨plan, hplan, hdata "/" (by decide) (by decide) (by decide), hentry "/lock" (by decide)⟩

end Coordination
