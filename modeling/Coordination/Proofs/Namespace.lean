import Coordination.Proofs.Replay

namespace Coordination

namespace Node

variable {n : Node} {z : Zxid}

theorem hasChild_link {name c : String} :
    (n.link name z).hasChild c = true ↔ c = name ∨ n.hasChild c = true :=
  Dict.contains_insert

theorem hasChild_unlink {name c : String} :
    (n.unlink name z).hasChild c = true ↔ c ≠ name ∧ n.hasChild c = true :=
  Dict.contains_erase

theorem hasChild_of_hasChildren (h : n.hasChildren = false) (c : String) :
    n.hasChild c = false :=
  Dict.contains_of_isEmpty (by simpa [hasChildren] using h) c

theorem hasChildren_iff : n.hasChildren = true ↔ ∃ c, n.hasChild c = true := by
  constructor
  · intro h
    have hne : n.children.toList ≠ [] := fun hnil => by
      rw [hasChildren, Dict.isEmpty, hnil] at h
      cases h
    obtain ⟨e, he⟩ := List.exists_mem_of_ne_nil _ hne
    refine ⟨e.1, ?_⟩
    rw [hasChild, Dict.contains, Dict.mem_toList.1 he]
    rfl
  · rintro ⟨c, hc⟩
    cases hno : n.hasChildren with
    | true => rfl
    | false =>
        rw [hasChild_of_hasChildren hno] at hc
        cases hc

/-- What one edit can make of a node that is there before and after it. -/
inductive Changed (s : Stamp) (n : Node) : Node → Prop
  | same : Changed s n n
  | link {name : String} : Changed s n (n.link name s.zxid)
  | unlink {name : String} : Changed s n (n.unlink name s.zxid)
  | setData {data : Bytes} : Changed s n (n.setData data s.zxid s.time)

end Node

namespace View

def Live (v : View) (p : String) : Prop := ∃ n, v p = some n

def HasChild (v : View) (p c : String) : Prop := ∃ n, v p = some n ∧ n.hasChild c = true

/-- Live paths and child names say the same: a node hangs at its parent under its own name. -/
structure Linked (v : View) : Prop where
  root : v.Live Path.root
  valid : ∀ {p}, v.Live p → Path.valid p = true
  parent : ∀ {p}, v.Live p → p ≠ Path.root →
    ∃ q, Path.parent? p = some q ∧ v.HasChild q (Path.name p)
  child : ∀ {p c}, v.HasChild p c → v.Live (Path.child p c)
  segment : ∀ {p c}, v.HasChild p c → Path.Segment c.toList

variable {v : View} {s : Stamp} {p q : String} {n parent : Node}

theorem HasChild.live {c : String} (h : v.HasChild p c) : v.Live p :=
  h.imp fun _ hn => hn.1

theorem live_create {r : String} (hq : Path.parent? p = some q) (hparent : v q = some parent) :
    (v.edit s (.create p n)).Live r ↔ r = p ∨ v.Live r := by
  rw [Live, edit_create r hq]
  by_cases hr : r = p
  · simp [hr]
  · by_cases hrq : r = q
    · subst r
      simp [hr, hparent, Live]
    · simp [hr, hrq, Live]

theorem hasChild_create {r c : String} (hp : v p = none) (hq : Path.parent? p = some q)
    (hparent : v q = some parent) (hn : ∀ c, n.hasChild c = false) :
    (v.edit s (.create p n)).HasChild r c ↔ v.HasChild r c ∨ r = q ∧ c = Path.name p := by
  have hne := Path.parent?_ne hq
  rw [HasChild, edit_create r hq]
  by_cases hr : r = p
  · subst r
    simp [HasChild, hp, hn, Ne.symm hne]
  · by_cases hrq : r = q
    · subst r
      simp [hr, hparent, HasChild, Node.hasChild_link, or_comm]
    · simp [hr, hrq, HasChild]

theorem live_delete {r : String} (hn : v p = some n) (hq : Path.parent? p = some q) :
    (v.edit s (.delete p)).Live r ↔ r ≠ p ∧ v.Live r := by
  rw [Live, edit_delete r hn hq]
  by_cases hr : r = p
  · simp [hr]
  · by_cases hrq : r = q
    · subst r
      cases hv : v q <;> simp [hr, hv, Live]
    · simp [hr, hrq, Live]

theorem hasChild_delete {r c : String} (hn : v p = some n) (hq : Path.parent? p = some q)
    (hc : ∀ c, n.hasChild c = false) :
    (v.edit s (.delete p)).HasChild r c ↔ v.HasChild r c ∧ ¬(r = q ∧ c = Path.name p) := by
  rw [HasChild, edit_delete r hn hq]
  by_cases hr : r = p
  · subst r
    simp [HasChild, hn, hc]
  · by_cases hrq : r = q
    · subst r
      cases hv : v q with
      | none => simp [hr, HasChild, hv]
      | some m => simp [hr, HasChild, hv, Node.hasChild_unlink, and_comm]
    · simp [hr, hrq, HasChild]

theorem live_setData {data : Bytes} {r : String} :
    (v.edit s (.setData p data)).Live r ↔ v.Live r := by
  rw [Live, edit_setData]
  by_cases hr : r = p
  · subst r
    cases hv : v p <;> simp [Live, hv]
  · simp [hr, Live]

theorem hasChild_setData {data : Bytes} {r c : String} :
    (v.edit s (.setData p data)).HasChild r c ↔ v.HasChild r c := by
  rw [HasChild, edit_setData]
  by_cases hr : r = p
  · subst r
    cases hv : v p <;> simp [HasChild, hv, Node.setData, Node.hasChild]
  · simp [hr, HasChild]

theorem Linked.create (h : v.Linked) (hv : Path.valid p = true) (hp : v p = none)
    (hq : Path.parent? p = some q) (hparent : v q = some parent)
    (hn : ∀ c, n.hasChild c = false) : (v.edit s (.create p n)).Linked where
  root := (live_create hq hparent).2 (.inr h.root)
  valid := fun hr => by
    rcases (live_create hq hparent).1 hr with rfl | hr
    · exact hv
    · exact h.valid hr
  parent := fun {r} hr hroot => by
    rcases (live_create hq hparent).1 hr with rfl | hr
    · exact ⟨q, hq, (hasChild_create hp hq hparent hn).2 (.inr ⟨rfl, rfl⟩)⟩
    · obtain ⟨q', hq', hc⟩ := h.parent hr hroot
      exact ⟨q', hq', (hasChild_create hp hq hparent hn).2 (.inl hc)⟩
  child := fun hr => by
    rcases (hasChild_create hp hq hparent hn).1 hr with hr | ⟨rfl, rfl⟩
    · exact (live_create hq hparent).2 (.inr (h.child hr))
    · exact (live_create hq hparent).2 (.inl (Path.child_name hv hq))
  segment := fun hr => by
    rcases (hasChild_create hp hq hparent hn).1 hr with hr | ⟨rfl, rfl⟩
    · exact h.segment hr
    · exact Path.segment_name hv hq

theorem Linked.delete (h : v.Linked) (hroot : p ≠ Path.root) (hn : v p = some n)
    (hc : ∀ c, n.hasChild c = false) : (v.edit s (.delete p)).Linked := by
  obtain ⟨q, hq, hname⟩ := h.parent ⟨n, hn⟩ hroot
  have hv : Path.valid p = true := h.valid ⟨n, hn⟩
  constructor
  · exact (live_delete hn hq).2 ⟨Ne.symm hroot, h.root⟩
  · exact fun hr => h.valid ((live_delete hn hq).1 hr).2
  · intro r hr hne
    obtain ⟨hrp, hr⟩ := (live_delete hn hq).1 hr
    obtain ⟨q', hq', hc'⟩ := h.parent hr hne
    refine ⟨q', hq', (hasChild_delete hn hq hc).2 ⟨hc', fun ⟨hqq, hnn⟩ => hrp ?_⟩⟩
    -- a path is its parent and its name, so nothing else hung there under this name
    rw [← Path.child_name (h.valid hr) hq', hqq, hnn, Path.child_name hv hq]
  · intro r c hr
    obtain ⟨hr, hne⟩ := (hasChild_delete hn hq hc).1 hr
    refine (live_delete hn hq).2 ⟨fun hrp => hne ?_, h.child hr⟩
    have hrq := Path.parent?_child (h.valid hr.live) (h.segment hr)
    have hrc := Path.name_child (h.valid hr.live) (h.segment hr)
    rw [hrp, hq, Option.some.injEq] at hrq
    rw [hrp] at hrc
    exact ⟨hrq.symm, hrc.symm⟩
  · exact fun hr => h.segment ((hasChild_delete hn hq hc).1 hr).1

theorem Linked.setData (h : v.Linked) {data : Bytes} : (v.edit s (.setData p data)).Linked where
  root := live_setData.2 h.root
  valid := fun hr => h.valid (live_setData.1 hr)
  parent := fun hr hne =>
    let ⟨q, hq, hc⟩ := h.parent (live_setData.1 hr) hne
    ⟨q, hq, hasChild_setData.2 hc⟩
  child := fun hr => live_setData.2 (h.child (hasChild_setData.1 hr))
  segment := fun hr => h.segment (hasChild_setData.1 hr)

variable {op : Op} {e : Option Edit} {o : Outcome}

theorem Admits.linked (h : v.Admits s op e o) (hv : v.Linked) : (v.editAll s e.toList).Linked := by
  cases h with
  | create _ hvalid hp hq hparent hn =>
      subst hn
      exact hv.create hvalid hp hq hparent fun _ => rfl
  | delete _ hroot hn hc _ =>
      exact hv.delete hroot hn (Node.hasChild_of_hasChildren hc)
  | setData => exact hv.setData
  | check => exact hv

theorem origin_edit {e : Edit} {m : Node} (hm : v.edit s e p = some m) :
    (∃ n, v p = some n ∧ n.Changed s m) ∨ e = .create p m := by
  cases e with
  | create q n =>
      simp only [edit, put, modifyParent] at hm
      split at hm
      · subst p
        exact .inr (congrArg _ (Option.some.inj hm))
      · split at hm
        · obtain ⟨n', hn', rfl⟩ := Option.map_eq_some_iff.1 hm
          exact .inl ⟨n', hn', .link⟩
        · exact .inl ⟨m, hm, .same⟩
  | delete q =>
      simp only [edit] at hm
      split at hm
      · simp only [put, modifyParent] at hm
        split at hm
        · obtain ⟨n', hn', rfl⟩ := Option.map_eq_some_iff.1 hm
          split at hn'
          · cases hn'
          · exact .inl ⟨n', hn', .unlink⟩
        · split at hm
          · cases hm
          · exact .inl ⟨m, hm, .same⟩
      · exact .inl ⟨m, hm, .same⟩
  | setData q data =>
      simp only [edit, modify] at hm
      split at hm
      · obtain ⟨n', hn', rfl⟩ := Option.map_eq_some_iff.1 hm
        exact .inl ⟨n', hn', .setData⟩
      · exact .inl ⟨m, hm, .same⟩

theorem Admits.origin {m : Node} (h : v.Admits s op e o) (hm : v.editAll s e.toList p = some m) :
    (∃ n, v p = some n ∧ n.Changed s m) ∨
      ∃ data owner, m = Node.create data s.zxid s.time owner := by
  cases e with
  | none => exact .inl ⟨m, hm, .same⟩
  | some e =>
      refine (origin_edit hm).imp_right ?_
      rintro rfl
      cases h with
      | create _ _ _ _ _ hn => exact ⟨_, _, hn⟩

theorem linked_after? {d d' : Draft} {ops : List Op} (hd : Linked d.resolve)
    (h : d.after? s ops = some d') : Linked d'.resolve := by
  induction ops generalizing d with
  | nil =>
      obtain rfl : d = d' := Option.some.inj h
      exact hd
  | cons op ops ih =>
      obtain ⟨a, ha, h⟩ := Draft.after?_cons_eq_some.1 h
      obtain ⟨hadm, hview⟩ := Draft.accept_spec ha
      refine ih ?_ h
      rw [hview]
      exact hadm.linked hd

end View

namespace Tree

theorem lookup_initial (p : String) :
    initial.lookup p = if p = Path.root then some (Node.create [] 0 0 0) else none := by
  rw [lookup, initial, Dict.get?_insert]
  rfl

theorem linked_initial : View.Linked initial.lookup := by
  have hroot : ∀ {p n}, initial.lookup p = some n →
      p = Path.root ∧ n = Node.create [] 0 0 0 := fun {p n} h => by
    rw [lookup_initial] at h
    split at h
    · exact ⟨‹_›, (Option.some.inj h).symm⟩
    · cases h
  have hleaf : ∀ {p c}, ¬View.HasChild initial.lookup p c := fun ⟨n, hn, hc⟩ => by
    rw [(hroot hn).2] at hc
    cases hc
  refine ⟨⟨_, lookup_initial Path.root⟩, ?_, ?_, ?_, ?_⟩
  · rintro p ⟨n, hn⟩
    rw [(hroot hn).1]
    rfl
  · rintro p ⟨n, hn⟩ hne
    exact absurd (hroot hn).1 hne
  · exact fun h => absurd h hleaf
  · exact fun h => absurd h hleaf

end Tree

end Coordination
