import Coordination.Proofs.Namespace

namespace Coordination

namespace Version

def after : Nat → Version
  | 0 => 0
  | k + 1 => (after k).next

theorem next_eq {v : Version} (h : v < maxVersion) : v.next = v + 1 := if_neg (Int.ne_of_lt h)

theorem natCast_le {k : Nat} (h : k < 2147483648) : (k : Version) ≤ maxVersion :=
  Int.ofNat_le.2 (Nat.le_of_lt_succ h)

theorem after_eq {k : Nat} (h : k ≤ maxVersion) : after k = k := by
  induction k with
  | zero => rfl
  | succ k ih =>
      have hk : (k : Int) < maxVersion := h
      rw [after, ih (Int.le_of_lt hk), next_eq hk]
      rfl

end Version

structure Deed where
  stamp : Stamp
  op : Op
  path : String

namespace Deed

def of (s : Stamp) (op : Op) (o : Outcome) : Deed :=
  { stamp := s
    op
    path := match o with
      | .created p _ => p
      | _ => op.path }

def makes (p : String) (d : Deed) : Bool :=
  match d.op with
  | .create .. => d.path == p
  | _ => false

def removes (p : String) (d : Deed) : Bool :=
  match d.op with
  | .delete .. => d.path == p
  | _ => false

def sets (p : String) (d : Deed) : Bool :=
  match d.op with
  | .setData .. => d.path == p
  | _ => false

def bears (p : String) (d : Deed) : Bool :=
  match d.op with
  | .create .. => Path.parent? d.path == some p
  | .delete .. => Path.parent? d.path == some p
  | _ => false

def payload (d : Deed) : Bytes :=
  match d.op with
  | .create _ data _ => data
  | .setData _ data _ => data
  | _ => []

def owner (d : Deed) : SessionId :=
  match d.op with
  | .create _ _ mode => if mode.ephemeral then d.stamp.session else 0
  | _ => 0

/-- Only a sequential create is done elsewhere than it was asked for. -/
def Placed (d : Deed) : Prop :=
  match d.op with
  | .create r _ mode => if mode.sequential then ∃ k, d.path = Path.numbered r k else d.path = r
  | op => d.path = op.path

end Deed

abbrev History := List Deed

namespace History

variable (h : History) (p : String)

/-- The last create or delete at a path is a create. -/
def Standing : Prop :=
  ∃ d, h.reverse.find? (fun d => d.makes p || d.removes p) = some d ∧ d.makes p = true

def birth : Option Deed := h.reverse.find? (·.makes p)

/-- What was done after the last create at a path, the last first. -/
def since : List Deed := h.reverse.takeWhile (!·.makes p)

def lastSet : Option Deed := ((h.since p).find? (·.sets p)).or (h.birth p)

def lastBearing : Option Deed := ((h.since p).find? (·.bears p)).or (h.birth p)

/-- A node that was never made bears the stamp of the initial tree. -/
def stampOf (d : Option Deed) : Stamp :=
  (d.map Deed.stamp).getD { zxid := 0, time := 0, session := 0 }

structure Recounts (n : Node) : Prop where
  data : n.data = ((h.lastSet p).map Deed.payload).getD []
  version : n.stat.version = .after ((h.since p).countP (·.sets p))
  cversion : n.stat.cversion = .after ((h.since p).countP (·.bears p))
  czxid : n.stat.czxid = (stampOf (h.birth p)).zxid
  ctime : n.stat.ctime = (stampOf (h.birth p)).time
  owner : n.stat.owner = ((h.birth p).map Deed.owner).getD 0
  mzxid : n.stat.mzxid = (stampOf (h.lastSet p)).zxid
  mtime : n.stat.mtime = (stampOf (h.lastSet p)).time
  pzxid : n.stat.pzxid = (stampOf (h.lastBearing p)).zxid

structure Accounts (n : Node) : Prop extends Recounts h p n where
  size : n.children.size ≤ (h.since p).countP (·.bears p)

variable {h p}
variable {d : Deed} {n : Node} {q : String}

theorem standing_concat :
    (h ++ [d]).Standing p ↔
      d.makes p = true ∨ (d.makes p = false ∧ d.removes p = false ∧ h.Standing p) := by
  simp only [Standing, List.reverse_append, List.reverse_singleton, List.singleton_append,
    List.find?_cons]
  cases hm : d.makes p <;> cases hr : d.removes p <;> simp [hm]

theorem birth_concat : (h ++ [d]).birth p = if d.makes p then some d else h.birth p := by
  simp only [birth, List.reverse_append, List.reverse_singleton, List.singleton_append,
    List.find?_cons]
  cases d.makes p <;> rfl

theorem since_concat : (h ++ [d]).since p = if d.makes p then [] else d :: h.since p := by
  simp only [since, List.reverse_append, List.reverse_singleton, List.singleton_append,
    List.takeWhile_cons]
  cases d.makes p <;> rfl

theorem since_append {h' : History} (hno : ∀ d ∈ h', d.makes p = false) :
    since (h ++ h') p = h'.reverse ++ h.since p := by
  rw [since, List.reverse_append]
  refine List.takeWhile_append_of_pos fun d hd => ?_
  rw [hno d (List.mem_reverse.1 hd)]
  rfl

section Steps

variable (hn : h.Accounts p n)
include hn

theorem Accounts.other (hm : d.makes p = false) (hs : d.sets p = false) (hb : d.bears p = false) :
    (h ++ [d]).Accounts p n := by
  have hset : (h ++ [d]).lastSet p = h.lastSet p := by
    simp [lastSet, since_concat, birth_concat, hm, hs]
  have hbear : (h ++ [d]).lastBearing p = h.lastBearing p := by
    simp [lastBearing, since_concat, birth_concat, hm, hb]
  have hbirth : (h ++ [d]).birth p = h.birth p := by simp [birth_concat, hm]
  refine ⟨⟨hset ▸ hn.data, ?_, ?_, hbirth ▸ hn.czxid, hbirth ▸ hn.ctime, hbirth ▸ hn.owner,
    hset ▸ hn.mzxid, hset ▸ hn.mtime, hbear ▸ hn.pzxid⟩, ?_⟩
  · simp [since_concat, hm, hs, hn.version]
  · simp [since_concat, hm, hb, hn.cversion]
  · simpa [since_concat, hm, hb] using hn.size

theorem Accounts.set (hm : d.makes p = false) (hs : d.sets p = true) (hb : d.bears p = false) :
    (h ++ [d]).Accounts p (n.setData d.payload d.stamp.zxid d.stamp.time) := by
  have hset : (h ++ [d]).lastSet p = some d := by
    simp [lastSet, since_concat, hm, hs]
  have hbear : (h ++ [d]).lastBearing p = h.lastBearing p := by
    simp [lastBearing, since_concat, birth_concat, hm, hb]
  have hbirth : (h ++ [d]).birth p = h.birth p := by simp [birth_concat, hm]
  refine ⟨⟨?_, ?_, ?_, hbirth ▸ hn.czxid, hbirth ▸ hn.ctime, hbirth ▸ hn.owner, ?_, ?_,
    hbear ▸ hn.pzxid⟩, ?_⟩
  · simp [hset, Node.setData]
  · simp [since_concat, hm, hs, Node.setData, hn.version, Version.after]
  · simp [since_concat, hm, hb, Node.setData, hn.cversion]
  · simp [hset, stampOf, Node.setData]
  · simp [hset, stampOf, Node.setData]
  · simpa [since_concat, hm, hb, Node.setData] using hn.size

theorem Accounts.bear (hm : d.makes p = false) (hs : d.sets p = false) (hb : d.bears p = true)
    {children : Dict String Unit} (hsize : children.size ≤ n.children.size + 1) :
    (h ++ [d]).Accounts p (n.withChildren children d.stamp.zxid) := by
  have hset : (h ++ [d]).lastSet p = h.lastSet p := by
    simp [lastSet, since_concat, birth_concat, hm, hs]
  have hbear : (h ++ [d]).lastBearing p = some d := by
    simp [lastBearing, since_concat, hm, hb]
  have hbirth : (h ++ [d]).birth p = h.birth p := by simp [birth_concat, hm]
  refine ⟨⟨hset ▸ hn.data, ?_, ?_, hbirth ▸ hn.czxid, hbirth ▸ hn.ctime, hbirth ▸ hn.owner,
    hset ▸ hn.mzxid, hset ▸ hn.mtime, ?_⟩, ?_⟩
  · simp [since_concat, hm, hs, Node.withChildren, hn.version]
  · simp [since_concat, hm, hb, Node.withChildren, hn.cversion, Version.after]
  · simp [hbear, stampOf, Node.withChildren]
  · simpa [since_concat, hm, hb, Node.withChildren] using
      Nat.le_trans hsize (Nat.succ_le_succ hn.size)

end Steps

theorem accounts_create (hm : d.makes p = true) :
    (h ++ [d]).Accounts p (Node.create d.payload d.stamp.zxid d.stamp.time d.owner) := by
  refine ⟨?_, Nat.zero_le _⟩
  constructor <;>
    simp [lastSet, lastBearing, since_concat, birth_concat, hm, stampOf, Node.create, Stat.created,
      Version.after]

structure Chronicled (h : History) (v : View) : Prop where
  linked : v.Linked
  live : ∀ {p}, p ≠ Path.root → (v.Live p ↔ h.Standing p)
  nodes : ∀ {p n}, v p = some n → h.Accounts p n

variable {v : View} {s : Stamp} {parent : Node}

theorem Chronicled.create (hv : h.Chronicled v) {r : String} {data : Bytes} {mode : CreateMode}
    {stat : Stat} (hq : Path.parent? p = some q) (hparent : v q = some parent)
    (hlinked : (v.edit s (.create p (Node.create data s.zxid s.time
      (if mode.ephemeral then s.session else 0)))).Linked) :
    (h ++ [Deed.of s (.create r data mode) (.created p stat)]).Chronicled
      (v.edit s (.create p (Node.create data s.zxid s.time
        (if mode.ephemeral then s.session else 0)))) where
  linked := hlinked
  live := by
    intro x hx
    rw [View.live_create hq hparent, hv.live hx, standing_concat]
    by_cases hxp : x = p
    · simp [hxp, Deed.of, Deed.makes]
    · simp [hxp, Ne.symm hxp, Deed.of, Deed.makes, Deed.removes]
  nodes := by
    intro x m hm
    rw [View.edit_create x hq] at hm
    -- the new node begins its own account, its parent bears it, all others are as they were
    split at hm <;> rename_i hxp
    · obtain rfl := Option.some.inj hm
      exact accounts_create (by simp [Deed.of, Deed.makes, hxp])
    · have hmakes : (Deed.of s (.create r data mode) (.created p stat)).makes x = false := by
        simp [Deed.of, Deed.makes, Ne.symm hxp]
      split at hm <;> rename_i hxq
      · subst hxq
        obtain ⟨n, hn, rfl⟩ := Option.map_eq_some_iff.1 hm
        exact (hv.nodes hn).bear hmakes rfl (by simp [Deed.of, Deed.bears, hq])
          (Dict.size_insert_le ..)
      · exact (hv.nodes hm).other hmakes rfl (by simp [Deed.of, Deed.bears, hq, Ne.symm hxq])

theorem Chronicled.delete (hv : h.Chronicled v) {version : Version} (hn : v p = some n)
    (hq : Path.parent? p = some q) (hlinked : (v.edit s (.delete p)).Linked) :
    (h ++ [Deed.of s (.delete p version) .deleted]).Chronicled (v.edit s (.delete p)) where
  linked := hlinked
  live := by
    intro x hx
    rw [View.live_delete hn hq, hv.live hx, standing_concat]
    by_cases hxp : x = p
    · simp [hxp, Deed.of, Deed.makes, Deed.removes, Op.path]
    · simp [hxp, Ne.symm hxp, Deed.of, Deed.makes, Deed.removes, Op.path]
  nodes := by
    intro x m hm
    rw [View.edit_delete x hn hq] at hm
    split at hm
    · cases hm
    · split at hm <;> rename_i hxq
      · subst hxq
        obtain ⟨n, hn, rfl⟩ := Option.map_eq_some_iff.1 hm
        exact (hv.nodes hn).bear rfl rfl (by simp [Deed.of, Deed.bears, Op.path, hq])
          (Nat.le_trans (Dict.size_erase_le ..) (Nat.le_succ _))
      · exact (hv.nodes hm).other rfl rfl
          (by simp [Deed.of, Deed.bears, Op.path, hq, Ne.symm hxq])

theorem Chronicled.setData (hv : h.Chronicled v) {data : Bytes} {version : Version} {stat : Stat}
    (hlinked : (v.edit s (.setData p data)).Linked) :
    (h ++ [Deed.of s (.setData p data version) (.dataSet stat)]).Chronicled
      (v.edit s (.setData p data)) where
  linked := hlinked
  live := by
    intro x hx
    rw [View.live_setData, hv.live hx, standing_concat]
    simp [Deed.of, Deed.makes, Deed.removes]
  nodes := by
    intro x m hm
    rw [View.edit_setData] at hm
    split at hm <;> rename_i hxp
    · subst hxp
      obtain ⟨n, hn, rfl⟩ := Option.map_eq_some_iff.1 hm
      exact (hv.nodes hn).set rfl (by simp [Deed.of, Deed.sets, Op.path]) rfl
    · exact (hv.nodes hm).other rfl (by simp [Deed.of, Deed.sets, Op.path, Ne.symm hxp]) rfl

theorem Chronicled.check (hv : h.Chronicled v) {version : Version} :
    (h ++ [Deed.of s (.check p version) .checked]).Chronicled v where
  linked := hv.linked
  live := by
    intro x hx
    rw [hv.live hx, standing_concat]
    simp [Deed.of, Deed.makes, Deed.removes]
  nodes := fun hm => (hv.nodes hm).other rfl rfl rfl

variable {op : Op} {e? : Option Edit} {o : Outcome}

theorem Chronicled.admits (hv : h.Chronicled v) (hadm : v.Admits s op e? o) :
    (h ++ [Deed.of s op o]).Chronicled (v.editAll s e?.toList) := by
  have hlinked := hadm.linked hv.linked
  cases hadm with
  | create _ _ _ hq hparent hn =>
      subst hn
      exact hv.create hq hparent hlinked
  | delete hvalid hroot hn _ _ =>
      obtain ⟨q, hq⟩ := Path.exists_parent? hvalid hroot
      exact hv.delete hn hq hlinked
  | setData => exact hv.setData hlinked
  | check => exact hv.check

theorem placed_of_admits (hadm : v.Admits s op e? o) : (Deed.of s op o).Placed := by
  cases hadm with
  | create hnames _ _ _ _ _ =>
      cases hnames with
      | requested hm _ => simp [Deed.of, Deed.Placed, hm]
      | numbered hm _ _ _ =>
          simp only [Deed.of, Deed.Placed, hm, if_true]
          exact ⟨_, rfl⟩
  | delete => rfl
  | setData => rfl
  | check => rfl

theorem Chronicled.hasChild_iff (hv : h.Chronicled v) (hn : v p = some n) (c : String) :
    n.hasChild c = true ↔ ∃ q, Path.parent? q = some p ∧ Path.name q = c ∧ h.Standing q := by
  constructor
  · intro hc
    have hchild : v.HasChild p c := ⟨n, hn, hc⟩
    have hp : Path.valid p = true := hv.linked.valid ⟨n, hn⟩
    have hseg := hv.linked.segment hchild
    have hparent := Path.parent?_child hp hseg
    have hlive := hv.linked.child hchild
    exact ⟨Path.child p c, hparent, Path.name_child hp hseg,
      (hv.live (Path.ne_root_of_parent? hparent)).1 hlive⟩
  · rintro ⟨q, hq, rfl, hs⟩
    have hroot := Path.ne_root_of_parent? hq
    obtain ⟨p', hp', m, hm, hc⟩ := hv.linked.parent ((hv.live hroot).2 hs) hroot
    obtain rfl : p = p' := Option.some.inj (hq.symm.trans hp')
    rw [hn] at hm
    obtain rfl := Option.some.inj hm
    exact hc

theorem chronicled_initial : Chronicled [] Tree.initial.lookup where
  linked := Tree.linked_initial
  live := by
    intro p hp
    simp [View.Live, Tree.lookup_initial, hp, Standing]
  nodes := by
    intro p n hn
    rw [Tree.lookup_initial] at hn
    split at hn
    · obtain rfl := Option.some.inj hn
      exact ⟨⟨rfl, rfl, rfl, rfl, rfl, rfl, rfl, rfl, rfl⟩, Nat.zero_le _⟩
    · cases hn

end History

namespace Tree

open History

variable {t u : Tree} {h : History} {s : Stamp} {ops : List Op} {cs : List Commit}

def deeds (s : Stamp) (ops : List Op) (os : List Outcome) : History :=
  List.zipWith (Deed.of s) ops os

/-- The trees that batches make out of the initial one, each with its history. -/
inductive Recorded : History → Tree → Prop
  | initial : Recorded [] .initial
  | commit {h : History} {t : Tree} {s : Stamp} {ops : List Op} {plan : Plan} :
      Recorded h t → t.plan ops s = .ok plan →
      Recorded (h ++ deeds s ops plan.outcomes) (t.commit plan).tree

theorem stamp_of_mem_deeds {os : List Outcome} {d : Deed} (hd : d ∈ deeds s ops os) :
    d.stamp = s := by
  obtain ⟨i, hi, rfl⟩ := List.getElem_of_mem hd
  simp [deeds, Deed.of]

theorem chronicled_stepwise (hsteps : Stepwise s t ops cs u) (ht : h.Chronicled t.lookup) :
    (h ++ deeds s ops (cs.flatMap Commit.outcomes)).Chronicled u.lookup ∧
      ∀ d ∈ deeds s ops (cs.flatMap Commit.outcomes), d.Placed := by
  induction hsteps generalizing h with
  | nil => exact ⟨(List.append_nil h).symm ▸ ht, by simp [deeds]⟩
  | @cons t u op ops plan cs hplan _ ih =>
      obtain ⟨e, o, hadm, rfl, hlook⟩ := Draft.admits_of_plan hplan
      have hone := ht.admits hadm
      rw [← hlook] at hone
      obtain ⟨hrest, hplaced⟩ := ih hone
      rw [List.append_assoc] at hrest
      refine ⟨hrest, fun d hd => ?_⟩
      rcases List.mem_cons.1 hd with rfl | hd
      · exact placed_of_admits hadm
      · exact hplaced d hd

theorem Recorded.chronicled (hr : Recorded h t) :
    h.Chronicled t.lookup ∧ ∀ d ∈ h, d.Placed := by
  induction hr with
  | initial => exact ⟨chronicled_initial, by simp⟩
  | @commit h t s ops plan _ hplan ih =>
      obtain ⟨cs, u, hsteps, hos, -, htree⟩ := Stepwise.exists_commits hplan
      obtain ⟨hall, hplaced⟩ := chronicled_stepwise hsteps ih.1
      rw [← hos] at hall hplaced
      refine ⟨?_, fun d hd => ?_⟩
      · rw [htree]
        exact hall
      · rcases List.mem_append.1 hd with hd | hd
        · exact ih.2 d hd
        · exact hplaced d hd

theorem Recorded.linked (hr : Recorded h t) : View.Linked t.lookup := hr.chronicled.1.linked

theorem Recorded.linked_after? {d : Draft} (hr : Recorded h t)
    (hd : (Draft.ofTree t).after? s ops = some d) : View.Linked d.resolve := by
  have hstart : View.Linked (Draft.ofTree t).resolve := hr.linked
  exact View.linked_after? hstart hd

/-- The tree is the fold of its history. A version is the number of changes as long as this is a
version. -/
theorem recounts (hr : Recorded h t) :
    (∀ p, p ≠ Path.root → ((t.lookup p).isSome = true ↔ h.Standing p)) ∧
      (∀ p n, t.lookup p = some n → h.Recounts p n ∧
        ∀ c, n.hasChild c = true ↔
          ∃ q, Path.parent? q = some p ∧ Path.name q = c ∧ h.Standing q) ∧
      (∀ d ∈ h, d.Placed) ∧ ∀ k : Nat, k ≤ maxVersion → Version.after k = k := by
  obtain ⟨hc, hplaced⟩ := hr.chronicled
  refine ⟨fun p hp => ?_, fun p n hn => ⟨(hc.nodes hn).toRecounts, hc.hasChild_iff hn⟩, hplaced,
    fun k => Version.after_eq⟩
  rw [← hc.live hp, Option.isSome_iff_exists]
  rfl

theorem recounts_remade :
    ∃ h t n, Recorded h t ∧ h.length = 5 ∧ t.lookup "/a" = some n ∧ h.Recounts "/a" n ∧
      n.data = [9] ∧ n.stat.version = 0 ∧ n.stat.cversion = 1 ∧ n.stat.mzxid = 1 ∧
      n.stat.pzxid = 2 := by
  obtain ⟨first, hfirst⟩ : ∃ plan, Tree.initial.plan
      [.create "/a" [7] .persistent, .setData "/a" [8] 0, .delete "/a" 1,
        .create "/a" [9] .persistent] ⟨1, 10, 3⟩ = .ok plan := ⟨_, rfl⟩
  obtain ⟨second, hsecond⟩ : ∃ plan, (Tree.initial.commit first).tree.plan
      [.create "/a/" [] .ephemeralSequential] ⟨2, 20, 3⟩ = .ok plan := by
    obtain rfl := Except.ok.inj hfirst
    exact ⟨_, rfl⟩
  have hr := (Recorded.initial.commit hfirst).commit hsecond
  obtain ⟨-, hnodes, -⟩ := recounts hr
  obtain rfl := Except.ok.inj hfirst
  obtain rfl := Except.ok.inj hsecond
  exact ⟨_, _, _, hr, rfl, rfl, (hnodes "/a" _ rfl).1, rfl, rfl, rfl, rfl, rfl⟩

end Tree

end Coordination
