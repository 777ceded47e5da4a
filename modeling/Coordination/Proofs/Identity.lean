import Coordination.Proofs.WellFormed

namespace Coordination

namespace Node

/-- A node that another has become by batches with numbers above `z`. The data are untouched, or
were set by such a batch and counted; and so are the children. -/
structure Continues (z : Zxid) (n m : Node) : Prop where
  czxid : m.stat.czxid = n.stat.czxid
  ctime : m.stat.ctime = n.stat.ctime
  owner : m.stat.owner = n.stat.owner
  data : (m.data = n.data ∧ m.stat.version = n.stat.version ∧ m.stat.mzxid = n.stat.mzxid ∧
      m.stat.mtime = n.stat.mtime) ∨
    n.stat.version < m.stat.version ∧ z < m.stat.mzxid
  children : (m.children = n.children ∧ m.stat.cversion = n.stat.cversion ∧
      m.stat.pzxid = n.stat.pzxid) ∨
    n.stat.cversion < m.stat.cversion ∧ z < m.stat.pzxid

variable {z : Zxid} {n m : Node}

/-- What the metadata of an earlier and of a later node at one path say of the two. -/
structure Identified (n m : Node) : Prop where
  mzxid : m.stat.mzxid = n.stat.mzxid →
    m.data = n.data ∧ m.stat.version = n.stat.version ∧ m.stat.czxid = n.stat.czxid ∧
      m.stat.ctime = n.stat.ctime ∧ m.stat.mtime = n.stat.mtime ∧ m.stat.owner = n.stat.owner
  version : m.stat.czxid = n.stat.czxid → m.stat.version = n.stat.version → m.data = n.data
  pzxid : m.stat.pzxid = n.stat.pzxid →
    m.children = n.children ∧ m.stat.cversion = n.stat.cversion
  grown : m.stat.czxid = n.stat.czxid →
    n.stat.version ≤ m.stat.version ∧ n.stat.cversion ≤ m.stat.cversion ∧
      n.stat.mzxid ≤ m.stat.mzxid ∧ n.stat.pzxid ≤ m.stat.pzxid
  data : m.stat.czxid = n.stat.czxid → m.data ≠ n.data → n.stat.version < m.stat.version
  children : m.stat.czxid = n.stat.czxid → m.children ≠ n.children →
    n.stat.cversion < m.stat.cversion

theorem Continues.identified (h : Continues z n m) (hn : n.Dated z) : n.Identified m where
  mzxid := by
    intro he
    rcases h.data with ⟨hd, hv, -, ht⟩ | ⟨-, hz⟩
    · exact ⟨hd, hv, h.czxid, h.ctime, ht, h.owner⟩
    · exact absurd (he ▸ hn.mzxid_le) (Nat.not_le.2 hz)
  version := by
    intro _ he
    rcases h.data with ⟨hd, -⟩ | ⟨hv, -⟩
    · exact hd
    · exact absurd he.symm (Int.ne_of_lt hv)
  pzxid := by
    intro he
    rcases h.children with ⟨hc, hv, -⟩ | ⟨-, hz⟩
    · exact ⟨hc, hv⟩
    · exact absurd (he ▸ hn.pzxid_le) (Nat.not_le.2 hz)
  grown := by
    intro _
    have hdata : n.stat.version ≤ m.stat.version ∧ n.stat.mzxid ≤ m.stat.mzxid := by
      rcases h.data with ⟨-, hv, hz, -⟩ | ⟨hv, hz⟩
      · exact ⟨Int.le_of_eq hv.symm, Nat.le_of_eq hz.symm⟩
      · exact ⟨Int.le_of_lt hv, Nat.le_trans hn.mzxid_le (Nat.le_of_lt hz)⟩
    have hchildren : n.stat.cversion ≤ m.stat.cversion ∧ n.stat.pzxid ≤ m.stat.pzxid := by
      rcases h.children with ⟨-, hv, hz⟩ | ⟨hv, hz⟩
      · exact ⟨Int.le_of_eq hv.symm, Nat.le_of_eq hz.symm⟩
      · exact ⟨Int.le_of_lt hv, Nat.le_trans hn.pzxid_le (Nat.le_of_lt hz)⟩
    exact ⟨hdata.1, hchildren.1, hdata.2, hchildren.2⟩
  data := fun _ hne => (h.data.resolve_left fun hd => hne hd.1).1
  children := fun _ hne => (h.children.resolve_left fun hc => hne hc.1).1

theorem identified_of_later (hn : n.Dated z) {z' : Zxid} (hm : m.Dated z')
    (hz : z < m.stat.czxid) : n.Identified m := by
  have hczxid : m.stat.czxid ≠ n.stat.czxid := by
    have hle := Nat.le_trans hn.czxid_le_mzxid hn.mzxid_le
    exact fun he => absurd (he ▸ hle) (Nat.not_le.2 hz)
  have hmzxid : m.stat.mzxid ≠ n.stat.mzxid := fun he =>
    absurd (he ▸ hn.mzxid_le) (Nat.not_le.2 (Nat.lt_of_lt_of_le hz hm.czxid_le_mzxid))
  have hpzxid : m.stat.pzxid ≠ n.stat.pzxid := fun he =>
    absurd (he ▸ hn.pzxid_le) (Nat.not_le.2 (Nat.lt_of_lt_of_le hz hm.czxid_le_pzxid))
  exact ⟨fun he => absurd he hmzxid, fun he => absurd he hczxid, fun he => absurd he hpzxid,
    fun he => absurd he hczxid, fun he => absurd he hczxid, fun he => absurd he hczxid⟩

end Node

namespace History

variable {h h' : History} {p q : String} {z : Zxid}

/-- What was done to a path in its present life, and to its children, was not done too often to be
counted. -/
def Counts (h : History) (p : String) : Prop :=
  (h.since p).countP (·.sets p) ≤ maxVersion ∧ (h.since p).countP (·.bears p) ≤ maxVersion

theorem birth_append (hno : ∀ d ∈ h', d.makes p = false) : birth (h ++ h') p = h.birth p := by
  have hnone : h'.reverse.find? (·.makes p) = none := by
    simpa [List.find?_eq_none] using hno
  rw [birth, List.reverse_append, List.find?_append, hnone, Option.none_or]
  rfl

theorem birth_mem (hmade : ∃ d ∈ h', d.makes p = true) :
    ∃ d ∈ h', birth (h ++ h') p = some d := by
  obtain ⟨d, hd, hm⟩ := hmade
  obtain ⟨b, hb⟩ := Option.isSome_iff_exists.1 (List.find?_isSome.2 ⟨d, List.mem_reverse.2 hd, hm⟩)
  refine ⟨b, List.mem_reverse.1 (List.mem_of_find?_eq_some hb), ?_⟩
  rw [birth, List.reverse_append, List.find?_append, hb, Option.some_or]

theorem standing_append (hno : ∀ d ∈ h', d.makes q = false ∧ d.removes q = false) :
    Standing (h ++ h') q ↔ h.Standing q := by
  have hnone : h'.reverse.find? (fun d => d.makes q || d.removes q) = none := by
    simpa [List.find?_eq_none] using hno
  rw [Standing, List.reverse_append, List.find?_append, hnone, Option.none_or]
  rfl

theorem find_since_append (f : Deed → Bool) (hno : ∀ d ∈ h', d.makes p = false) :
    ((since (h ++ h') p).find? f = (h.since p).find? f ∧
        (since (h ++ h') p).countP f = (h.since p).countP f ∧ ∀ d ∈ h', f d = false) ∨
      (∃ d ∈ h', (since (h ++ h') p).find? f = some d) ∧
        (h.since p).countP f < (since (h ++ h') p).countP f := by
  rw [since_append hno, List.find?_append, List.countP_append, List.countP_reverse]
  cases hfind : h'.reverse.find? f with
  | none =>
      have hnone : ∀ d ∈ h', f d = false := by simpa [List.find?_eq_none] using hfind
      have hzero : h'.countP f = 0 := List.countP_eq_zero.2 (by simpa using hnone)
      exact .inl ⟨Option.none_or, by omega, hnone⟩
  | some d =>
      have hd := List.mem_reverse.1 (List.mem_of_find?_eq_some hfind)
      have hpos : 0 < h'.countP f :=
        List.countP_pos_iff.2 ⟨d, hd, List.find?_some hfind⟩
      exact .inr ⟨⟨d, hd, Option.some_or⟩, by omega⟩

variable {v w : View} {n m : Node}

theorem Chronicled.children_eq (hv : h.Chronicled v) (hw : Chronicled (h ++ h') w)
    (hn : v p = some n) (hm : w p = some m) (hno : ∀ d ∈ h', d.bears p = false) :
    m.children = n.children := by
  have hstanding : ∀ q, Path.parent? q = some p → (Standing (h ++ h') q ↔ h.Standing q) := by
    intro q hq
    refine standing_append fun d hd => ?_
    have hbears := hno d hd
    cases hop : d.op <;> simp_all [Deed.bears, Deed.makes, Deed.removes]
    all_goals exact fun he => hbears (he ▸ hq)
  refine Dict.ext_get? fun c => ?_
  have hsame : m.hasChild c = true ↔ n.hasChild c = true := by
    rw [hw.hasChild_iff hm, hv.hasChild_iff hn]
    exact exists_congr fun q => and_congr_right fun hq => and_congr_right fun _ => hstanding q hq
  simp only [Node.hasChild, Dict.contains] at hsame
  cases hc : m.children.get? c <;> cases hc' : n.children.get? c <;> simp_all

theorem Chronicled.continues (hv : h.Chronicled v) (hw : Chronicled (h ++ h') w)
    (hn : v p = some n) (hm : w p = some m) (hcounts : Counts (h ++ h') p)
    (hz : ∀ d ∈ h', z < d.stamp.zxid) (hno : ∀ d ∈ h', d.makes p = false) :
    Node.Continues z n m := by
  have hold := hv.nodes hn
  have hnew := hw.nodes hm
  have hbirth : birth (h ++ h') p = h.birth p := birth_append hno
  constructor
  · rw [hnew.czxid, hold.czxid, hbirth]
  · rw [hnew.ctime, hold.ctime, hbirth]
  · rw [hnew.owner, hold.owner, hbirth]
  · rcases find_since_append (·.sets p) hno with ⟨hfind, hcount, -⟩ | ⟨⟨d, hd, hfind⟩, hlt⟩
    · have hlast : lastSet (h ++ h') p = h.lastSet p := by rw [lastSet, hfind, hbirth, lastSet]
      refine .inl ⟨?_, ?_, ?_, ?_⟩
      · rw [hnew.data, hold.data, hlast]
      · rw [hnew.version, hold.version, hcount]
      · rw [hnew.mzxid, hold.mzxid, hlast]
      · rw [hnew.mtime, hold.mtime, hlast]
    · have hlast : lastSet (h ++ h') p = some d := by rw [lastSet, hfind, Option.some_or]
      refine .inr ⟨?_, ?_⟩
      · rw [hnew.version, hold.version, Version.after_eq hcounts.1,
          Version.after_eq (Int.le_trans (Int.ofNat_le.2 (Nat.le_of_lt hlt)) hcounts.1)]
        exact Int.ofNat_lt.2 hlt
      · rw [hnew.mzxid, hlast]
        exact hz d hd
  · rcases find_since_append (·.bears p) hno with ⟨hfind, hcount, hnone⟩ | ⟨⟨d, hd, hfind⟩, hlt⟩
    · have hlast : lastBearing (h ++ h') p = h.lastBearing p := by
        rw [lastBearing, hfind, hbirth, lastBearing]
      refine .inl ⟨hv.children_eq hw hn hm hnone, ?_, ?_⟩
      · rw [hnew.cversion, hold.cversion, hcount]
      · rw [hnew.pzxid, hold.pzxid, hlast]
    · have hlast : lastBearing (h ++ h') p = some d := by rw [lastBearing, hfind, Option.some_or]
      refine .inr ⟨?_, ?_⟩
      · rw [hnew.cversion, hold.cversion, Version.after_eq hcounts.2,
          Version.after_eq (Int.le_trans (Int.ofNat_le.2 (Nat.le_of_lt hlt)) hcounts.2)]
        exact Int.ofNat_lt.2 hlt
      · rw [hnew.pzxid, hlast]
        exact hz d hd

end History

namespace Tree

open History

variable {t u : Tree} {h h' : History} {p : String} {n m : Node}

theorem Leads.lastZxid_le (hu : t.Leads h u) : t.lastZxid ≤ u.lastZxid := by
  induction hu with
  | refl => exact Nat.le_refl _
  | commit _ hz hplan ih =>
      rw [lastZxid_commit, Draft.stamp_acceptAll hplan]
      exact Nat.le_trans ih (Nat.le_of_lt hz)

theorem Leads.above (hu : t.Leads h u) : ∀ d ∈ h, t.lastZxid < d.stamp.zxid := by
  induction hu with
  | refl => simp
  | @commit h u s ops plan hlead hz hplan ih =>
      intro d hd
      rcases List.mem_append.1 hd with hd | hd
      · exact ih d hd
      · rw [stamp_of_mem_deeds hd]
        exact Nat.lt_of_le_of_lt hlead.lastZxid_le hz

theorem Leads.identified (hu : t.Leads h' u) (ht : Reachable h t) (hn : t.lookup p = some n)
    (hm : u.lookup p = some m) (hcounts : Counts (h ++ h') p) : n.Identified m := by
  have hr : Recorded (h ++ h') u := hu.recorded ht.recorded
  have hdated := ht.dated p n hn
  by_cases hmade : ∃ d ∈ h', d.makes p = true
  · obtain ⟨d, hd, hbirth⟩ := birth_mem (h := h) hmade
    refine Node.identified_of_later hdated (hu.dated ht.dated p m hm) ?_
    rw [(hr.chronicled.1.nodes hm).czxid, hbirth]
    exact hu.above d hd
  · have hno : ∀ d ∈ h', d.makes p = false := by simpa using hmade
    exact (ht.recorded.chronicled.1.continues hr.chronicled.1 hn hm hcounts hu.above
      hno).identified hdated

/-- The metadata of a path in two published trees tell what is the same in both, whatever was
deleted and made again in between, as long as no counter passes its largest value. -/
theorem stats_identify (σ : Type) [Journal.Sink σ] :
    (∀ h h' (t u : Tree), Reachable h t → t.Leads h' u → ∀ p n m,
      t.lookup p = some n → u.lookup p = some m → Counts (h ++ h') p → n.Identified m) ∧
    ∀ h (t : Tree) (log : σ) (before after : List Writer.Move), Reachable h t →
      let start : Writer σ := { engine := .start t, log }
      let w := start.run before
      t.lastZxid + (start.taken before).length ≤ maxZxid →
      w.engine.tree.lastZxid + (w.taken after).length ≤ maxZxid →
      ∀ p n m, w.engine.tree.lookup p = some n → (w.run after).engine.tree.lookup p = some m →
        Counts (h ++ t.history (start.taken before) ++ w.engine.tree.history (w.taken after)) p →
        n.Identified m := by
  refine ⟨fun h h' t u ht hlead p n m hn hm hc => hlead.identified ht hn hm hc, ?_⟩
  intro h t log before after ht start w hbefore hafter p n m hn hm hc
  have hw : t.Leads (t.history (start.taken before)) w.engine.tree :=
    (Leads.of_replayFrom (start.explains before hbefore).rebuilt).1
  have hu := (Leads.of_replayFrom (w.explains after hafter).rebuilt).1
  exact hu.identified (Leads.trans ht hw) hn hm hc

theorem stats_identify_remade :
    let before : List Writer.Move := [.submit 10 1 [.create "/a" [7] .persistent]]
    let after : List Writer.Move :=
      [.submit 20 1 [.delete "/a" 0, .create "/a" [9] .persistent]]
    let start : Writer Journal.Memory := { engine := .start .initial, log := .start 0 }
    let w := start.run before
    Reachable [] initial ∧ initial.Leads [] initial ∧
      (∃ n, initial.lookup "/" = some n ∧ n.Identified n) ∧
      ∃ n m, w.engine.tree.lookup "/a" = some n ∧
        (w.run after).engine.tree.lookup "/a" = some m ∧ n.Identified m ∧
        m.stat.version = n.stat.version ∧ m.data ≠ n.data := by
  intro before after start w
  obtain ⟨htrees, hruns⟩ := stats_identify Journal.Memory
  obtain ⟨n, hn⟩ : ∃ n, w.engine.tree.lookup "/a" = some n :=
    Option.isSome_iff_exists.1 (by decide +kernel)
  obtain ⟨m, hm⟩ : ∃ m, (w.run after).engine.tree.lookup "/a" = some m :=
    Option.isSome_iff_exists.1 (by decide +kernel)
  have hversion : ((w.run after).engine.tree.lookup "/a").map (·.stat.version) =
      (w.engine.tree.lookup "/a").map (·.stat.version) := by decide +kernel
  have hdata : ((w.run after).engine.tree.lookup "/a").map Node.data ≠
      (w.engine.tree.lookup "/a").map Node.data := by decide +kernel
  rw [hn, hm] at hversion hdata
  refine ⟨.refl, .refl, ⟨_, lookup_initial "/", ?_⟩, n, m, hn, hm, ?_, ?_, ?_⟩
  · exact htrees [] [] initial initial .refl .refl "/" _ _ (lookup_initial "/")
      (lookup_initial "/") ⟨by decide, by decide⟩
  · exact hruns [] initial (.start 0) before after .refl (by decide +kernel) (by decide +kernel)
      "/a" n m hn hm ⟨by decide +kernel, by decide +kernel⟩
  · exact Option.some.inj hversion
  · exact fun he => hdata (congrArg some he)

end Tree

end Coordination
