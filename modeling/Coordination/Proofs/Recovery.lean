import Coordination.Proofs.Framing
import Coordination.Proofs.Moves
import Coordination.Proofs.Repair
import Coordination.Proofs.Replay

namespace Coordination

open Journal (Disk Sink Volume journalBytes completeCount)

/-- A committed batch: its record, and the tree that was published with it. -/
structure Milestone where
  record : Record
  tree : Tree

abbrev Course := List Milestone

namespace Course

variable (hs : Course)

def records : List Record := hs.map Milestone.record

def endTree : Tree := (hs.getLast?.map Milestone.tree).getD .initial

def lastZxid : Zxid := (hs.records.getLast?.map Record.zxid).getD 0

def Explained : Prop := ∀ k, replay (records (hs.take k)) = .ok (endTree (hs.take k))

def Numbered : Prop := hs.records.map Record.zxid = List.range' 1 hs.length

variable {hs}

theorem Explained.replay (h : hs.Explained) : replay hs.records = .ok hs.endTree := by
  have hall := h hs.length
  rwa [List.take_length] at hall

theorem Explained.take (h : hs.Explained) (k : Nat) : Explained (hs.take k) := by
  intro j
  rw [List.take_take]
  exact h _

theorem Explained.lastZxid (h : hs.Explained) : hs.endTree.lastZxid = hs.lastZxid :=
  Tree.lastZxid_replayFrom h.replay

theorem records_concat (hs : Course) (m : Milestone) :
    records (hs ++ [m]) = hs.records ++ [m.record] :=
  List.map_append

theorem endTree_concat (hs : Course) (m : Milestone) : endTree (hs ++ [m]) = m.tree := by
  simp [endTree]

theorem Explained.concat (h : hs.Explained) {m : Milestone} {plan : Plan}
    (hz : hs.endTree.lastZxid < m.record.zxid)
    (hplan : hs.endTree.plan m.record.ops m.record.stamp = .ok plan)
    (htree : m.tree = (hs.endTree.commit plan).tree) : Explained (hs ++ [m]) := by
  intro k
  by_cases hk : k ≤ hs.length
  · rw [List.take_append_of_le_length hk]
    exact h k
  · have hall : (hs ++ [m]).take k = hs ++ [m] := by
      apply List.take_of_length_le
      rw [List.length_append, List.length_singleton]
      omega
    have hone : hs.endTree.replayOne m.record = .ok m.tree :=
      Tree.replayOne_eq_ok.2 ⟨hz, plan, hplan, htree.symm⟩
    rw [hall, endTree_concat, records_concat]
    exact Tree.replayFrom_concat_eq_ok.2 ⟨_, h.replay, hone⟩

theorem explained_nil : Explained [] := by
  intro k
  rw [List.take_nil]
  rfl

theorem Numbered.take (h : hs.Numbered) (k : Nat) : Numbered (hs.take k) := by
  rcases Nat.le_total k hs.length with hk | hk
  · obtain ⟨rest, hrest⟩ := Nat.exists_eq_add_of_le hk
    rw [Numbered, records, List.map_take, List.map_take, ← records, h, hrest,
      ← List.range'_append_1, List.take_left' List.length_range', List.length_take_of_le hk]
  · rwa [List.take_of_length_le hk]

theorem Numbered.lastZxid (h : hs.Numbered) : hs.lastZxid = hs.length := by
  rw [Course.lastZxid, ← List.getLast?_map, h]
  cases hs with
  | nil => rfl
  | cons m hs => simp [List.getLast?_range']

theorem Numbered.concat (h : hs.Numbered) {m : Milestone} (hz : m.record.zxid = hs.length + 1) :
    Numbered (hs ++ [m]) := by
  rw [Numbered, records_concat, List.map_append, h, List.map_singleton, hz, List.length_append,
    List.length_singleton, List.range'_concat, Nat.one_mul, Nat.add_comm 1]

end Course

namespace Store

open Course

def milestone? (st : Store) : Move → Option Milestone
  | .submit now s ops =>
      let st' := st.move (.submit now s ops)
      if st'.tree.lastZxid = st.tree.lastZxid then none
      else
        match st.tree.plan ops (st.engine.stamp now s) with
        | .error _ => none
        | .ok plan =>
            some
              { record :=
                  { zxid := st'.tree.lastZxid, time := now, session := s, ops
                    events := (st.tree.commit plan).events }
                tree := st'.tree }
  | _ => none

def milestones (st : Store) : List Move → Course
  | [] => []
  | m :: ms => (st.milestone? m).toList ++ (st.move m).milestones ms

variable {st : Store} {hs : Course}

theorem milestone?_of_tree {m : Move} (h : (st.move m).tree = st.tree) :
    st.milestone? m = none := by
  cases m with
  | submit now s ops => simp only [milestone?, h, if_true]
  | _ => rfl

theorem milestone?_of_batch {now : Time} {s : SessionId} {ops : List Op} {plan : Plan}
    (hplan : st.tree.plan ops (st.engine.stamp now s) = .ok plan)
    (htree : (st.move (.submit now s ops)).tree = (st.tree.commit plan).tree) :
    st.milestone? (.submit now s ops) = some
      { record :=
          { zxid := st.tree.lastZxid.next, time := now, session := s, ops
            events := (st.tree.commit plan).events }
        tree := (st.tree.commit plan).tree } := by
  have hz : (st.tree.commit plan).tree.lastZxid = st.tree.lastZxid.next := by
    rw [Tree.lastZxid_commit, Draft.stamp_acceptAll hplan]
    rfl
  have hne : st.tree.lastZxid.next ≠ st.tree.lastZxid := Zxid.next_ne _
  simp only [milestone?, htree, hz, if_neg hne, hplan]

theorem milestone?_eq_some (hp : st.hub.poisoned = false) {m : Move} {y : Milestone}
    (h : st.milestone? m = some y) :
    ∃ now s ops plan, m = .submit now s ops ∧
      st.tree.plan ops (st.engine.stamp now s) = .ok plan ∧
      y = { record :=
              { zxid := st.tree.lastZxid.next, time := now, session := s, ops
                events := (st.tree.commit plan).events }
            tree := (st.tree.commit plan).tree } ∧
      (st.move m).tree = (st.tree.commit plan).tree ∧
      Sink.append y.record st.writer.log = (.ok (), (st.move m).writer.log) ∧
      (st.move m).engine.halted = none := by
  cases (effect hp m).2 with
  | none htree _ _ => exact absurd h (by simp [milestone?_of_tree htree])
  | watches htree _ _ _ _ => exact absurd h (by simp [milestone?_of_tree htree])
  | @batch now s ops plan hm hplan htree happ _ hhalted =>
      subst hm
      rw [milestone?_of_batch hplan htree] at h
      obtain rfl := Option.some.inj h
      exact ⟨now, s, ops, plan, rfl, hplan, rfl, htree, happ, hhalted⟩

theorem append_file {v v' : Volume} {r : Record} {n k : Nat} {bs : Bytes}
    (hlog : v.log = .file (some (.file n)) k) (hfile : v.disk.files[n]? = some bs)
    (h : Sink.append r v = (.ok (), v')) :
    v'.disk.site = v.disk.site ∧ v'.disk.present = v.disk.present ∧
      v'.disk.capacity = v.disk.capacity ∧ v'.log = .file (some (.file n)) (k + 1) ∧
      v'.disk.files[n]? = some (bs ++ r.frame) ∧
      (bs ++ r.frame).length ≤ v.disk.capacity.toNat := by
  simp only [Sink.append, hlog, Disk.append] at h
  split at h
  · cases h
  · rename_i disk happ
    obtain rfl := (Prod.mk.inj h).2
    obtain ⟨hroom, rfl⟩ := Disk.append_eq_ok.1 happ
    refine ⟨rfl, rfl, rfl, rfl, by simp [Disk.modifyFile, hfile], ?_⟩
    rw [List.getD_eq_getElem?_getD, hfile, Option.getD_some, Record.length_frame] at hroom
    rw [List.length_append, Record.length_frame]
    omega

theorem exists_append {v : Volume} {r : Record} {n k : Nat} {bs : Bytes}
    (hlog : v.log = .file (some (.file n)) k) (hfile : v.disk.files[n]? = some bs)
    (hroom : (bs ++ r.frame).length ≤ v.disk.capacity.toNat) :
    ∃ v', Sink.append r v = (.ok (), v') := by
  have hleft : r.frame.length ≤ v.disk.capacity.toNat - (v.disk.files.getD n []).length := by
    rw [List.length_append] at hroom
    rw [List.getD_eq_getElem?_getD, hfile, Option.getD_some]
    omega
  have happend := Disk.append_eq_ok.2 ⟨hleft, rfl⟩
  refine ⟨{ disk := v.disk.modifyFile n (· ++ r.frame), log := .file (some (.file n)) (k + 1) }, ?_⟩
  simp only [Sink.append, hlog, happend]

structure Keeps (st : Store) (hs : Course) : Prop where
  unpoisoned : st.hub.poisoned = false
  site : st.disk.site = .file
  file : ∃ n k, st.disk.present = some n ∧ st.writer.log.log = .file (some (.file n)) k ∧
    st.disk.files[n]? = some (journalBytes hs.records)
  writable : ∀ r ∈ hs.records, r.Writable
  explained : hs.Explained
  numbered : hs.Numbered
  roomy : (journalBytes hs.records).length ≤ st.disk.capacity.toNat
  tree : st.tree = hs.endTree

/-- There are fewer bytes in a file than numbers, and fewer records than bytes. -/
theorem Keeps.lastZxid_lt (h : st.Keeps hs) {r : Record}
    (hroom : (journalBytes hs.records ++ r.frame).length ≤ st.disk.capacity.toNat) :
    st.tree.lastZxid = hs.length ∧ hs.length < maxZxid := by
  refine ⟨by rw [h.tree, h.explained.lastZxid, h.numbered.lastZxid], ?_⟩
  have hlength := Journal.length_le_journalBytes hs.records
  have hsize := st.disk.capacity.toNat_lt
  rw [List.length_append, Record.length_frame] at hroom
  have hrecords : hs.records.length = hs.length := List.length_map _
  rw [hrecords] at hlength
  rw [maxZxid]
  omega

theorem Keeps.move (h : st.Keeps hs) (m : Move) (hrun : (st.move m).engine.halted = none)
    (hw : ∀ y ∈ st.milestone? m, y.record.Writable) :
    (st.move m).Keeps (hs ++ (st.milestone? m).toList) := by
  obtain ⟨hp, heffect⟩ := effect h.unpoisoned m
  have hrest : (st.move m).tree = st.tree → (st.move m).writer.log = st.writer.log →
      (st.move m).Keeps (hs ++ (st.milestone? m).toList) := by
    intro htree hlog
    have hdisk : (st.move m).disk = st.disk := congrArg Volume.disk hlog
    rw [milestone?_of_tree htree, Option.toList_none, List.append_nil]
    exact ⟨hp, hdisk ▸ h.site, hdisk ▸ hlog ▸ h.file, h.writable, h.explained, h.numbered,
      hdisk ▸ h.roomy, htree.trans h.tree⟩
  cases heffect with
  | none htree hlog _ => exact hrest htree (hlog hrun)
  | watches htree hlog _ _ _ => exact hrest htree hlog
  | @batch now s ops plan hm hplan htree happ _ _ =>
      subst hm
      have hone := milestone?_of_batch hplan htree
      rw [hone] at hw ⊢
      obtain ⟨n, k, hpresent, hlog, hfile⟩ := h.file
      obtain ⟨hsite, hpresent', hcapacity, hlog', hfile', hroom⟩ := append_file hlog hfile happ
      obtain ⟨hz, hlt⟩ := h.lastZxid_lt hroom
      have hnext : st.tree.lastZxid.next = hs.length + 1 := by rw [hz, Zxid.next_eq hlt]
      have hend := h.tree
      rw [Option.toList_some]
      constructor
      · exact hp
      · exact hsite.trans h.site
      · refine ⟨n, k + 1, hpresent'.trans hpresent, hlog', ?_⟩
        rw [records_concat, Journal.journalBytes_concat]
        exact hfile'
      · intro r hr
        rw [records_concat, List.mem_append, List.mem_singleton] at hr
        rcases hr with hr | rfl
        · exact h.writable r hr
        · exact hw _ rfl
      · refine h.explained.concat ?_ (hend ▸ hplan) (hend ▸ rfl)
        rw [← hend, hnext, hz]
        exact Nat.lt_succ_self _
      · exact h.numbered.concat hnext
      · rw [records_concat, Journal.journalBytes_concat]
        exact hcapacity ▸ hroom
      · rw [htree, endTree_concat]

theorem Keeps.moveAll (h : st.Keeps hs) (ms : List Move)
    (hrun : (st.moveAll ms).engine.halted = none)
    (hw : ∀ r ∈ (st.milestones ms).records, r.Writable) :
    (st.moveAll ms).Keeps (hs ++ st.milestones ms) := by
  induction ms generalizing st hs with
  | nil => exact (List.append_nil hs).symm ▸ h
  | cons m ms ih =>
      rw [milestones, records, List.map_append] at hw
      rw [milestones]
      have hone := h.move m (halted_moveAll ms hrun) fun y hy =>
        hw _ (List.mem_append_left _ (List.mem_map_of_mem (Option.mem_toList.2 hy)))
      have hrest := ih hone hrun fun r hr => hw r (List.mem_append_right _ hr)
      rw [List.append_assoc] at hrest
      exact hrest

theorem Keeps.readAll (h : st.Keeps hs) : st.disk.readAll = .ok hs.records := by
  obtain ⟨n, k, hpresent, -, hfile⟩ := h.file
  have hnone : Journal.frame? [] = none := rfl
  have hscan := Journal.scan_journalBytes h.writable hnone
  rw [List.append_nil] at hscan
  have hcontent : st.disk.content? = some (journalBytes hs.records) := by
    rw [Disk.content?, hpresent]
    exact hfile
  simp only [Disk.readAll, Disk.scan, h.site, hcontent, hscan, Except.map]

end Store

namespace Journal.Disk

/-- A disk whose journal was cut: whole records, and at most a part of one more. -/
structure Holds (d : Disk) (rs : List Record) : Prop where
  site : d.site = .file
  file : (d.present = none ∧ rs = []) ∨ ∃ n tail, d.present = some n ∧
    d.files[n]? = some (journalBytes rs ++ tail) ∧ frame? tail = none
  writable : ∀ r ∈ rs, r.Writable

variable {d : Disk} {rs : List Record} {n : Nat} {tail : Bytes} {durability : Durability}

theorem scan_present (h : d.Holds rs) (hpresent : d.present = some n)
    (hfile : d.files[n]? = some (journalBytes rs ++ tail)) (htail : frame? tail = none) :
    d.scan = .ok
      { records := rs
        validLength := (journalBytes rs).length
        fileLength := (journalBytes rs ++ tail).length } :=
  (scan_content h.site hpresent hfile).trans (scan_journalBytes h.writable htail)

theorem Holds.readAll (h : d.Holds rs) : d.readAll = .ok rs := by
  rcases h.file with ⟨hnone, rfl⟩ | ⟨n, tail, hpresent, hfile, htail⟩
  · simp [Disk.readAll, Disk.scan, h.site, content?, hnone, Scan.empty, Except.map]
  · rw [Disk.readAll, scan_present h hpresent hfile htail]
    rfl

theorem Holds.recover (h : d.Holds rs) (hd : durability ≠ .none) :
    ∃ v n, d.recover durability = .ok (rs, v) ∧ v.disk.site = .file ∧
      v.disk.present = some n ∧ v.log = .file (some (.file n)) 0 ∧
      v.disk.files[n]? = some (journalBytes rs) ∧ v.disk.capacity = d.capacity := by
  rcases h.file with ⟨hnone, rfl⟩ | ⟨n, tail, hpresent, hfile, htail⟩
  · have hscan : d.scan = .ok .empty := by simp [Disk.scan, h.site, content?, hnone]
    have hopen := openLog_file h.site hd
    refine ⟨_, d.files.length, recover_ok hscan hopen, ?_⟩
    simp [ensureFile, hnone, h.site, journalBytes]
  · have hscan := scan_present h hpresent hfile htail
    refine ⟨_, n, recover_present h.site hpresent hfile hscan rfl durability, ?_⟩
    simp [modifyFile, hfile, h.site, hpresent, hd]

def length (d : Disk) : Nat := (d.content?.getD []).length

theorem capacity_cut (d : Disk) (off : Nat) : (d.cut off).2.capacity = d.capacity := by
  unfold cut modifyPresent
  cases d.present <;> rfl

theorem holds_cut (hsite : d.site = .file) (hpresent : d.present = some n)
    (hfile : d.files[n]? = some (journalBytes rs)) (hw : ∀ r ∈ rs, r.Writable) (off : Nat) :
    (d.cut off).2.Holds (rs.take (completeCount (d.cut off).2.length rs)) := by
  have hcut : (d.cut off).2.files[n]? =
      some ((journalBytes rs).take ((journalBytes rs).length - off)) := by
    simp [cut, hpresent, modifyPresent, modifyFile, hfile]
  have hpresent' : (d.cut off).2.present = some n := by
    simp [cut, hpresent, modifyPresent, modifyFile]
  have hlen : (d.cut off).2.length = (journalBytes rs).length - off := by
    simp [length, content?, hpresent', hcut]
  obtain ⟨tail, htake, htail⟩ := take_journalBytes hw ((journalBytes rs).length - off)
  rw [hlen]
  constructor
  · simp [cut, hpresent, modifyPresent, modifyFile, hsite]
  · exact .inr ⟨n, tail, hpresent', by rw [hcut, htake], htail⟩
  · exact fun r hr => hw r (List.mem_of_mem_take hr)

end Journal.Disk

namespace Store

open Course

variable {st : Store} {hs : Course} {d : Disk} {config : Config}

structure Left (d : Disk) (hs : Course) : Prop where
  holds : d.Holds hs.records
  explained : hs.Explained
  numbered : hs.Numbered
  roomy : (journalBytes hs.records).length ≤ d.capacity.toNat

theorem Left.opens (h : Left d hs) (hcheck : config.check = .ok ())
    (hj : config.isJournaled = true) : ∃ st, openOn d config = .ok st ∧ st.Keeps hs := by
  have hne : config.durability ≠ .none := by
    rw [Config.isJournaled, Bool.and_eq_true] at hj
    simpa using hj.2
  obtain ⟨v, n, hrecover, hsite, hpresent, hlog, hfile, hcapacity⟩ := h.holds.recover hne
  refine ⟨start config hs.endTree v (firstSession hs.records), ?_, ?_⟩
  · simp only [openOn, hcheck, hj, if_true, hrecover, h.explained.replay]
  · exact ⟨rfl, hsite, ⟨n, 0, hpresent, hlog, hfile⟩, h.holds.writable, h.explained, h.numbered,
      hcapacity ▸ h.roomy, rfl⟩

def surviving (d : Disk) (hs : Course) : Course := hs.take (completeCount d.length hs.records)

theorem openOn_checked {st : Store} (h : openOn d config = .ok st) : config.check = .ok () := by
  unfold openOn at h
  split at h
  · cases h
  · assumption

/-- Disks after any number of crashes, with the batches that survive. Each time a store is opened on
the journal and used, no append fails, for that would halt the engine, and then the file loses any
number of bytes at its end. -/
inductive Crashed : Disk → Course → Prop
  | new (capacity : UInt64) : Crashed { Disk.blank .file with capacity } []
  | crash {d : Disk} {hs : Course} {config : Config} {st : Store} {ms : List Move} (off : Nat) :
      Crashed d hs → openOn d config = .ok st → config.isJournaled = true →
      (st.moveAll ms).engine.halted = none →
      (∀ r ∈ (st.milestones ms).records, r.Writable) →
      Crashed ((st.moveAll ms).disk.cut off).2
        (surviving ((st.moveAll ms).disk.cut off).2 (hs ++ st.milestones ms))

theorem Crashed.left (h : Crashed d hs) : Left d hs := by
  induction h with
  | new capacity =>
      exact ⟨⟨rfl, .inl ⟨rfl, rfl⟩, by simp [records]⟩, explained_nil, rfl, Nat.zero_le _⟩
  | @crash d hs config st ms off _ hopen hj hrun hw ih =>
      -- the store that was opened is the one that the disk of the crash before opens on
      obtain ⟨st', hopen', hkeeps⟩ := ih.opens (openOn_checked hopen) hj
      obtain rfl := Except.ok.inj (hopen.symm.trans hopen')
      have hend := hkeeps.moveAll ms hrun hw
      obtain ⟨n, k, hpresent, -, hfile⟩ := hend.file
      refine ⟨?_, hend.explained.take _, hend.numbered.take _, ?_⟩
      · have hcut := Journal.Disk.holds_cut hend.site hpresent hfile hend.writable off
        rw [surviving, records, List.map_take]
        exact hcut
      · rw [surviving, records, List.map_take, Journal.Disk.capacity_cut]
        exact Nat.le_trans (Journal.length_journalBytes_take _ _) hend.roomy

/-- After any crashes the next store opens on the tree of the last batch that survives, its requests
come down to moves, and the batches that these commit are numbered on from there and appended to the
records that survive. -/
theorem reopens (h : Crashed d hs) (hcheck : config.check = .ok ())
    (hj : config.isJournaled = true) :
    d.readAll = .ok hs.records ∧
      ∃ st, openOn d config = .ok st ∧ st.tree = hs.endTree ∧ st.tree.lastZxid = hs.lastZxid ∧
        (∀ calls, ∃ ms, ((Server.host st).run calls).store = st.moveAll ms) ∧
        ∀ ms, (st.moveAll ms).engine.halted = none →
          (∀ r ∈ (st.milestones ms).records, r.Writable) →
          (st.moveAll ms).tree = endTree (hs ++ st.milestones ms) ∧
          (st.moveAll ms).disk.readAll = .ok (hs.records ++ (st.milestones ms).records) ∧
          (st.milestones ms).records.map Record.zxid =
            List.range' (hs.lastZxid + 1) (st.milestones ms).length := by
  have hleft := h.left
  obtain ⟨st, hopen, hkeeps⟩ := hleft.opens hcheck hj
  have hz : st.tree.lastZxid = hs.lastZxid := by
    rw [hkeeps.tree]
    exact hleft.explained.lastZxid
  refine ⟨hleft.holds.readAll, st, hopen, hkeeps.tree, hz, (Server.host st).run_moved,
    fun ms hrun hw => ?_⟩
  have hend := hkeeps.moveAll ms hrun hw
  refine ⟨hend.tree, ?_, ?_⟩
  · rw [hend.readAll, records, List.map_append]
    rfl
  · have hnumbers := hend.numbered
    rw [Numbered, records, List.map_append, List.map_append, List.length_append,
      ← List.range'_append_1, ← records, ← records, hleft.numbered] at hnumbers
    rw [hleft.numbered.lastZxid, Nat.add_comm]
    exact List.append_cancel_left hnumbers

theorem reopens_torn :
    ∃ d hs st, Crashed d hs ∧ hs.length = 1 ∧ (journalBytes hs.records).length < d.length ∧
      openOn d journaled = .ok st ∧ st.tree.lastZxid = 1 ∧
      (st.move (.submit 30 2 [.delete "/a" 0])).disk.readAll = .ok (hs.records ++
        [⟨2, 30, 2, [.delete "/a" 0], [⟨"/a", .deleted⟩, ⟨"/", .childrenChanged⟩]⟩]) := by
  obtain ⟨first, hfirst⟩ : ∃ st, openOn (.blank .file) journaled = .ok st := ⟨_, rfl⟩
  have hrun : (first.moveAll [.connect, .submit 10 1 [.create "/a" [7] .persistent],
      .submit 20 1 [.create "/b" [] .persistent]]).engine.halted = none := by
    obtain rfl := Except.ok.inj hfirst
    decide +kernel
  have hw : ∀ r ∈ (first.milestones [.connect, .submit 10 1 [.create "/a" [7] .persistent],
      .submit 20 1 [.create "/b" [] .persistent]]).records, r.Writable := by
    have hrecords : (first.milestones [.connect, .submit 10 1 [.create "/a" [7] .persistent],
        .submit 20 1 [.create "/b" [] .persistent]]).records =
          [⟨1, 10, 1, [.create "/a" [7] .persistent], [⟨"/a", .created⟩, ⟨"/", .childrenChanged⟩]⟩,
            ⟨2, 20, 1, [.create "/b" [] .persistent],
              [⟨"/b", .created⟩, ⟨"/", .childrenChanged⟩]⟩] := by
      obtain rfl := Except.ok.inj hfirst
      decide +kernel
    rw [hrecords]
    intro r hr
    simp only [List.mem_cons, List.not_mem_nil, or_false] at hr
    rcases hr with rfl | rfl
    · exact ⟨by decide +kernel, by decide +kernel⟩
    · exact ⟨by decide +kernel, by decide +kernel⟩
  have hleft := Crashed.crash 3 (.new _) hfirst rfl hrun hw
  have hcheck : journaled.check = .ok () := rfl
  obtain ⟨-, st, hopen, -, hz, -, hafter⟩ := reopens hleft hcheck rfl
  obtain rfl := Except.ok.inj hfirst
  have hnext := congrArg (fun r => r.toOption.map fun st =>
    (milestones st [.submit 30 2 [.delete "/a" 0]]).records) hopen
  have hrecord : (st.milestones [.submit 30 2 [.delete "/a" 0]]).records =
      [⟨2, 30, 2, [.delete "/a" 0], [⟨"/a", .deleted⟩, ⟨"/", .childrenChanged⟩]⟩] :=
    Option.some.inj (hnext.symm.trans (by decide +kernel))
  have hwnext : ∀ r ∈ (st.milestones [.submit 30 2 [.delete "/a" 0]]).records, r.Writable := by
    rw [hrecord]
    intro r hr
    obtain rfl := List.mem_singleton.1 hr
    exact ⟨by decide +kernel, by decide +kernel⟩
  have hgoes := congrArg (fun r => r.toOption.map fun st =>
    (moveAll st [.submit 30 2 [.delete "/a" 0]]).engine.halted) hopen
  have hrunnext : (st.moveAll [.submit 30 2 [.delete "/a" 0]]).engine.halted = none :=
    Option.some.inj (hgoes.symm.trans (by decide +kernel))
  obtain ⟨-, hread, -⟩ := hafter _ hrunnext hwnext
  rw [hrecord] at hread
  exact ⟨_, _, st, hleft, by decide +kernel, by decide +kernel, hopen, hz.trans (by decide +kernel),
    hread⟩

end Store

end Coordination
