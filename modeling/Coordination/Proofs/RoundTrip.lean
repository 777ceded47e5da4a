import Coordination.Proofs.CodecLaws
import Coordination.Proofs.Recovery

namespace Coordination

def Op.InRange : Op → Prop
  | .create .. => True
  | .delete _ v => -2 ^ 31 ≤ v ∧ v < 2 ^ 31
  | .setData _ _ v => -2 ^ 31 ≤ v ∧ v < 2 ^ 31
  | .check _ v => -2 ^ 31 ≤ v ∧ v < 2 ^ 31

structure Record.InRange (r : Record) : Prop where
  zxid : r.zxid < 2 ^ 64
  time : -2 ^ 63 ≤ r.time ∧ r.time < 2 ^ 63
  session : r.session < 2 ^ 64
  ops : ∀ o ∈ r.ops, o.InRange

namespace Format

variable {F G : Type} [Output F] [Input G] [Faithful F G] {levels : Nat}

theorem returns_nat64 {n : Nat} (h : n < 2 ^ 64) : Codec.nat64.Returns F G levels n :=
  Codec.returns_nat (Nat.le_refl _) h

theorem returns_int64 {i : Int} (h : -2 ^ 63 ≤ i ∧ i < 2 ^ 63) :
    Codec.int64.Returns F G levels i :=
  Codec.returns_int (by decide) (by decide) (by omega)

theorem returns_int32 {i : Int} (h : -2 ^ 31 ≤ i ∧ i < 2 ^ 31) :
    Codec.int32.Returns F G levels i :=
  Codec.returns_int (by decide) (by decide) (by omega)

theorem returns_mode (m : CreateMode) : modeCodec.Returns F G levels m := by
  apply Codec.returns_choice
  · decide
  · rcases m with ⟨_ | _, _ | _⟩ <;> decide

theorem returns_eventKind (k : EventKind) : eventKindCodec.Returns F G levels k := by
  apply Codec.returns_choice
  · decide
  · cases k <;> decide

theorem returns_event (e : Event) : eventCodec.Returns F G (levels + 1) e := by
  apply Codec.Returns.record _ _ rfl rfl
  · apply Fields.Returns.cons (Codec.returns_text e.path)
    apply Fields.Returns.cons (returns_eventKind e.kind)
    exact Fields.returns_done
  · simp

theorem returns_op {o : Op} (h : o.InRange) : opCodec.Returns F G (levels + 3) o := by
  apply Codec.Returns.sum
  · simp [Case.fields]
  · -- of the four cases one returns the operation, and the others pass it by
    simp only [List.forall_mem_cons]
    cases o with
    | create p d m =>
        refine ⟨.inr ⟨_, Case.Returns.of_fields ?_ (by simp) _ rfl rfl⟩, .inl rfl, .inl rfl,
          .inl rfl, by simp⟩
        apply Fields.Returns.cons (Codec.returns_text p)
        apply Fields.Returns.cons (Codec.returns_bytes d)
        apply Fields.Returns.cons (returns_mode m)
        exact Fields.returns_done
    | delete p v =>
        refine ⟨.inl rfl, .inr ⟨_, Case.Returns.of_fields ?_ (by simp) _ rfl rfl⟩, .inl rfl,
          .inl rfl, by simp⟩
        apply Fields.Returns.cons (Codec.returns_text p)
        apply Fields.Returns.cons (returns_int32 h)
        exact Fields.returns_done
    | setData p d v =>
        refine ⟨.inl rfl, .inl rfl, .inr ⟨_, Case.Returns.of_fields ?_ (by simp) _ rfl rfl⟩,
          .inl rfl, by simp⟩
        apply Fields.Returns.cons (Codec.returns_text p)
        apply Fields.Returns.cons (Codec.returns_bytes d)
        apply Fields.Returns.cons (returns_int32 h)
        exact Fields.returns_done
    | check p v =>
        refine ⟨.inl rfl, .inl rfl, .inl rfl,
          .inr ⟨_, Case.Returns.of_fields ?_ (by simp) _ rfl rfl⟩, by simp⟩
        apply Fields.Returns.cons (Codec.returns_text p)
        apply Fields.Returns.cons (returns_int32 h)
        exact Fields.returns_done
  · cases o <;> exact Option.some_ne_none _

theorem returns_record {r : Record} (h : r.InRange) : recordCodec.Returns F G (levels + 5) r := by
  apply Codec.Returns.record _ _ rfl rfl
  · apply Fields.Returns.cons (returns_nat64 h.zxid)
    apply Fields.Returns.cons (returns_int64 h.time)
    apply Fields.Returns.cons (returns_nat64 h.session)
    apply Fields.Returns.cons (Codec.Returns.list fun o ho => returns_op (h.ops o ho))
    apply Fields.Returns.cons (Codec.Returns.list fun e _ => returns_event e)
    exact Fields.returns_done
  · simp

end Format

theorem Record.InRange.writable {r : Record} (h : r.InRange) (hshort : r.toBytes.length < 2 ^ 32) :
    r.Writable where
  short := hshort
  readBack := by
    have hreturns : Format.recordCodec.Returns Format.Pack Format.Pack.Limited (0 + 5) r :=
      Format.returns_record h
    have hback := hreturns.ofBytes?_toBytes (by decide) hshort []
    rwa [List.append_nil] at hback

namespace Journal

def Volume.appendAll (v : Volume) : List Record → Except Fault Volume
  | [] => .ok v
  | r :: rs =>
      match Sink.append r v with
      | (.error e, _) => .error e
      | (.ok (), v) => v.appendAll rs

/-- A journal opened, as it is or after a repair, and the records that are then appended. -/
structure Stint where
  repairs : Bool
  durability : Durability
  records : List Record

def Stint.opened (s : Stint) (d : Disk) : Except Fault Volume :=
  if s.repairs then (d.recover s.durability).map (·.2) else d.openLog s.durability

def appended (ss : List Stint) : List Record := ss.flatMap Stint.records

def Disk.runAll (d : Disk) : List Stint → Except Fault Disk
  | [] => .ok d
  | s :: ss =>
      match s.opened d with
      | .error e => .error e
      | .ok v =>
          match v.appendAll s.records with
          | .error e => .error e
          | .ok v => v.disk.runAll ss

variable {d : Disk} {v : Volume} {rs : List Record} {durability : Durability}

structure Disk.Stores (d : Disk) (rs : List Record) : Prop where
  site : d.site = .file
  file : (d.present = none ∧ rs = []) ∨
    ∃ n, d.present = some n ∧ d.files[n]? = some (journalBytes rs)

structure Volume.Stores (v : Volume) (rs : List Record) : Prop where
  site : v.disk.site = .file
  file : ∃ n k, v.disk.present = some n ∧ v.log = .file (some (.file n)) k ∧
    v.disk.files[n]? = some (journalBytes rs)

theorem Volume.Stores.disk (h : v.Stores rs) : v.disk.Stores rs := by
  obtain ⟨n, k, hpresent, -, hfile⟩ := h.file
  exact ⟨h.site, .inr ⟨n, hpresent, hfile⟩⟩

theorem Disk.Stores.content (h : d.Stores rs) : d.content?.getD [] = journalBytes rs := by
  rcases h.file with ⟨hnone, rfl⟩ | ⟨n, hpresent, hfile⟩
  · rw [content?, hnone]
    rfl
  · rw [content?, hpresent, Option.bind_some, hfile, Option.getD_some]

theorem Disk.Stores.holds (h : d.Stores rs) (hw : ∀ r ∈ rs, r.Writable) : d.Holds rs := by
  refine ⟨h.site, h.file.imp id ?_, hw⟩
  rintro ⟨n, hpresent, hfile⟩
  exact ⟨n, [], hpresent, by rw [hfile, List.append_nil], rfl⟩

theorem Disk.Stores.scan (h : d.Stores rs) (hw : ∀ r ∈ rs, r.Writable) :
    d.scan = .ok
      { records := rs
        validLength := (journalBytes rs).length
        fileLength := (journalBytes rs).length } := by
  rcases h.file with ⟨hnone, rfl⟩ | ⟨n, hpresent, hfile⟩
  · simp only [Disk.scan, h.site, content?, hnone]
    rfl
  · have hall : d.files[n]? = some (journalBytes rs ++ []) := by rw [hfile, List.append_nil]
    have hscan := scan_present (h.holds hw) hpresent hall rfl
    rwa [List.append_nil] at hscan

theorem Disk.Stores.openLog (h : d.Stores rs) (hd : durability ≠ .none) :
    ∃ v, d.openLog durability = .ok v ∧ v.Stores rs ∧ v.disk.capacity = d.capacity := by
  rcases h.file with ⟨hnone, rfl⟩ | ⟨n, hpresent, hfile⟩
  · have hnew : d.ensureFile = (d.files.length,
        { d with files := d.files ++ [[]], present := some d.files.length }) := by
      simp only [ensureFile, hnone]
    refine ⟨_, openLog_file h.site hd, ?_⟩
    rw [hnew]
    exact ⟨⟨h.site, d.files.length, 0, rfl, rfl, by simp [journalBytes]⟩, rfl⟩
  · refine ⟨_, openLog_present h.site hpresent durability, ⟨h.site, n, 0, hpresent, ?_, hfile⟩, rfl⟩
    simp only [if_neg hd]

theorem Disk.Stores.recover (h : d.Stores rs) (hw : ∀ r ∈ rs, r.Writable)
    (hd : durability ≠ .none) :
    ∃ v, d.recover durability = .ok (rs, v) ∧ v.Stores rs ∧ v.disk.capacity = d.capacity := by
  obtain ⟨v, n, hrecover, hsite, hpresent, hlog, hfile, hcapacity⟩ := (h.holds hw).recover hd
  exact ⟨v, hrecover, ⟨hsite, n, 0, hpresent, hlog, hfile⟩, hcapacity⟩

theorem Stint.opened_stores {s : Stint} (h : d.Stores rs) (hw : ∀ r ∈ rs, r.Writable)
    (hd : s.durability ≠ .none) :
    ∃ v, s.opened d = .ok v ∧ v.Stores rs ∧ v.disk.capacity = d.capacity := by
  unfold opened
  split
  · obtain ⟨v, hrecover, hv⟩ := h.recover hw hd
    exact ⟨v, by rw [hrecover]; rfl, hv⟩
  · exact h.openLog hd

variable {v' : Volume} {r : Record}

theorem Volume.Stores.append (h : v.Stores rs) (happend : Sink.append r v = (.ok (), v')) :
    v'.Stores (rs ++ [r]) ∧ v'.disk.capacity = v.disk.capacity := by
  obtain ⟨n, k, hpresent, hlog, hfile⟩ := h.file
  obtain ⟨hsite, hpresent', hcapacity, hlog', hfile', -⟩ := Store.append_file hlog hfile happend
  refine ⟨⟨hsite.trans h.site, n, k + 1, hpresent'.trans hpresent, hlog', ?_⟩, hcapacity⟩
  rw [hfile', journalBytes_concat]

theorem Volume.Stores.exists_append (h : v.Stores rs)
    (hroom : (journalBytes (rs ++ [r])).length ≤ v.disk.capacity.toNat) :
    ∃ v', Sink.append r v = (.ok (), v') := by
  obtain ⟨n, k, -, hlog, hfile⟩ := h.file
  rw [journalBytes_concat] at hroom
  exact Store.exists_append hlog hfile hroom

theorem Volume.Stores.appendAll {more : List Record} (h : v.Stores rs)
    (happended : v.appendAll more = .ok v') :
    v'.Stores (rs ++ more) ∧ v'.disk.capacity = v.disk.capacity := by
  induction more generalizing v rs with
  | nil =>
      obtain rfl : v = v' := Except.ok.inj happended
      exact ⟨(List.append_nil rs).symm ▸ h, rfl⟩
  | cons r more ih =>
      rw [Volume.appendAll] at happended
      split at happended
      · cases happended
      · rename_i v₁ happend
        obtain ⟨hone, hcapacity⟩ := h.append happend
        obtain ⟨hall, hcapacity'⟩ := ih hone happended
        rw [List.append_assoc, List.singleton_append] at hall
        exact ⟨hall, hcapacity'.trans hcapacity⟩

theorem Volume.Stores.exists_appendAll {more : List Record} (h : v.Stores rs)
    (hroom : (journalBytes (rs ++ more)).length ≤ v.disk.capacity.toNat) :
    ∃ v', v.appendAll more = .ok v' := by
  induction more generalizing v rs with
  | nil => exact ⟨v, rfl⟩
  | cons r more ih =>
      rw [List.append_cons] at hroom
      have hfirst := Nat.le_trans (length_journalBytes_le (rs ++ [r]) more) hroom
      obtain ⟨v₁, happend⟩ := h.exists_append hfirst
      obtain ⟨hone, hcapacity⟩ := h.append happend
      obtain ⟨v', hrest⟩ := ih hone (hcapacity ▸ hroom)
      exact ⟨v', by rw [Volume.appendAll, happend]; exact hrest⟩

theorem Disk.Stores.runAll {ss : List Stint} {d' : Disk} (h : d.Stores rs)
    (hw : ∀ r ∈ rs ++ appended ss, r.Writable) (hd : ∀ s ∈ ss, s.durability ≠ .none)
    (hrun : d.runAll ss = .ok d') : d'.Stores (rs ++ appended ss) := by
  induction ss generalizing d rs with
  | nil =>
      obtain rfl : d = d' := Except.ok.inj hrun
      exact (List.append_nil rs).symm ▸ h
  | cons s ss ih =>
      rw [appended, List.flatMap_cons, ← List.append_assoc] at hw ⊢
      obtain ⟨v, hopened, hv, -⟩ :=
        Stint.opened_stores h (fun r hr => hw r (by simp [hr])) (hd s (by simp))
      simp only [Disk.runAll, hopened] at hrun
      split at hrun
      · cases hrun
      · rename_i v' happended
        exact ih (hv.appendAll happended).1.disk hw (fun s' hs' => hd s' (by simp [hs'])) hrun

theorem Disk.Stores.exists_runAll {ss : List Stint} (h : d.Stores rs)
    (hw : ∀ r ∈ rs ++ appended ss, r.Writable) (hd : ∀ s ∈ ss, s.durability ≠ .none)
    (hroom : (journalBytes (rs ++ appended ss)).length ≤ d.capacity.toNat) :
    ∃ d', d.runAll ss = .ok d' := by
  induction ss generalizing d rs with
  | nil => exact ⟨d, rfl⟩
  | cons s ss ih =>
      rw [appended, List.flatMap_cons, ← List.append_assoc] at hw hroom
      obtain ⟨v, hopened, hv, hcapacity⟩ :=
        Stint.opened_stores h (fun r hr => hw r (by simp [hr])) (hd s (by simp))
      have hfirst := Nat.le_trans (length_journalBytes_le (rs ++ s.records) _) hroom
      obtain ⟨v', happended⟩ := hv.exists_appendAll (hcapacity ▸ hfirst)
      obtain ⟨hv', hcapacity'⟩ := hv.appendAll happended
      have hroom' : (journalBytes (rs ++ s.records ++ appended ss)).length ≤
          v'.disk.capacity.toNat := by
        rw [hcapacity', hcapacity]
        exact hroom
      obtain ⟨d', hrest⟩ := ih hv'.disk hw (fun s' hs' => hd s' (by simp [hs'])) hroom'
      exact ⟨d', by simp only [Disk.runAll, hopened, happended, hrest]⟩

theorem completeCount_le (kept : Nat) (rs : List Record) : completeCount kept rs ≤ rs.length := by
  induction rs generalizing kept with
  | nil => exact Nat.le_refl _
  | cons r rs ih =>
      rw [completeCount]
      split
      · exact Nat.succ_le_succ (ih _)
      · exact Nat.zero_le _

theorem le_completeCount_iff {kept j : Nat} (hj : j ≤ rs.length) :
    j ≤ completeCount kept rs ↔ (journalBytes (rs.take j)).length ≤ kept := by
  induction rs generalizing kept j with
  | nil => simp_all [journalBytes]
  | cons r rs ih =>
      cases j with
      | zero => simp [journalBytes]
      | succ j =>
          have hcons :
              journalBytes ((r :: rs).take (j + 1)) = r.frame ++ journalBytes (rs.take j) :=
            List.flatMap_cons
          have hrest : j ≤ completeCount (kept - r.frame.length) rs ↔
              (journalBytes (rs.take j)).length ≤ kept - r.frame.length :=
            ih (Nat.le_of_succ_le_succ hj)
          rw [completeCount, hcons, List.length_append]
          split <;> omega

theorem scan_take (hw : ∀ r ∈ rs, r.Writable) (n : Nat) :
    scan ((journalBytes rs).take n) =
      .ok { records := rs.take (completeCount n rs)
            validLength := (journalBytes (rs.take (completeCount n rs))).length
            fileLength := min n (journalBytes rs).length } := by
  obtain ⟨tail, htake, hnone⟩ := take_journalBytes hw n
  have hkept : ∀ r ∈ rs.take (completeCount n rs), r.Writable :=
    fun r hr => hw r (List.mem_of_mem_take hr)
  have hscan := scan_journalBytes hkept hnone
  rwa [← htake, List.length_take] at hscan

/-- Records that are appended to an empty journal, however often it is opened anew in between, are
what a scan of it gives back, and a scan of its first bytes gives those whose frames lie in them
whole. They can be appended as long as there is room for them. -/
theorem scan_appended (hsite : d.site = .file) (hempty : d.present = none ∨ d.content? = some [])
    (ss : List Stint) (hdurable : ∀ s ∈ ss, s.durability ≠ .none)
    (hrange : ∀ r ∈ appended ss, r.InRange)
    (hshort : ∀ r ∈ appended ss, r.toBytes.length < 2 ^ 32) :
    ((journalBytes (appended ss)).length ≤ d.capacity.toNat → ∃ d', d.runAll ss = .ok d') ∧
    ∀ d', d.runAll ss = .ok d' → d'.content?.getD [] = journalBytes (appended ss) ∧
      d'.scan = .ok
        { records := appended ss, validLength := d'.length, fileLength := d'.length } ∧
      ∀ n, ∃ k ≤ (appended ss).length,
        (∀ j ≤ (appended ss).length,
          j ≤ k ↔ (journalBytes ((appended ss).take j)).length ≤ n) ∧
        scan ((journalBytes (appended ss)).take n) = .ok
          { records := (appended ss).take k
            validLength := (journalBytes ((appended ss).take k)).length
            fileLength := min n d'.length } := by
  have hw : ∀ r ∈ appended ss, r.Writable := fun r hr => (hrange r hr).writable (hshort r hr)
  have hstart : d.Stores [] := by
    refine ⟨hsite, ?_⟩
    rcases hempty with hnone | hnil
    · exact .inl ⟨hnone, rfl⟩
    · obtain ⟨n, hpresent, hfile⟩ := Option.bind_eq_some_iff.1 hnil
      exact .inr ⟨n, hpresent, hfile⟩
  refine ⟨fun hroom => hstart.exists_runAll hw hdurable hroom, fun d' hrun => ?_⟩
  have hd' := hstart.runAll hw hdurable hrun
  rw [List.nil_append] at hd'
  have hcontent := hd'.content
  have hlength : d'.length = (journalBytes (appended ss)).length := congrArg List.length hcontent
  refine ⟨hcontent, ?_, fun n => ?_⟩
  · rw [hlength]
    exact hd'.scan hw
  · rw [hlength]
    exact ⟨completeCount n (appended ss), completeCount_le n _, fun j hj => le_completeCount_iff hj,
      scan_take hw n⟩

def lowest : Record :=
  { zxid := 0, time := -9223372036854775808, session := 0
    ops := [.delete "/ä" (-2147483648), .check "/" (-1)], events := [] }

def highest : Record :=
  { zxid := 18446744073709551615, time := 9223372036854775807, session := 18446744073709551615
    ops := [.create "/é-" [0, 200] .ephemeralSequential, .setData "/" [] 2147483647]
    events := [⟨"/é-0000000007", .created⟩] }

theorem scan_appended_extremes :
    lowest.InRange ∧ highest.InRange ∧
      ∃ d', (Disk.blank .file).runAll
          [{ repairs := false, durability := .async, records := [lowest] },
            { repairs := true, durability := .sync, records := [highest] }] = .ok d' ∧
        d'.scan = .ok
          { records := [lowest, highest], validLength := d'.length, fileLength := d'.length } ∧
        scan ((journalBytes [lowest, highest]).take 49) = .ok
          { records := [lowest], validLength := 47, fileLength := 49 } := by
  have hlow : lowest.InRange := ⟨by decide, by decide, by decide, by simp [lowest, Op.InRange]⟩
  have hhigh : highest.InRange := ⟨by decide, by decide, by decide, by simp [highest, Op.InRange]⟩
  refine ⟨hlow, hhigh, ?_⟩
  obtain ⟨hroom, hruns⟩ :=
    scan_appended (rfl : (Disk.blank .file).site = .file) (.inl rfl)
      [{ repairs := false, durability := .async, records := [lowest] },
        { repairs := true, durability := .sync, records := [highest] }]
      (by decide) (by simp [appended, hlow, hhigh]) (by decide +kernel)
  obtain ⟨d', hrun⟩ := hroom (by decide +kernel)
  obtain ⟨hcontent, hscan, hcut⟩ := hruns d' hrun
  obtain ⟨k, hk, hwhole, htorn⟩ := hcut 49
  have hone : k = 1 := by
    have hfirst := (hwhole 1 (by decide)).2 (by decide +kernel)
    have hsecond : ¬ 2 ≤ k := fun h => absurd ((hwhole 2 (by decide)).1 h) (by decide +kernel)
    omega
  have hlength : d'.length = 165 := (congrArg List.length hcontent).trans (by decide +kernel)
  have hvalid : (journalBytes [lowest]).length = 47 := by decide +kernel
  rw [hone, hlength] at htorn
  refine ⟨d', hrun, hscan, htorn.trans ?_⟩
  simp only [appended, List.flatMap_cons, List.flatMap_nil, List.singleton_append, List.append_nil,
    List.take_succ_cons, List.take_zero, hvalid, Nat.reduceLeDiff, Nat.min_eq_left]

end Journal

end Coordination
