import Coordination.Proofs.Frames
import Coordination.Store

namespace Coordination.Journal.Disk

variable {d : Disk} {n : Nat} {bs tail : Bytes} {payloads : List Bytes} {durability : Durability}
  {s : Scan}

theorem scan_content (hsite : d.site = .file) (hpresent : d.present = some n)
    (hfile : d.files[n]? = some bs) : d.scan = Journal.scan bs := by
  simp only [scan, hsite, content?, hpresent, Option.bind_some, hfile]

theorem openLog_file (hsite : d.site = .file) (hd : durability ≠ .none) :
    d.openLog durability =
      .ok { disk := d.ensureFile.2, log := .file (some (.file d.ensureFile.1)) 0 } := by
  simp only [openLog, createDirectory, hsite, if_neg hd, openTarget]

theorem openLog_present (hsite : d.site = .file) (hpresent : d.present = some n)
    (durability : Durability) :
    d.openLog durability =
      .ok { disk := d, log := .file (if durability = .none then none else some (.file n)) 0 } := by
  by_cases hd : durability = .none
  · simp only [openLog, createDirectory, hsite, if_pos hd]
  · rw [openLog_file hsite hd, if_neg hd]
    simp only [ensureFile, hpresent]

theorem modifyFile_eq_self {f : Bytes → Bytes} (hfile : d.files[n]? = some bs) (hf : f bs = bs) :
    d.modifyFile n f = d := by
  have hfiles : d.files.modify n f = d.files := by
    apply List.ext_getElem?
    intro i
    rw [List.getElem?_modify]
    by_cases hi : n = i
    · subst hi
      simp [hfile, hf]
    · simp [hi]
  rw [modifyFile, hfiles]

theorem append_eq_ok {d' : Disk} :
    d.append bs (.file n) = (.ok (), d') ↔
      bs.length ≤ d.capacity.toNat - (d.files.getD n []).length ∧
        d' = d.modifyFile n (· ++ bs) := by
  simp only [append]
  split <;> rename_i hroom
  · rw [List.take_of_length_le hroom]
    simp only [hroom, Prod.mk.injEq, true_and]
    exact eq_comm
  · simp only [hroom, Prod.mk.injEq, reduceCtorEq, false_and]

theorem repair_eq (hpresent : d.present = some n) (hfile : d.files[n]? = some bs)
    (hlength : s.fileLength = bs.length) : d.repair s = d.modifyFile n (·.take s.validLength) := by
  unfold repair
  split <;> rename_i hcut
  · simp only [modifyPresent, hpresent]
  · have hall : bs.take s.validLength = bs := List.take_of_length_le (by omega)
    exact (modifyFile_eq_self hfile hall).symm

theorem recover_ok {v : Volume} (hscan : d.scan = .ok s)
    (hopen : (d.repair s).openLog durability = .ok v) :
    d.recover durability = .ok (s.records, v) := by
  simp only [Disk.recover, hscan, hopen]

theorem recover_present (hsite : d.site = .file) (hpresent : d.present = some n)
    (hfile : d.files[n]? = some bs) (hscan : d.scan = .ok s) (hlength : s.fileLength = bs.length)
    (durability : Durability) :
    d.recover durability = .ok (s.records,
      { disk := d.modifyFile n (·.take s.validLength)
        log := .file (if durability = .none then none else some (.file n)) 0 }) := by
  apply recover_ok hscan
  rw [repair_eq hpresent hfile hlength]
  exact openLog_present (d := d.modifyFile n _) hsite hpresent durability

theorem recover_error {f : Fault} (hscan : d.scan = .error f) (durability : Durability) :
    d.recover durability = .error f := by
  simp only [recover, hscan]

theorem openOn_error {f : Fault} {config : Config} (hscan : d.scan = .error f)
    (hcheck : config.check = .ok ()) (hj : config.isJournaled = true) :
    Store.openOn d config = .error (f, d) := by
  simp only [Store.openOn, hcheck, hj, if_true, recover_error hscan]

/-- For a file with any bytes: a scan fails just when a frame of it holds no record, and then a
recovery fails as well and no store opens, and the disk is what it was. Otherwise both give what the
frames hold, the recovery leaves the frames and nothing else, and from then on there is nothing to
repair. -/
theorem scan_repairs (hsite : d.site = .file) (hpresent : d.present = some n)
    (hfile : d.files[n]? = some bs) :
    ∃ payloads tail, Cut bs payloads tail ∧
      (∀ payloads' tail', Cut bs payloads' tail' → payloads' = payloads ∧ tail' = tail) ∧
      ((∃ f, d.scan = .error f) ↔ ∃ payload ∈ payloads, Record.ofBytes? payload = none) ∧
      (∀ f, d.scan = .error f → (∀ durability, d.recover durability = .error f) ∧
        ∀ config, config.check = .ok () → config.isJournaled = true →
          Store.openOn d config = .error (f, d)) ∧
      ∀ s, d.scan = .ok s → payloads.map Record.ofBytes? = s.records.map some ∧
        s.validLength = framesLength payloads ∧ s.validLength ≤ bs.length ∧
        s.fileLength = bs.length ∧
        ∀ durability, ∃ v, d.recover durability = .ok (s.records, v) ∧
          v.disk = d.modifyFile n (·.take s.validLength) ∧
          v.disk.content? = some (bs.take s.validLength) ∧
          v.disk.scan = .ok { s with fileLength := s.validLength } ∧
          ∀ again, ∃ v', v.disk.recover again = .ok (s.records, v') ∧ v'.disk = v.disk := by
  obtain ⟨payloads, tail, hcut⟩ := exists_cut bs
  have hscan := scan_content hsite hpresent hfile
  refine ⟨payloads, tail, hcut, fun _ _ h => h.unique hcut, ?_, ?_, ?_⟩
  · simp only [hscan, hcut.scan_eq_error_iff, exists_eq_left]
  · exact fun f hf => ⟨recover_error hf, fun config => openOn_error hf⟩
  · intro s hs
    obtain ⟨hrecords, hvalid, hlength⟩ := hcut.scan_eq_ok_iff.1 (hscan.symm.trans hs)
    obtain ⟨front, hbs, hfront⟩ := hcut.take
    have hlen := hfront.length_eq
    have htake : bs.take s.validLength = front := by
      rw [hvalid, hbs]
      exact List.take_left' hlen
    have hle : s.validLength ≤ bs.length := by
      rw [hvalid, hcut.length_eq]
      exact Nat.le_add_right _ _
    refine ⟨hrecords, hvalid, hle, hlength, fun durability => ?_⟩
    have hfile' : (d.modifyFile n (·.take s.validLength)).files[n]? = some front := by
      simp [modifyFile, hfile, htake]
    have hscan' : (d.modifyFile n (·.take s.validLength)).scan =
        .ok { s with fileLength := s.validLength } := by
      rw [scan_content (d := d.modifyFile n _) hsite hpresent hfile', hfront.scan_eq_ok_iff]
      exact ⟨hrecords, hvalid, hvalid.trans hlen.symm⟩
    refine ⟨_, recover_present hsite hpresent hfile hs hlength durability, rfl, ?_, hscan',
      fun again => ?_⟩
    · rw [htake, ← hfile']
      exact congrArg (Option.bind · _) hpresent
    · -- the disk that is left holds the frames alone, and to cut behind them changes nothing
      have hsame : front.take s.validLength = front :=
        List.take_of_length_le (Nat.le_of_eq (hvalid.trans hlen.symm).symm)
      have hagain := recover_present (d := d.modifyFile n _) hsite hpresent hfile' hscan'
        (hvalid.trans hlen.symm) again
      exact ⟨_, hagain, modifyFile_eq_self hfile' hsame⟩

/-- A whole record and a part of one more. Another file, which is no longer at the path, stays. -/
def torn : Disk :=
  { site := .file
    files := [[1, 0, 0, 0, 193], [6, 0, 0, 0, 149, 1, 2, 3, 144, 144, 6, 0, 0, 0, 149, 1]]
    present := some 1
    capacity := 16 }

theorem scan_repairs_torn :
    torn.scan = .ok { records := [⟨1, 2, 3, [], []⟩], validLength := 10, fileLength := 16 } ∧
      ∃ v, torn.recover .sync = .ok ([⟨1, 2, 3, [], []⟩], v) ∧
        v.disk = torn.modifyFile 1 (·.take 10) ∧
        v.disk.scan =
          .ok { records := [⟨1, 2, 3, [], []⟩], validLength := 10, fileLength := 10 } := by
  have hscan : torn.scan =
      .ok { records := [⟨1, 2, 3, [], []⟩], validLength := 10, fileLength := 16 } := by
    have hcut : Cut ([6, 0, 0, 0] ++ ([149, 1, 2, 3, 144, 144] ++ [6, 0, 0, 0, 149, 1]))
        [[149, 1, 2, 3, 144, 144]] [6, 0, 0, 0, 149, 1] :=
      .frame rfl rfl (.torn (.inr (by decide)))
    exact hcut.scan_eq_ok_iff.2 ⟨by decide +kernel, rfl, rfl⟩
  obtain ⟨payloads, tail, -, -, -, -, hok⟩ := scan_repairs (d := torn) rfl rfl rfl
  obtain ⟨-, -, -, -, hrecover⟩ := hok _ hscan
  obtain ⟨v, hv, hdisk, -, hagain, -⟩ := hrecover .sync
  exact ⟨hscan, v, hv, hdisk, hagain⟩

end Coordination.Journal.Disk
