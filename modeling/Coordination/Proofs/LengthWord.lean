import Coordination.Proofs.RoundTrip
import Mathlib.Algebra.BigOperators.Ring.List
import Mathlib.Algebra.Order.BigOperators.Group.List

namespace Coordination

open Journal (Disk Sink Volume journalBytes)

namespace Format.Pack

theorem length_unsignedBytes_le (n : Nat) : (unsignedBytes n).length ≤ 9 := by
  unfold unsignedBytes
  split_ifs <;> simp [length_bigEndian]

theorem length_unsignedBytes_byte (b : UInt8) : (unsignedBytes b.toNat).length ≤ 2 := by
  have hb := b.toNat_lt
  unfold unsignedBytes
  split_ifs <;> simp [length_bigEndian]

theorem length_signedBytes_le (i : Int) : (signedBytes i).length ≤ 9 := by
  unfold signedBytes
  split_ifs <;> simp [length_bigEndian]

theorem length_textHead_le (n : Nat) : (textHead n).length ≤ 5 := by
  unfold textHead
  split_ifs <;> simp [length_bigEndian]

theorem length_arrayHead_le (n : Nat) : (arrayHead n).length ≤ 5 := by
  unfold arrayHead
  split_ifs <;> simp [length_bigEndian]

theorem length_int_le (i : Int) : (Output.int i : Pack).encode.length ≤ 9 := by
  by_cases hsign : 0 ≤ i
  · have hword : (Output.int i : Pack) = .unsigned i.toNat := if_pos hsign
    rw [hword, encode_unsigned]
    exact length_unsignedBytes_le _
  · have hword : (Output.int i : Pack) = .signed i := if_neg hsign
    rw [hword, encode_signed]
    exact length_signedBytes_le _

theorem length_ofText_le (s : String) : (ofText s).encode.length ≤ 5 + s.utf8ByteSize := by
  have hhead := length_textHead_le (utf8 s).length
  have hlen : (utf8 s).length = s.utf8ByteSize := rfl
  rw [ofText, encode_text, List.length_append]
  omega

theorem length_array_le (ps : List Pack) :
    (array ps).encode.length ≤ 5 + (ps.map fun p => p.encode.length).sum := by
  rw [encode_array, List.length_append, List.length_flatMap]
  exact Nat.add_le_add_right (length_arrayHead_le _) _

theorem length_record_le (es : List (String × Pack)) :
    (Output.record es : Pack).encode.length ≤ 5 + (es.map fun e => e.2.encode.length).sum := by
  have hfields := length_array_le (es.map (·.2))
  rwa [List.map_map] at hfields

theorem length_variant_le (name : String) (es : List (String × Pack)) :
    (Output.variant name (some es) : Pack).encode.length ≤
      11 + name.utf8ByteSize + (es.map fun e => e.2.encode.length).sum := by
  have hname := length_ofText_le name
  have hfields := length_record_le es
  have hvariant : (Output.variant name (some es) : Pack) =
      .map [(ofText name, Output.record es)] := rfl
  rw [hvariant, encode_map]
  simp only [mapHead, List.flatMap_cons, List.flatMap_nil, List.append_nil, List.length_append,
    List.length_singleton, Nat.one_lt_ofNat, if_true]
  omega

theorem length_list_le {α : Type} (c : Codec α) (as : List α) :
    (c.list.write as : Pack).encode.length ≤
      5 + (as.map fun a => (c.write a : Pack).encode.length).sum := by
  have hitems := length_array_le (as.map c.write)
  rwa [List.map_map] at hitems

theorem sum_map_le_add {α : Type} {f g : α → Nat} {k : Nat} {as : List α}
    (h : ∀ a ∈ as, f a ≤ k + g a) : (as.map f).sum ≤ k * as.length + (as.map g).sum := by
  induction as with
  | nil => exact Nat.zero_le _
  | cons a as ih =>
      obtain ⟨ha, has⟩ := List.forall_mem_cons.1 h
      have hrest := ih has
      simp only [List.map_cons, List.sum_cons, List.length_cons, Nat.mul_succ]
      omega

theorem sum_map_le {α : Type} {f : α → Nat} {k : Nat} {as : List α} (h : ∀ a ∈ as, f a ≤ k) :
    (as.map f).sum ≤ as.length * k := by
  have hsum := List.sum_le_card_nsmul (as.map f) k (by simpa using h)
  rwa [List.length_map] at hsum

theorem length_bytes_le (data : Bytes) :
    (Codec.bytes.write data : Pack).encode.length ≤ 5 + 2 * data.length := by
  have hbyte : ∀ b : UInt8, (Codec.byte.write b : Pack).encode.length ≤ 2 := by
    intro b
    have hwrite : (Codec.byte.write b : Pack) = .unsigned b.toNat := rfl
    rw [hwrite, encode_unsigned]
    exact length_unsignedBytes_byte b
  have hlist := length_list_le Codec.byte data
  have hsum := sum_map_le fun b (_ : b ∈ data) => hbyte b
  exact Nat.le_trans hlist (by omega)

theorem length_mode_le (m : CreateMode) : (modeCodec.write m : Pack).encode.length ≤ 21 := by
  rcases m with ⟨_ | _, _ | _⟩ <;> decide

theorem length_eventKind_le (k : EventKind) :
    (eventKindCodec.write k : Pack).encode.length ≤ 20 := by
  cases k <;> decide

theorem length_event_le (e : Event) :
    (eventCodec.write e : Pack).encode.length ≤ 30 + e.path.utf8ByteSize := by
  have hrecord := length_record_le
    [("path", ofText e.path), ("kind", (eventKindCodec.write e.kind : Pack))]
  have hpath := length_ofText_le e.path
  have hkind := length_eventKind_le e.kind
  simp only [List.map_cons, List.map_nil, List.sum_cons, List.sum_nil] at hrecord
  exact Nat.le_trans hrecord (by omega)

theorem length_op_le (o : Op) :
    (opCodec.write o : Pack).encode.length ≤ 52 + o.path.utf8ByteSize + 2 * o.payloadLength := by
  have hpath := length_ofText_le o.path
  cases o with
  | create p d m =>
      have hop := length_variant_le "Create"
        [("path", ofText p), ("data", (Codec.bytes.write d : Pack)),
          ("mode", (modeCodec.write m : Pack))]
      have hdata := length_bytes_le d
      have hmode := length_mode_le m
      have hname : "Create".utf8ByteSize = 6 := rfl
      simp only [List.map_cons, List.map_nil, List.sum_cons, List.sum_nil] at hop
      simp only [Op.path, Op.payloadLength] at hpath ⊢
      exact Nat.le_trans hop (by omega)
  | delete p v =>
      have hop := length_variant_le "Delete"
        [("path", ofText p), ("version", (Output.int v : Pack))]
      have hversion := length_int_le v
      have hname : "Delete".utf8ByteSize = 6 := rfl
      simp only [List.map_cons, List.map_nil, List.sum_cons, List.sum_nil] at hop
      simp only [Op.path, Op.payloadLength] at hpath ⊢
      exact Nat.le_trans hop (by omega)
  | setData p d v =>
      have hop := length_variant_le "SetData"
        [("path", ofText p), ("data", (Codec.bytes.write d : Pack)),
          ("version", (Output.int v : Pack))]
      have hdata := length_bytes_le d
      have hversion := length_int_le v
      have hname : "SetData".utf8ByteSize = 7 := rfl
      simp only [List.map_cons, List.map_nil, List.sum_cons, List.sum_nil] at hop
      simp only [Op.path, Op.payloadLength] at hpath ⊢
      exact Nat.le_trans hop (by omega)
  | check p v =>
      have hop := length_variant_le "Check"
        [("path", ofText p), ("version", (Output.int v : Pack))]
      have hversion := length_int_le v
      have hname : "Check".utf8ByteSize = 5 := rfl
      simp only [List.map_cons, List.map_nil, List.sum_cons, List.sum_nil] at hop
      simp only [Op.path, Op.payloadLength] at hpath ⊢
      exact Nat.le_trans hop (by omega)

end Format.Pack

namespace Record

open Format Format.Pack

def pathBytes (r : Record) : Nat :=
  (r.ops.map fun o => o.path.utf8ByteSize).sum + (r.events.map fun e => e.path.utf8ByteSize).sum

theorem length_ops_le (ops : List Op) :
    ((Codec.list opCodec).write ops : Pack).encode.length ≤
      5 + 52 * ops.length + (ops.map fun o => o.path.utf8ByteSize).sum +
        2 * (ops.map Op.payloadLength).sum := by
  have hlist := length_list_le opCodec ops
  have hsum := sum_map_le_add fun o (_ : o ∈ ops) =>
    Nat.le_trans (length_op_le o) (Nat.le_of_eq (Nat.add_assoc _ _ _))
  rw [List.sum_map_add, List.sum_map_mul_left] at hsum
  omega

theorem length_events_le (es : List Event) :
    ((Codec.list eventCodec).write es : Pack).encode.length ≤
      5 + 30 * es.length + (es.map fun e => e.path.utf8ByteSize).sum := by
  have hlist := length_list_le eventCodec es
  have hsum := sum_map_le_add fun e (_ : e ∈ es) => length_event_le e
  omega

/-- Every byte of data may take two. -/
theorem length_toBytes_le (r : Record) :
    r.toBytes.length ≤ 42 + 52 * r.ops.length + 30 * r.events.length +
      2 * (r.ops.map Op.payloadLength).sum + r.pathBytes := by
  have hrecord := length_record_le
    [("zxid", (Output.int r.zxid : Pack)), ("time", (Output.int r.time : Pack)),
      ("session", (Output.int r.session : Pack)),
      ("ops", ((Codec.list opCodec).write r.ops : Pack)),
      ("events", ((Codec.list eventCodec).write r.events : Pack))]
  have hzxid := length_int_le r.zxid
  have htime := length_int_le r.time
  have hsession := length_int_le r.session
  have hops := length_ops_le r.ops
  have hevents := length_events_le r.events
  simp only [List.map_cons, List.map_nil, List.sum_cons, List.sum_nil] at hrecord
  exact Nat.le_trans hrecord (by rw [pathBytes]; omega)

end Record

namespace Config

variable {c : Config} {ops : List Op}

theorem checkBatch_eq_ok_iff : c.checkBatch ops = .ok () ↔
    ops.length ≤ c.maxOps ∧ ∀ o ∈ ops, o.payloadLength ≤ c.maxDataBytes := by
  unfold checkBatch
  split <;> rename_i hlong
  · simp [hlong]
  · cases hfind : ops.find? fun op => decide (c.maxDataBytes < op.payloadLength) with
    | none =>
        rw [List.find?_eq_none] at hfind
        simpa [Nat.not_lt.1 hlong] using hfind
    | some op =>
        have hmem := List.mem_of_find?_eq_some hfind
        have hbig : c.maxDataBytes < op.payloadLength := by simpa using List.find?_some hfind
        simp only [reduceCtorEq, false_iff, not_and]
        exact fun _ hall => Nat.not_lt.2 (hall op hmem) hbig

end Config

theorem Edit.length_events_le (e : Edit) : e.events.length ≤ 2 := by
  have hparent : ∀ p kind, (Event.withParent p kind).length ≤ 2 := by
    intro p kind
    cases hp : Path.parent? p <;> simp [Event.withParent, hp]
  cases e with
  | create p node => exact hparent p _
  | delete p => exact hparent p _
  | setData p data => exact Nat.le_succ 1

theorem Draft.length_edits_le {d : Draft} {s : Stamp} {i : Nat} {ops : List Op} {plan : Plan}
    (h : d.acceptAll s i ops = .ok plan) : plan.edits.length ≤ ops.length := by
  induction ops generalizing d i plan with
  | nil =>
      obtain rfl := Except.ok.inj h
      exact Nat.le_refl _
  | cons op ops ih =>
      obtain ⟨a, rest, -, hrest, rfl⟩ := acceptAll_cons_ok.1 h
      have hone : a.edit?.toList.length ≤ 1 := by cases a.edit? <;> simp
      have hlater := ih hrest
      rw [List.length_append, List.length_cons]
      omega

theorem Tree.length_events_le {t : Tree} {s : Stamp} {ops : List Op} {plan : Plan}
    (h : t.plan ops s = .ok plan) : (t.commit plan).events.length ≤ 2 * ops.length := by
  have hedits := Draft.length_edits_le h
  have hsum := Format.Pack.sum_map_le fun e (_ : e ∈ plan.edits) => e.length_events_le
  have hevents : (t.commit plan).events.length = (plan.edits.map fun e => e.events.length).sum :=
    List.length_flatMap
  omega

namespace Store

open Course

variable {st : Store} {hs : Course} {m : Move} {y : Milestone} {now : Time} {s : SessionId}
  {ops : List Op}

theorem config_move (st : Store) (m : Move) : (st.move m).config = st.config := by
  cases m with
  | connect =>
      simp only [move, connect]
      split <;> rfl
  | stop => rfl
  | _ =>
      rw [st.move_eq_withWriter (by simp) (by simp)]
      rfl

theorem config_moveAll (st : Store) (ms : List Move) : (st.moveAll ms).config = st.config := by
  induction ms generalizing st with
  | nil => rfl
  | cons m ms ih => exact (ih (st.move m)).trans (st.config_move m)

theorem checkBatch_of_milestone? (h : st.milestone? (.submit now s ops) = some y) :
    st.config.checkBatch ops = .ok () := by
  cases hcheck : st.config.checkBatch ops with
  | ok _ => rfl
  | error f =>
      have hsame : st.move (.submit now s ops) = st := by simp only [move, submit, hcheck]
      rw [milestone?_of_tree (congrArg tree hsame)] at h
      cases h

theorem Keeps.content_move (h : st.Keeps hs) (hy : st.milestone? m = some y) :
    (st.move m).disk.content? = some (journalBytes hs.records ++ y.record.frame) := by
  obtain ⟨now, s, ops, plan, rfl, -, rfl, -, happ, -⟩ := milestone?_eq_some h.unpoisoned hy
  obtain ⟨n, k, hpresent, hlog, hfile⟩ := h.file
  obtain ⟨-, hpresent', -, -, hfile', -⟩ := append_file hlog hfile happ
  have hpresent'' : (st.move (.submit now s ops)).disk.present = some n := hpresent'.trans hpresent
  rw [Journal.Disk.content?, hpresent'', Option.bind_some]
  exact hfile'

variable {d : Disk} {config : Config} {ms : List Move}

/-- What the batch after any others of a store writes: its record behind a word that holds the
record's length as far as four bytes do. Beyond the limits that the batch has passed it is the texts
of its paths that make the record long, and as long as the word holds the length the record is read
back. -/
theorem length_word (hd : Crashed d hs) (hopen : openOn d config = .ok st)
    (hj : config.isJournaled = true) (hw : ∀ r ∈ (st.milestones ms).records, r.Writable)
    (hy : (st.moveAll ms).milestone? (.submit now s ops) = some y) :
    y.record.toBytes.length ≤
        42 + config.maxOps * (112 + 2 * config.maxDataBytes) + y.record.pathBytes ∧
      (∃ word, word.length = 4 ∧
        Format.ofLittleEndian word = y.record.toBytes.length % 2 ^ 32 ∧
        ((st.moveAll ms).move (.submit now s ops)).disk.content? =
          some (journalBytes (hs ++ st.milestones ms).records ++ (word ++ y.record.toBytes))) ∧
      (y.record.InRange → y.record.toBytes.length < 2 ^ 32 →
        ((st.moveAll ms).move (.submit now s ops)).disk.readAll =
          .ok ((hs ++ st.milestones ms).records ++ [y.record])) := by
  obtain ⟨st', hopen', hstart⟩ := hd.left.opens (openOn_checked hopen) hj
  obtain rfl := Except.ok.inj (hopen.symm.trans hopen')
  have hunpoisoned : (st.moveAll ms).hub.poisoned = false :=
    unpoisoned_moveAll hstart.unpoisoned ms
  obtain ⟨_, _, _, plan, hm, hplan, hrecord, -, -, hhalted⟩ := milestone?_eq_some hunpoisoned hy
  have hkeeps := hstart.moveAll ms (halted_move _ hhalted) hw
  have hconfig : (st.moveAll ms).config = config :=
    (config_moveAll st ms).trans (openOn_ok hopen).2.1
  have hbatch := checkBatch_of_milestone? hy
  rw [hconfig] at hbatch
  obtain ⟨hcount, hpayload⟩ := Config.checkBatch_eq_ok_iff.1 hbatch
  cases hm
  have hops : y.record.ops = ops := hrecord ▸ rfl
  have hevents : y.record.events = ((st.moveAll ms).tree.commit plan).events := hrecord ▸ rfl
  refine ⟨?_, ⟨_, Format.length_littleEndian 4 _, ?_, hkeeps.content_move hy⟩,
    fun hrange hshort => ?_⟩
  · have hlength := y.record.length_toBytes_le
    have hdata := Format.Pack.sum_map_le hpayload
    have hmany : y.record.events.length ≤ 2 * ops.length :=
      hevents ▸ Tree.length_events_le hplan
    have hall := Nat.mul_le_mul_right (112 + 2 * config.maxDataBytes) hcount
    have hsplit : ops.length * (112 + 2 * config.maxDataBytes) =
        112 * ops.length + 2 * (ops.length * config.maxDataBytes) := by ring
    rw [hops] at hlength
    omega
  · exact Format.ofLittleEndian_littleEndian_mod 4 _
  · have hone := hkeeps.move (.submit now s ops) hhalted fun z hz => by
      rw [hy] at hz
      obtain rfl := Option.some.inj hz
      exact hrange.writable hshort
    have hread := hone.readAll
    rw [hy, Option.toList_some, records_concat] at hread
    exact hread

theorem length_word_created :
    ∃ st y, openOn (.blank .file) journaled = .ok st ∧
      (st.moveAll [.connect]).milestone? (.submit 10 1
        [.create "/a" [200, 255] .persistent, .create "/a/b-" [] .ephemeralSequential]) = some y ∧
      y.record.toBytes.length ≤ 42 + 1000 * (112 + 2 * 1048576) + y.record.pathBytes ∧
      ((st.moveAll [.connect]).move (.submit 10 1
        [.create "/a" [200, 255] .persistent,
          .create "/a/b-" [] .ephemeralSequential])).disk.readAll = .ok [y.record] := by
  obtain ⟨st, hopen⟩ : ∃ st, openOn (.blank .file) journaled = .ok st := ⟨_, rfl⟩
  have hnone : (st.milestones [.connect]).records = [] := by
    obtain rfl := Except.ok.inj hopen
    rfl
  obtain ⟨y, hy⟩ : ∃ y, (st.moveAll [.connect]).milestone? (.submit 10 1
      [.create "/a" [200, 255] .persistent, .create "/a/b-" [] .ephemeralSequential]) = some y := by
    obtain rfl := Except.ok.inj hopen
    exact Option.isSome_iff_exists.1 (by decide +kernel)
  have hrecord : y.record =
      ⟨1, 10, 1, [.create "/a" [200, 255] .persistent, .create "/a/b-" [] .ephemeralSequential],
        [⟨"/a", .created⟩, ⟨"/", .childrenChanged⟩, ⟨"/a/b-0000000000", .created⟩,
          ⟨"/a", .childrenChanged⟩]⟩ := by
    have hmap := congrArg (Option.map Milestone.record) hy
    obtain rfl := Except.ok.inj hopen
    exact Option.some.inj (hmap.symm.trans (by decide +kernel))
  have hw : ∀ r ∈ (st.milestones [.connect]).records, r.Writable := by
    rw [hnone]
    exact fun r hr => absurd hr List.not_mem_nil
  obtain ⟨hlength, -, hread⟩ := length_word (.new _) hopen rfl hw hy
  have hrange : y.record.InRange := by
    rw [hrecord]
    exact ⟨by decide, by decide, by decide, by simp [Op.InRange]⟩
  have hshort : y.record.toBytes.length < 2 ^ 32 := by
    rw [hrecord]
    decide +kernel
  have hall := hread hrange hshort
  rw [List.nil_append, hnone] at hall
  exact ⟨st, y, hopen, hy, hlength, hall⟩

/-- The limits of this configuration let a record grow beyond four bytes of length. -/
def roomy : Config :=
  { Config.standard with maxDataBytes := 2147483648, journalPath := some "journal" }

def created (data : Bytes) : List Op := [.create "/a" data .persistent]

def largeRecord (data : Bytes) : Record :=
  { zxid := 1, time := 0, session := 1, ops := created data
    events := [⟨"/a", .created⟩, ⟨"/", .childrenChanged⟩] }

def beforeData : Bytes :=
  [149, 1, 0, 1, 145, 129, 166, 67, 114, 101, 97, 116, 101, 147, 162, 47, 97]

def afterData : Bytes :=
  [170, 80, 101, 114, 115, 105, 115, 116, 101, 110, 116, 146, 146, 162, 47, 97, 171, 78, 111, 100,
    101, 67, 114, 101, 97, 116, 101, 100, 146, 161, 47, 179, 78, 111, 100, 101, 67, 104, 105, 108,
    100, 114, 101, 110, 67, 104, 97, 110, 103, 101, 100]

open Format Format.Pack in
theorem toBytes_largeRecord (data : Bytes) :
    (largeRecord data).toBytes =
      beforeData ++ (arrayHead data.length ++
        ((data.flatMap fun b => unsignedBytes b.toNat) ++ afterData)) := by
  have hwrite : (recordCodec.write (largeRecord data) : Pack) =
      .array [.unsigned 1, .unsigned 0, .unsigned 1,
        .array [.map [(ofText "Create", .array
          [ofText "/a", .array (data.map fun b => .unsigned b.toNat), ofText "Persistent"])]],
        .array [.array [ofText "/a", ofText "NodeCreated"],
          .array [ofText "/", ofText "NodeChildrenChanged"]]] := rfl
  rw [Record.toBytes, Codec.toBytes, hwrite]
  simp only [encode_array, encode_map, encode_unsigned, ofText, encode_text, List.flatMap_cons,
    List.flatMap_nil, List.flatMap_map, List.length_map, List.append_assoc]
  rfl

def firstBytes : Bytes :=
  beforeData ++ ([221, 128, 0, 0, 0] ++ (List.replicate 30 [204, 255]).flatten)

open Format Format.Pack in
theorem toBytes_high {n : Nat} (hn : n = 2 ^ 31) :
    ∃ rest, (largeRecord (List.replicate n 255)).toBytes = firstBytes ++ rest ∧
      (largeRecord (List.replicate n 255)).toBytes.length = 2 ^ 32 + 73 := by
  have hhead : arrayHead n = [221, 128, 0, 0, 0] := by
    rw [hn]
    rfl
  have hsplit : n = 30 + (n - 30) := by omega
  have hdata : ((List.replicate n (255 : UInt8)).flatMap fun b => unsignedBytes b.toNat) =
      (List.replicate 30 [204, 255]).flatten ++ (List.replicate (n - 30) [204, 255]).flatten := by
    rw [hsplit, List.replicate_add, List.flatMap_append, List.flatMap_replicate,
      List.flatMap_replicate, Nat.add_sub_cancel_left]
    rfl
  refine ⟨(List.replicate (n - 30) [204, 255]).flatten ++ afterData, ?_, ?_⟩
  · rw [toBytes_largeRecord, List.length_replicate, hhead, hdata]
    simp only [firstBytes, List.append_assoc]
  · have hpairs : ∀ m, (List.replicate m ([204, 255] : Bytes)).flatten.length = 2 * m := by
      intro m
      simp [Nat.mul_comm]
    have hbefore : beforeData.length = 17 := rfl
    have hafter : afterData.length = 51 := rfl
    rw [toBytes_largeRecord, List.length_replicate, hhead, hdata]
    simp only [List.length_append, hpairs, hbefore, hafter, List.length_cons, List.length_nil]
    omega

/-- Its length word announces only the first bytes, and these hold no record. -/
theorem scan_high {n : Nat} (hn : n = 2 ^ 31) :
    Journal.scan (largeRecord (List.replicate n 255)).frame = .error (.journal .decodeRecord) := by
  obtain ⟨rest, hbytes, hlength⟩ := toBytes_high hn
  have hword : Format.ofLittleEndian
      (Format.littleEndian 4 (largeRecord (List.replicate n 255)).toBytes.length) = 73 := by
    rw [Format.ofLittleEndian_littleEndian_mod, hlength]
    rfl
  have hframe : (largeRecord (List.replicate n 255)).frame =
      Format.littleEndian 4 (largeRecord (List.replicate n 255)).toBytes.length ++
        (firstBytes.take 73 ++ (firstBytes.drop 73 ++ rest)) := by
    rw [← List.append_assoc (firstBytes.take 73), List.take_append_drop, ← hbytes, Record.frame]
  have hannounced : (firstBytes.take 73).length = 73 := rfl
  obtain ⟨payloads, tail, hrest⟩ := Journal.exists_cut (firstBytes.drop 73 ++ rest)
  have hcut :=
    Journal.Cut.frame (Format.length_littleEndian 4 _) (hword.trans hannounced.symm) hrest
  rw [hframe, hcut.scan_eq_error_iff]
  exact ⟨rfl, firstBytes.take 73, by simp, by decide +kernel⟩

theorem checkBatch_created {data : Bytes} (hdata : data.length ≤ 2 ^ 31) :
    roomy.checkBatch (created data) = .ok () := by
  rw [Config.checkBatch_eq_ok_iff]
  refine ⟨by simp [created, roomy, Config.standard], ?_⟩
  simpa [created, roomy, Op.payloadLength] using hdata

theorem plan_created (data : Bytes) :
    ∃ plan, Tree.initial.plan (created data) ⟨1, 0, 1⟩ = .ok plan ∧
      (⟨1, 0, 1, created data, (Tree.initial.commit plan).events⟩ : Record) = largeRecord data ∧
      ∃ outcome, (Tree.initial.commit plan).outcomes = [outcome] :=
  ⟨_, rfl, rfl, _, rfl⟩

theorem record_created {e : Engine} {v v' : Volume} {data : Bytes} (htree : e.tree = .initial)
    (hrun : e.halted = none) (happend : Sink.append (largeRecord data) v = (.ok (), v')) :
    (∃ outcome, (e.submit v 0 1 (created data)).1 = .ok [outcome]) ∧
      (e.submit v 0 1 (created data)).2.2 = v' := by
  obtain ⟨plan, hplan, hrecord, outcome, houtcome⟩ := plan_created data
  have hlast : e.lastZxid.next = 1 := by
    rw [Engine.lastZxid, htree]
    rfl
  obtain ⟨w, hends⟩ := Engine.submit_ends e v 0 1 (created data)
  rw [← hrecord] at happend
  cases w <;> simp only [Engine.Ends, Engine.stamp, hlast, htree, hplan] at hends
  case halted =>
    obtain ⟨cause, hhalted, -⟩ := hends
    cases hrun.symm.trans hhalted
  case rejected =>
    obtain ⟨-, _, hrejected, -⟩ := hends
    cases hrejected
  case readOnly =>
    obtain ⟨-, hreads, -⟩ := hends
    cases hreads _ (List.mem_singleton_self _)
  case unrecorded =>
    obtain ⟨-, -, _, f, hsame, hfails, -⟩ := hends
    obtain rfl := Except.ok.inj hsame
    cases happend.symm.trans hfails
  case recorded =>
    obtain ⟨-, -, _, hsame, happend', hanswer, -⟩ := hends
    obtain rfl := Except.ok.inj hsame
    exact ⟨⟨outcome, hanswer.trans (congrArg _ houtcome)⟩,
      (Prod.mk.inj (happend'.symm.trans happend)).2⟩

theorem connected_blank {st : Store} (hopen : openOn (.blank .file) roomy = .ok st) :
    let st' := st.move .connect
    st'.config = roomy ∧ st'.running = true ∧ st'.tree = .initial ∧ st'.engine.halted = none ∧
      st'.writer.log = ⟨(Disk.blank .file).ensureFile.2, .file (some (.file 0)) 0⟩ := by
  obtain rfl := Except.ok.inj hopen
  exact ⟨rfl, rfl, rfl, rfl, rfl⟩

theorem submit_created {st : Store} (hopen : openOn (.blank .file) roomy = .ok st) {data : Bytes}
    (hdata : data.length ≤ 2 ^ 31) (hroom : (largeRecord data).frame.length < UInt64.size) :
    (∃ outcome, ((st.move .connect).submit 0 1 (created data)).1 = .ok [outcome]) ∧
      ∃ d, ((st.move .connect).submit 0 1 (created data)).2.disk = d ∧
        d.site = .file ∧ d.present = some 0 ∧ d.files[0]? = some (largeRecord data).frame := by
  obtain ⟨hconfig, hrunning, htree, hrun, hlog⟩ := connected_blank hopen
  obtain ⟨v, happend⟩ := exists_append
    (v := ⟨(Disk.blank .file).ensureFile.2, .file (some (.file 0)) 0⟩) (r := largeRecord data)
    rfl rfl (Nat.le_of_lt_succ hroom)
  obtain ⟨hsite, hpresent, -, -, hfile, -⟩ := append_file rfl rfl happend
  obtain ⟨hanswer, hafter⟩ := record_created htree hrun (hlog ▸ happend)
  simp only [submit, hconfig, checkBatch_created hdata, checkRunning, hrunning, if_true]
  exact ⟨hanswer, v.disk, congrArg Volume.disk hafter, hsite, hpresent, hfile⟩

/-- A configuration that is accepted, a batch that passes its limits and is answered with its
outcome, and a journal that can be read no more. -/
theorem length_word_wraps :
    roomy.check = .ok () ∧ ∃ st data, openOn (.blank .file) roomy = .ok st ∧
      data.length = 2147483648 ∧ (∀ b ∈ data, b = 255) ∧ roomy.checkBatch (created data) = .ok () ∧
      (∃ outcome, ((st.move .connect).submit 0 1 (created data)).1 = .ok [outcome]) ∧
      ∃ (d : Disk) (r : Record), ((st.move .connect).submit 0 1 (created data)).2.disk = d ∧
        d.content? = some r.frame ∧ r.toBytes.length = 4294967369 ∧
        d.readAll = .error (.journal .decodeRecord) ∧
        openOn d roomy = .error (.journal .decodeRecord, d) := by
  obtain ⟨st, hopen⟩ : ∃ st, openOn (.blank .file) roomy = .ok st := ⟨_, rfl⟩
  obtain ⟨n, hn⟩ : ∃ n, n = 2 ^ 31 := ⟨_, rfl⟩
  have hdata : (List.replicate n (255 : UInt8)).length = 2 ^ 31 := by rw [List.length_replicate, hn]
  obtain ⟨rest, -, hlength⟩ := toBytes_high hn
  have hroom : (largeRecord (List.replicate n 255)).frame.length < UInt64.size := by
    rw [Record.length_frame, hlength]
    decide
  obtain ⟨hanswer, d, hd, hsite, hpresent, hfile⟩ :=
    submit_created hopen (Nat.le_of_eq hdata) hroom
  have hscan := (Disk.scan_content hsite hpresent hfile).trans (scan_high hn)
  refine ⟨rfl, st, List.replicate n 255, hopen, hdata, fun b => List.eq_of_mem_replicate,
    checkBatch_created (Nat.le_of_eq hdata), hanswer, d, largeRecord (List.replicate n 255), hd, ?_,
    hlength, ?_, Disk.openOn_error hscan rfl rfl⟩
  · rw [Disk.content?, hpresent, Option.bind_some, hfile]
  · rw [Disk.readAll, hscan]
    rfl

end Store

end Coordination
