import Coordination.Proofs.Frames
import Mathlib.Tactic.Ring

/-!
A journal file, cut anywhere, still reads as its complete records (`take_journalBytes`,
`scan_journalBytes`): a length prefix says how much is to follow, and what a cut leaves of a frame
is too short for its own.
-/

namespace Coordination

namespace Format

theorem length_bigEndian (width n : Nat) : (bigEndian width n).length = width := by
  induction width with
  | zero => rfl
  | succ width ih => rw [bigEndian, List.length_cons, ih]

theorem foldl_bigEndian (width n start : Nat) :
    (bigEndian width n).foldl (fun k b => k * 256 + b.toNat) start =
      start * wordCount width + n % wordCount width := by
  induction width generalizing start with
  | zero => simp [bigEndian, wordCount, Nat.mod_one]
  | succ width ih =>
      have hcount : wordCount (width + 1) = wordCount width * 256 := rfl
      have hmod : n % wordCount (width + 1) =
          n % wordCount width + wordCount width * (n / wordCount width % 256) := by
        rw [hcount, Nat.mod_mul]
      have hbyte : (UInt8.ofNat (n / wordCount width)).toNat = n / wordCount width % 256 :=
        UInt8.toNat_ofNat'
      rw [bigEndian, List.foldl_cons, ih, hmod, hcount, hbyte]
      ring

theorem ofBigEndian_bigEndian_mod (width n : Nat) :
    ofBigEndian (bigEndian width n) = n % wordCount width := by
  rw [ofBigEndian, foldl_bigEndian, Nat.zero_mul, Nat.zero_add]

theorem ofLittleEndian_littleEndian_mod (width n : Nat) :
    ofLittleEndian (littleEndian width n) = n % wordCount width := by
  rw [ofLittleEndian, littleEndian, List.reverse_reverse, ofBigEndian_bigEndian_mod]

theorem ofLittleEndian_littleEndian {width n : Nat} (h : n < wordCount width) :
    ofLittleEndian (littleEndian width n) = n := by
  rw [ofLittleEndian_littleEndian_mod, Nat.mod_eq_of_lt h]

theorem length_littleEndian (width n : Nat) : (littleEndian width n).length = width := by
  rw [littleEndian, List.length_reverse, length_bigEndian]

end Format

namespace Record

open Format

/-- A record that four bytes can announce, and that is read back from what is written. -/
structure Writable (r : Record) : Prop where
  short : r.toBytes.length < 2 ^ 32
  readBack : ofBytes? r.toBytes = some r

theorem length_frame (r : Record) : r.frame.length = 4 + r.toBytes.length := by
  rw [frame, List.length_append, length_littleEndian]

end Record

namespace Journal

open Format

variable {r : Record} {rs : List Record} {tail : Bytes}

theorem ofLittleEndian_length (h : r.Writable) :
    ofLittleEndian (littleEndian 4 r.toBytes.length) = r.toBytes.length :=
  ofLittleEndian_littleEndian h.short

theorem frame?_take (h : r.Writable) {kept : Nat} (hk : kept < r.frame.length) :
    frame? (r.frame.take kept) = none := by
  have hlen := length_littleEndian 4 r.toBytes.length
  rw [Record.length_frame] at hk
  rw [frame?_eq_none_iff]
  by_cases hshort : kept < 4
  · apply Or.inl
    rw [List.length_take]
    omega
  · have hhead : (r.frame.take kept).take 4 = littleEndian 4 r.toBytes.length := by
      rw [List.take_take, Nat.min_eq_left (by omega), Record.frame]
      exact List.take_left' hlen
    apply Or.inr
    rw [hhead, ofLittleEndian_length h, List.length_take]
    omega

def journalBytes (rs : List Record) : Bytes := rs.flatMap Record.frame

theorem journalBytes_concat (rs : List Record) (r : Record) :
    journalBytes (rs ++ [r]) = journalBytes rs ++ r.frame := by
  simp [journalBytes]

theorem length_le_journalBytes (rs : List Record) : rs.length ≤ (journalBytes rs).length := by
  induction rs with
  | nil => exact Nat.le_refl 0
  | cons r rs ih =>
      have hcons : journalBytes (r :: rs) = r.frame ++ journalBytes rs := List.flatMap_cons
      rw [hcons, List.length_append, Record.length_frame, List.length_cons]
      omega

theorem length_journalBytes_le (rs rs' : List Record) :
    (journalBytes rs).length ≤ (journalBytes (rs ++ rs')).length := by
  rw [journalBytes, journalBytes, List.flatMap_append, List.length_append]
  exact Nat.le_add_right _ _

theorem length_journalBytes_take (rs : List Record) (k : Nat) :
    (journalBytes (rs.take k)).length ≤ (journalBytes rs).length := by
  have hle := length_journalBytes_le (rs.take k) (rs.drop k)
  rwa [List.take_append_drop] at hle

def completeCount : Nat → List Record → Nat
  | _, [] => 0
  | kept, r :: rs =>
      if r.frame.length ≤ kept then completeCount (kept - r.frame.length) rs + 1 else 0

theorem take_journalBytes (hw : ∀ r ∈ rs, r.Writable) (kept : Nat) :
    ∃ tail, (journalBytes rs).take kept = journalBytes (rs.take (completeCount kept rs)) ++ tail ∧
      frame? tail = none := by
  induction rs generalizing kept with
  | nil => exact ⟨[], by simp [journalBytes], rfl⟩
  | cons r rs ih =>
      have hr : r.Writable := hw r (by simp)
      have hcons : journalBytes (r :: rs) = r.frame ++ journalBytes rs := List.flatMap_cons
      rw [completeCount]
      -- the cut lies behind the first frame, or in it
      split <;> rename_i hk
      · obtain ⟨tail, htake, hnone⟩ :=
          ih (fun r' hr' => hw r' (by simp [hr'])) (kept - r.frame.length)
        refine ⟨tail, ?_, hnone⟩
        rw [hcons, List.take_append, List.take_of_length_le hk, htake, List.take_succ_cons]
        simp [journalBytes]
      · refine ⟨r.frame.take kept, ?_, frame?_take hr (Nat.lt_of_not_le hk)⟩
        rw [hcons, List.take_append_of_le_length (Nat.le_of_not_le hk)]
        rfl

theorem cut_journalBytes (hw : ∀ r ∈ rs, r.Writable) (htail : frame? tail = none) :
    Cut (journalBytes rs ++ tail) (rs.map Record.toBytes) tail := by
  induction rs with
  | nil => exact .torn (frame?_eq_none_iff.1 htail)
  | cons r rs ih =>
      have hcons : journalBytes (r :: rs) ++ tail =
          littleEndian 4 r.toBytes.length ++ (r.toBytes ++ (journalBytes rs ++ tail)) := by
        simp [journalBytes, Record.frame]
      rw [hcons]
      exact .frame (length_littleEndian _ _) (ofLittleEndian_length (hw r (by simp)))
        (ih fun r' hr' => hw r' (by simp [hr']))

theorem framesLength_map (rs : List Record) :
    framesLength (rs.map Record.toBytes) = (journalBytes rs).length := by
  induction rs with
  | nil => rfl
  | cons r rs ih =>
      have hcons : journalBytes (r :: rs) = r.frame ++ journalBytes rs := List.flatMap_cons
      rw [List.map_cons, framesLength, ih, hcons, List.length_append, Record.length_frame]

theorem scan_journalBytes (hw : ∀ r ∈ rs, r.Writable) (htail : frame? tail = none) :
    scan (journalBytes rs ++ tail) =
      .ok { records := rs
            validLength := (journalBytes rs).length
            fileLength := (journalBytes rs ++ tail).length } := by
  rw [(cut_journalBytes hw htail).scan_eq_ok_iff, List.map_map]
  exact ⟨List.map_congr_left fun r hr => (hw r hr).readBack, (framesLength_map rs).symm, rfl⟩

end Journal

end Coordination
