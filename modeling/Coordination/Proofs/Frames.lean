import Coordination.Journal.Log

namespace Coordination

namespace Format

variable {n : Nat} {bs first rest : Bytes}

theorem split?_eq_some_iff :
    split? n bs = some (first, rest) ↔ first.length = n ∧ bs = first ++ rest := by
  simp only [split?]
  constructor
  · intro h
    split at h <;> rename_i hlen
    · obtain ⟨rfl, rfl⟩ := Prod.mk.inj (Option.some.inj h)
      exact ⟨hlen, (List.take_append_drop n bs).symm⟩
    · cases h
  · rintro ⟨rfl, rfl⟩
    simp

theorem split?_eq_none_iff : split? n bs = none ↔ bs.length < n := by
  simp only [split?, List.length_take]
  split <;> simp <;> omega

theorem split?_append (bs rest : Bytes) : split? bs.length (bs ++ rest) = some (bs, rest) :=
  split?_eq_some_iff.2 ⟨rfl, rfl⟩

section Options

variable {α β : Type} {f : α → Option β} {as : List α}

theorem mapM_eq_none_iff : as.mapM f = none ↔ ∃ a ∈ as, f a = none := by
  induction as with
  | nil => simp
  | cons a as ih =>
      cases hf : f a with
      | none => simp [List.mapM_cons, hf]
      | some b =>
          cases hrest : as.mapM f with
          | none => simpa [List.mapM_cons, hf, hrest] using ih.1 hrest
          | some bs => simpa [List.mapM_cons, hf, hrest] using ih

theorem mapM_eq_some_iff {bs : List β} : as.mapM f = some bs ↔ as.map f = bs.map some := by
  induction as generalizing bs with
  | nil => cases bs <;> simp
  | cons a as ih =>
      cases bs with
      | nil => cases hf : f a <;> cases hrest : as.mapM f <;> simp [List.mapM_cons, hf, hrest]
      | cons b bs =>
          rw [List.map_cons, List.map_cons, List.cons.injEq, ← ih]
          cases hf : f a <;> cases hrest : as.mapM f <;> simp [List.mapM_cons, hf, hrest]

theorem mapM_map {g : β → α} {bs : List β} (h : ∀ b ∈ bs, f (g b) = some b) :
    (bs.map g).mapM f = some bs := by
  rw [mapM_eq_some_iff, List.map_map]
  exact List.map_congr_left h

end Options

section Pieces

variable {α β : Type} (f : α → List β)

theorem length_le_flatMap (h : ∀ a, 0 < (f a).length) (as : List α) :
    as.length ≤ (as.flatMap f).length := by
  induction as with
  | nil => exact Nat.le_refl _
  | cons a as ih =>
      have ha := h a
      rw [List.flatMap_cons, List.length_append, List.length_cons]
      omega

theorem length_le_of_mem {a : α} {as : List α} (h : a ∈ as) :
    (f a).length ≤ (as.flatMap f).length := by
  rw [List.flatMap_def]
  exact (List.sublist_flatten_of_mem (List.mem_map_of_mem h)).length_le

end Pieces

end Format

namespace Journal

open Format

/-- No frame is whole: the bytes are too few for a length, or fewer follow than it says. -/
def Torn (bs : Bytes) : Prop :=
  bs.length < 4 ∨ bs.length - 4 < ofLittleEndian (bs.take 4)

/-- Frames from the front, each four bytes of length and as many bytes as they say, and then a tail.
-/
inductive Cut : Bytes → List Bytes → Bytes → Prop
  | torn {tail : Bytes} : Torn tail → Cut tail [] tail
  | frame {head payload rest tail : Bytes} {payloads : List Bytes} : head.length = 4 →
      ofLittleEndian head = payload.length → Cut rest payloads tail →
      Cut (head ++ (payload ++ rest)) (payload :: payloads) tail

variable {bs payload rest tail : Bytes} {payloads : List Bytes}

theorem frame?_eq_some_iff : frame? bs = some (payload, rest) ↔
    ∃ head, head.length = 4 ∧ ofLittleEndian head = payload.length ∧
      bs = head ++ (payload ++ rest) := by
  unfold frame?
  constructor
  · intro h
    split at h
    · cases h
    · rename_i head after hhead
      obtain ⟨hlen, rfl⟩ := split?_eq_some_iff.1 hhead
      obtain ⟨hpayload, rfl⟩ := split?_eq_some_iff.1 h
      exact ⟨head, hlen, hpayload.symm, rfl⟩
  · rintro ⟨head, hlen, hpayload, rfl⟩
    rw [split?_eq_some_iff.2 ⟨hlen, rfl⟩]
    exact split?_eq_some_iff.2 ⟨hpayload.symm, rfl⟩

theorem frame?_eq_none_iff : frame? bs = none ↔ Torn bs := by
  unfold frame? Torn
  cases hhead : split? 4 bs with
  | none =>
      have hshort := split?_eq_none_iff.1 hhead
      simp [hshort]
  | some pair =>
      obtain ⟨head, after⟩ := pair
      obtain ⟨hlen, rfl⟩ := split?_eq_some_iff.1 hhead
      rw [← hlen, List.take_left, List.length_append, Nat.add_sub_cancel_left]
      rw [split?_eq_none_iff]
      exact (or_iff_right (by omega)).symm

theorem Cut.length_eq (h : Cut bs payloads tail) :
    bs.length = framesLength payloads + tail.length := by
  induction h with
  | torn _ => simp [framesLength]
  | frame hhead _ _ ih =>
      rw [List.length_append, List.length_append, ih, hhead, framesLength]
      omega

theorem length_le_framesLength (payloads : List Bytes) :
    payloads.length ≤ framesLength payloads := by
  induction payloads with
  | nil => exact Nat.le_refl _
  | cons payload payloads ih =>
      rw [List.length_cons, framesLength]
      omega

theorem Cut.framesUpTo (h : Cut bs payloads tail) {limit : Nat} (hl : payloads.length ≤ limit) :
    framesUpTo limit bs = payloads := by
  induction h generalizing limit with
  | torn htorn =>
      cases limit with
      | zero => rfl
      | succ limit => rw [Journal.framesUpTo, frame?_eq_none_iff.2 htorn]
  | frame hhead hpayload _ ih =>
      cases limit with
      | zero => cases hl
      | succ limit =>
          rw [Journal.framesUpTo, frame?_eq_some_iff.2 ⟨_, hhead, hpayload, rfl⟩]
          simp only [ih (Nat.le_of_succ_le_succ hl)]

theorem Cut.frames (h : Cut bs payloads tail) : frames bs = payloads := by
  apply h.framesUpTo
  have hcount := length_le_framesLength payloads
  have hlen := h.length_eq
  omega

theorem exists_cut (bs : Bytes) : ∃ payloads tail, Cut bs payloads tail := by
  induction hn : bs.length using Nat.strongRecOn generalizing bs with
  | ind n ih =>
      cases hframe : frame? bs with
      | none => exact ⟨[], bs, .torn (frame?_eq_none_iff.1 hframe)⟩
      | some pair =>
          obtain ⟨payload, rest⟩ := pair
          obtain ⟨head, hhead, hpayload, rfl⟩ := frame?_eq_some_iff.1 hframe
          rw [List.length_append, List.length_append] at hn
          obtain ⟨payloads, tail, hcut⟩ := ih rest.length (by omega) rest rfl
          exact ⟨payload :: payloads, tail, .frame hhead hpayload hcut⟩

theorem Cut.take (h : Cut bs payloads tail) :
    ∃ front, bs = front ++ tail ∧ Cut front payloads [] := by
  induction h with
  | torn _ => exact ⟨[], rfl, .torn (.inl (by decide))⟩
  | frame hhead hpayload _ ih =>
      obtain ⟨front, rfl, hcut⟩ := ih
      exact ⟨_, by simp only [List.append_assoc], .frame hhead hpayload hcut⟩

theorem Cut.unique {payloads' : List Bytes} {tail' : Bytes} (h : Cut bs payloads tail)
    (h' : Cut bs payloads' tail') : payloads = payloads' ∧ tail = tail' := by
  obtain rfl : payloads = payloads' := h.frames.symm.trans h'.frames
  obtain ⟨front, rfl, hfront⟩ := h.take
  obtain ⟨front', hbs, hfront'⟩ := h'.take
  refine ⟨rfl, (List.append_inj hbs ?_).2⟩
  rw [hfront.length_eq, hfront'.length_eq]

theorem Cut.scan_eq_ok_iff (h : Cut bs payloads tail) {s : Scan} :
    scan bs = .ok s ↔ payloads.map Record.ofBytes? = s.records.map some ∧
      s.validLength = framesLength payloads ∧ s.fileLength = bs.length := by
  rw [← mapM_eq_some_iff, scan, h.frames]
  cases hrecords : payloads.mapM Record.ofBytes? with
  | none => simp
  | some rs =>
      simp only [Except.ok.injEq, Option.some.injEq]
      constructor
      · rintro rfl
        exact ⟨rfl, rfl, rfl⟩
      · rintro ⟨rfl, hvalid, hlength⟩
        rw [← hvalid, ← hlength]

theorem Cut.scan_eq_error_iff (h : Cut bs payloads tail) {f : Fault} :
    scan bs = .error f ↔
      f = .journal .decodeRecord ∧ ∃ payload ∈ payloads, Record.ofBytes? payload = none := by
  rw [← mapM_eq_none_iff, scan, h.frames]
  cases hrecords : payloads.mapM Record.ofBytes? with
  | none => simp [eq_comm]
  | some rs => simp

end Journal

end Coordination
