import Coordination.Fault

namespace Coordination.Path

/-- What may stand between two slashes of a path. -/
structure Segment (s : List Char) : Prop where
  nonempty : s ≠ []
  noSlash : '/' ∉ s
  noNul : Char.ofNat 0 ∉ s
  notDot : s ≠ ['.']
  notDots : s ≠ ['.', '.']

def written (ss : List (List Char)) : List Char := ss.flatMap ('/' :: ·)

def ofSegments (ss : List (List Char)) : String :=
  if ss = [] then root else String.ofList (written ss)

@[simp] theorem written_cons (s : List Char) (ss : List (List Char)) :
    written (s :: ss) = '/' :: (s ++ written ss) := by
  simp [written]

theorem segments_ne_nil (cs : List Char) : segments cs ≠ [] := by
  cases cs with
  | nil => simp [segments]
  | cons c cs =>
      simp only [segments]
      split
      · simp
      · split <;> simp

theorem segments_of_noSlash {s : List Char} (hs : '/' ∉ s) : segments s = [s] := by
  induction s with
  | nil => rfl
  | cons c cs ih =>
      obtain ⟨hc, hcs⟩ := not_or.1 (mt List.mem_cons.2 hs)
      rw [segments, if_neg fun he => hc he.symm, ih hcs]

theorem segments_append_slash {s : List Char} (hs : '/' ∉ s) (r : List Char) :
    segments (s ++ '/' :: r) = s :: segments r := by
  induction s with
  | nil => rfl
  | cons c cs ih =>
      obtain ⟨hc, hcs⟩ := not_or.1 (mt List.mem_cons.2 hs)
      rw [List.cons_append, segments, if_neg fun he => hc he.symm, ih hcs]

theorem noSlash_of_mem_segments {cs s : List Char} (h : s ∈ segments cs) : '/' ∉ s := by
  induction cs generalizing s with
  | nil =>
      simp only [segments, List.mem_singleton] at h
      simp [h]
  | cons c cs ih =>
      simp only [segments] at h
      split at h <;> rename_i hc
      · rcases List.mem_cons.1 h with rfl | h
        · simp
        · exact ih h
      · split at h <;> rename_i hs
        · exact absurd hs (segments_ne_nil cs)
        · rename_i t ts
          rcases List.mem_cons.1 h with rfl | h
          · simp only [List.mem_cons, not_or]
            exact ⟨Ne.symm hc, ih (by simp [hs])⟩
          · exact ih (by simp [hs, h])

theorem written_segments (cs : List Char) : written (segments cs) = '/' :: cs := by
  induction cs with
  | nil => rfl
  | cons c cs ih =>
      simp only [segments]
      split <;> rename_i hc
      · simp [ih, hc]
      · split <;> rename_i hs
        · exact absurd hs (segments_ne_nil cs)
        · rw [hs] at ih
          simpa using ih

theorem segments_written {s : List Char} {ss : List (List Char)}
    (h : ∀ t ∈ s :: ss, '/' ∉ t) : segments (s ++ written ss) = s :: ss := by
  induction ss generalizing s with
  | nil =>
      have hs := segments_of_noSlash (h s (by simp))
      simpa [written] using hs
  | cons t ts ih =>
      have hs : '/' ∉ s := h s (by simp)
      rw [written_cons, segments_append_slash hs, ih fun u hu => h u (List.mem_cons_of_mem _ hu)]

theorem mem_written {ss : List (List Char)} {c : Char} (h : c ∈ written ss) :
    c = '/' ∨ ∃ s ∈ ss, c ∈ s := by
  simp only [written, List.mem_flatMap, List.mem_cons] at h
  obtain ⟨s, hs, rfl | hc⟩ := h
  · exact .inl rfl
  · exact .inr ⟨s, hs, hc⟩

theorem segmentFlaw?_eq_none {s : List Char} :
    segmentFlaw? s = none ↔ s ≠ [] ∧ s ≠ ['.'] ∧ s ≠ ['.', '.'] := by
  unfold segmentFlaw?
  split
  · simp [*]
  · split <;> rename_i h
    · simp only [reduceCtorEq, false_iff]
      exact fun hs => h.elim hs.2.1 hs.2.2
    · simpa [*] using not_or.1 h

theorem getLast?_ne_slash {s : List Char} {ss : List (List Char)}
    (h : ∀ t ∈ s :: ss, Segment t) : (s ++ written ss).getLast? ≠ some '/' := by
  induction ss generalizing s with
  | nil =>
      have hs := h s (by simp)
      simp only [written, List.flatMap_nil, List.append_nil]
      intro hl
      exact hs.noSlash (List.mem_of_getLast? hl)
  | cons t ts ih =>
      have ht : t ++ written ts ≠ [] := by simp [(h t (by simp)).nonempty]
      have hl := ih (s := t) fun u hu => h u (List.mem_cons_of_mem _ hu)
      obtain ⟨c, hc⟩ := Option.ne_none_iff_exists'.1 (mt List.getLast?_eq_none_iff.1 ht)
      rw [hc] at hl
      simpa [written_cons, List.getLast?_append, List.getLast?_cons, hc] using hl

theorem valid_ofSegments {ss : List (List Char)} (h : ∀ s ∈ ss, Segment s) :
    valid (ofSegments ss) = true := by
  cases ss with
  | nil => rfl
  | cons s ss =>
      have hs := h s (by simp)
      have hseg : segments (s ++ written ss) = s :: ss :=
        segments_written fun t ht => (h t ht).noSlash
      have hnul : Char.ofNat 0 ∉ s ++ written ss := by
        intro hc
        rcases List.mem_append.1 hc with hc | hc
        · exact hs.noNul hc
        · rcases mem_written hc with hc | ⟨t, ht, hc⟩
          · exact absurd hc (by decide)
          · exact (h t (List.mem_cons_of_mem _ ht)).noNul hc
      have hflaws : (s :: ss).findSome? segmentFlaw? = none :=
        List.findSome?_eq_none_iff.2 fun t ht =>
          segmentFlaw?_eq_none.2 ⟨(h t ht).nonempty, (h t ht).notDot, (h t ht).notDots⟩
      have hne : s ++ written ss ≠ [] := by simp [hs.nonempty]
      have hlist : (ofSegments (s :: ss)).toList = '/' :: (s ++ written ss) := by
        simp [ofSegments]
      simp only [valid, flaw?, hlist]
      rw [if_neg (by simp), if_neg hne, if_neg (getLast?_ne_slash h), if_neg hnul, hseg, hflaws]
      rfl

theorem exists_segments_of_valid {p : String} (h : valid p = true) :
    ∃ ss, (∀ s ∈ ss, Segment s) ∧ p = ofSegments ss := by
  unfold valid flaw? at h
  split at h
  · simp at h
  · rename_i c cs hp
    split at h
    · simp at h
    · rename_i hc
      have hc : c = '/' := by simpa using hc
      subst hc
      split at h
      · rename_i hcs
        refine ⟨[], by simp, String.toList_injective ?_⟩
        simp [hp, hcs, ofSegments, root]
      · split at h
        · simp at h
        · split at h
          · simp at h
          · rename_i hcs _ hnul
            rw [Option.isNone_iff_eq_none, List.findSome?_eq_none_iff] at h
            have hw := written_segments cs
            refine ⟨segments cs, fun s hs => ?_, String.toList_injective ?_⟩
            · obtain ⟨hne, hd, hdd⟩ := segmentFlaw?_eq_none.1 (h s hs)
              refine ⟨hne, noSlash_of_mem_segments hs, fun hc => hnul ?_, hd, hdd⟩
              have hm : Char.ofNat 0 ∈ written (segments cs) :=
                List.mem_flatMap.2 ⟨s, hs, List.mem_cons_of_mem _ hc⟩
              rw [hw] at hm
              exact (List.mem_cons.1 hm).resolve_left (by decide)
            · simp [hp, ofSegments, segments_ne_nil, hw]

theorem valid_iff {p : String} :
    valid p = true ↔ ∃ ss, (∀ s ∈ ss, Segment s) ∧ p = ofSegments ss := by
  constructor
  · exact exists_segments_of_valid
  · rintro ⟨ss, h, rfl⟩
    exact valid_ofSegments h

theorem ne_slash_of_mem_reverse {s : List Char} (hs : '/' ∉ s) :
    ∀ c ∈ s.reverse, decide (c ≠ '/') = true := fun _ hc =>
  decide_eq_true fun he => hs (he ▸ List.mem_reverse.1 hc)

theorem beforeSlash?_append_noSlash {s : List Char} (hs : '/' ∉ s) (r : List Char) :
    beforeSlash? (r ++ s) = beforeSlash? r := by
  rw [beforeSlash?, List.reverse_append,
    List.dropWhile_append_of_pos (ne_slash_of_mem_reverse hs), beforeSlash?]

theorem beforeSlash?_append {s : List Char} (hs : '/' ∉ s) (r : List Char) :
    beforeSlash? (r ++ '/' :: s) = some r := by
  have hcut : beforeSlash? (r ++ ['/']) = some r := by simp [beforeSlash?]
  rw [← List.singleton_append, ← List.append_assoc, beforeSlash?_append_noSlash hs, hcut]

theorem afterSlash_append {s : List Char} (hs : '/' ∉ s) (r : List Char) :
    afterSlash (r ++ '/' :: s) = s := by
  have hrev : (r ++ '/' :: s).reverse = s.reverse ++ '/' :: r.reverse := by simp
  rw [afterSlash, hrev, List.takeWhile_append_of_pos (ne_slash_of_mem_reverse hs)]
  simp

theorem length_beforeSlash? {cs r : List Char} (h : beforeSlash? cs = some r) :
    r.length < cs.length := by
  unfold beforeSlash? at h
  split at h
  · simp at h
  · rename_i c r' hr
    have hl := (List.dropWhile_suffix (l := cs.reverse) (· ≠ '/')).length_le
    simp only [Option.some.injEq] at h
    subst h
    rw [hr] at hl
    simp only [List.length_cons, List.length_reverse] at hl ⊢
    omega

theorem parent?_ne {p q : String} (h : parent? p = some q) : q ≠ p := by
  unfold parent? at h
  split at h <;> rename_i hp
  · simp at h
  · split at h <;> rename_i hb
    · simp at h
    · simp only [Option.some.injEq] at h
      exact h ▸ Ne.symm hp
    · simp only [Option.some.injEq] at h
      have hl := length_beforeSlash? hb
      intro he
      rw [← he, ← h] at hl
      simp at hl

section Last

variable {ss : List (List Char)} {s : List Char}

theorem ofSegments_append (ss : List (List Char)) (s : List Char) :
    ofSegments (ss ++ [s]) = String.ofList (written ss ++ '/' :: s) := by
  simp [ofSegments, written]

theorem ofSegments_append_ne_root (ss : List (List Char)) (hs : s ≠ []) :
    ofSegments (ss ++ [s]) ≠ root := by
  intro h
  have hl := congrArg (·.toList.length) h
  have hpos := List.length_pos_iff.2 hs
  simp [ofSegments_append, root] at hl
  omega

theorem parent?_ofSegments (hs : Segment s) :
    parent? (ofSegments (ss ++ [s])) = some (ofSegments ss) := by
  have hr := ofSegments_append_ne_root ss hs.nonempty
  rw [parent?, if_neg hr, ofSegments_append, String.toList_ofList,
    beforeSlash?_append hs.noSlash]
  cases ss with
  | nil => rfl
  | cons t ts => simp [ofSegments]

theorem name_ofSegments (hs : '/' ∉ s) : name (ofSegments (ss ++ [s])) = String.ofList s := by
  rw [name, ofSegments_append, String.toList_ofList, afterSlash_append hs]

theorem child_ofSegments (hss : ∀ t ∈ ss, Segment t) :
    child (ofSegments ss) (String.ofList s) = ofSegments (ss ++ [s]) := by
  apply String.toList_injective
  rw [ofSegments_append]
  rcases List.eq_nil_or_concat ss with rfl | ⟨ts, t, rfl⟩
  · simp [ofSegments, child, written]
  · have hr := ofSegments_append_ne_root ts (hss t (by simp)).nonempty
    rw [List.concat_eq_append, child, if_neg hr]
    simp [ofSegments]

end Last

theorem exists_segments_of_ne_root {p : String} (h : valid p = true) (hr : p ≠ root) :
    ∃ ss s, (∀ t ∈ ss, Segment t) ∧ Segment s ∧ p = ofSegments (ss ++ [s]) := by
  obtain ⟨ss, hss, rfl⟩ := valid_iff.1 h
  rcases List.eq_nil_or_concat ss with rfl | ⟨ts, t, rfl⟩
  · exact absurd rfl hr
  · rw [List.concat_eq_append] at hss ⊢
    exact ⟨ts, t, fun u hu => hss u (by simp [hu]), hss t (by simp), rfl⟩

theorem ne_root_of_parent? {p q : String} (h : parent? p = some q) : p ≠ root := by
  rintro rfl
  simp [parent?] at h

theorem exists_parent? {p : String} (h : valid p = true) (hr : p ≠ root) :
    ∃ q, parent? p = some q := by
  obtain ⟨ss, s, hss, hs, rfl⟩ := exists_segments_of_ne_root h hr
  exact ⟨_, parent?_ofSegments hs⟩

theorem valid_parent? {p q : String} (h : valid p = true) (hq : parent? p = some q) :
    valid q = true := by
  obtain ⟨ss, s, hss, hs, rfl⟩ := exists_segments_of_ne_root h (ne_root_of_parent? hq)
  rw [parent?_ofSegments hs, Option.some.injEq] at hq
  exact hq ▸ valid_ofSegments hss

theorem segment_name {p q : String} (h : valid p = true) (hq : parent? p = some q) :
    Segment (name p).toList := by
  obtain ⟨ss, s, hss, hs, rfl⟩ := exists_segments_of_ne_root h (ne_root_of_parent? hq)
  rw [name_ofSegments hs.noSlash, String.toList_ofList]
  exact hs

theorem child_name {p q : String} (h : valid p = true) (hq : parent? p = some q) :
    child q (name p) = p := by
  obtain ⟨ss, s, hss, hs, rfl⟩ := exists_segments_of_ne_root h (ne_root_of_parent? hq)
  rw [parent?_ofSegments hs, Option.some.injEq] at hq
  rw [← hq, name_ofSegments hs.noSlash, child_ofSegments hss]

theorem child_eq {p c : String} (h : valid p = true) (hc : Segment c.toList) :
    valid (child p c) = true ∧ parent? (child p c) = some p ∧ name (child p c) = c := by
  obtain ⟨ss, hss, rfl⟩ := valid_iff.1 h
  have he : child (ofSegments ss) c = ofSegments (ss ++ [c.toList]) := by
    simpa using child_ofSegments (s := c.toList) hss
  rw [he, parent?_ofSegments hc, name_ofSegments hc.noSlash, String.ofList_toList]
  refine ⟨valid_ofSegments fun t ht => ?_, rfl, rfl⟩
  rcases List.mem_append.1 ht with ht | ht
  · exact hss t ht
  · rw [List.mem_singleton.1 ht]
    exact hc

theorem parent?_child {p c : String} (h : valid p = true) (hc : Segment c.toList) :
    parent? (child p c) = some p := (child_eq h hc).2.1

theorem name_child {p c : String} (h : valid p = true) (hc : Segment c.toList) :
    name (child p c) = c := (child_eq h hc).2.2

theorem toList_child (p c : String) :
    (child p c).toList = (if p = root then [] else p.toList) ++ '/' :: c.toList := by
  unfold child
  split <;> simp

theorem lt_child (p : String) {c : String} (hc : c ≠ "") :
    p.length < (child p c).length ∧ p.utf8ByteSize < (child p c).utf8ByteSize := by
  have hlength : 0 < c.length := Nat.pos_of_ne_zero (mt String.length_eq_zero_iff.1 hc)
  have hsize : 0 < c.utf8ByteSize := Nat.pos_of_ne_zero (mt String.utf8ByteSize_eq_zero_iff.1 hc)
  have hslash : "/".length = 1 ∧ "/".utf8ByteSize = 1 := ⟨rfl, rfl⟩
  unfold child
  split <;> rename_i hp
  · rw [hp, root, String.length_append, String.utf8ByteSize_append]
    omega
  · simp only [String.length_append, String.utf8ByteSize_append]
    omega

theorem lt_of_parent? {p q : String} (h : valid p = true) (hq : parent? p = some q) :
    q.length < p.length ∧ q.utf8ByteSize < p.utf8ByteSize := by
  have hlt := lt_child q (mt String.toList_eq_nil_iff.2 (segment_name h hq).nonempty)
  rwa [child_name h hq] at hlt

theorem length_parent? {p q : String} (h : valid p = true) (hq : parent? p = some q) :
    q.toList.length < p.toList.length := by
  simpa only [String.length_toList] using (lt_of_parent? h hq).1

/-- A beginning that ends in a slash ends at the last slash or before it. -/
theorem prefix_of_append_slash {xs ys s : List Char} (hs : '/' ∉ s)
    (h : xs ++ ['/'] <+: ys ++ '/' :: s) : xs = ys ∨ xs ++ ['/'] <+: ys := by
  have hys : ys ++ ['/'] <+: ys ++ '/' :: s := by simp
  rcases Nat.le_total (xs ++ ['/']).length (ys ++ ['/']).length with hle | hle
  · rcases List.prefix_concat_iff.1 (List.prefix_of_prefix_length_le h hys hle) with he | hpre
    · exact .inl (List.append_cancel_right he)
    · exact .inr hpre
  · obtain ⟨t, ht⟩ := List.prefix_of_prefix_length_le hys h hle
    rcases List.eq_nil_or_concat t with rfl | ⟨t, c, rfl⟩
    · rw [List.append_nil] at ht
      exact .inl (List.append_cancel_right ht).symm
    · -- a longer beginning would have its slash in what follows the last slash
      rw [List.concat_eq_append, ← List.append_assoc] at ht
      obtain ⟨rfl, -⟩ := List.append_inj' ht rfl
      have hpre : t ++ ['/'] <+: s := by simpa using h
      exact absurd (hpre.subset (by simp)) hs

section Completion

/-- A text that ends within a segment, or before one. -/
def Open (p : String) : Prop :=
  ∃ ss s, (∀ t ∈ ss, Segment t) ∧ '/' ∉ s ∧ Char.ofNat 0 ∉ s ∧ p.toList = written ss ++ '/' :: s

/-- What makes a segment of every beginning of one. -/
structure Completion (x : List Char) : Prop where
  noSlash : '/' ∉ x
  noNul : Char.ofNat 0 ∉ x
  notDots : ∃ c ∈ x, c ≠ '.'

variable {p q : String} {x : List Char}

theorem Completion.nonempty (hx : Completion x) : x ≠ [] := by
  obtain ⟨c, hc, -⟩ := hx.notDots
  exact List.ne_nil_of_mem hc

theorem Completion.segment_append {s : List Char} (hx : Completion x) (hs : '/' ∉ s)
    (hn : Char.ofNat 0 ∉ s) : Segment (s ++ x) := by
  obtain ⟨c, hc, hdot⟩ := hx.notDots
  have hmem : c ∈ s ++ x := List.mem_append_right s hc
  constructor
  · exact List.ne_nil_of_mem hmem
  · exact fun h => (List.mem_append.1 h).elim hs hx.noSlash
  · exact fun h => (List.mem_append.1 h).elim hn hx.noNul
  · exact fun h => hdot (by simpa [h] using hmem)
  · exact fun h => hdot (by simpa [h] using hmem)

theorem Completion.ne_root (hx : Completion x) (p : String) : p ++ String.ofList x ≠ root := by
  intro h
  obtain ⟨y, c, rfl⟩ := (List.eq_nil_or_concat x).resolve_left hx.nonempty
  have hlast : c = '/' := by simpa [root] using congrArg (·.toList.getLast?) h
  exact hx.noSlash (by simp [hlast])

theorem Completion.parent?_append (hx : Completion x) (h : parent? p = some q) :
    parent? (p ++ String.ofList x) = some q := by
  rw [parent?, if_neg (ne_root_of_parent? h)] at h
  rw [parent?, if_neg (hx.ne_root p), String.toList_append, String.toList_ofList,
    beforeSlash?_append_noSlash hx.noSlash]
  exact h

theorem Completion.valid_append_iff (hx : Completion x) :
    valid (p ++ String.ofList x) = true ↔ Open p := by
  constructor
  · intro h
    obtain ⟨ss, s, hss, hs, hp⟩ := exists_segments_of_ne_root h (hx.ne_root p)
    have hlist := congrArg String.toList hp
    rw [ofSegments_append, String.toList_append, String.toList_ofList, String.toList_ofList,
      ← List.singleton_append, ← List.append_assoc] at hlist
    rcases List.append_eq_append_iff.1 hlist with ⟨a, ha, rfl⟩ | ⟨a, ha, rfl⟩
    · rcases List.eq_nil_or_concat a with rfl | ⟨b, c, rfl⟩
      · rw [List.append_nil] at ha
        exact ⟨ss, [], hss, by simp, by simp, ha.symm⟩
      · -- the last slash would be within the completion
        rw [List.concat_eq_append, ← List.append_assoc] at ha
        obtain ⟨-, hc⟩ := List.append_inj' ha rfl
        obtain rfl : c = '/' := (List.singleton_inj.1 hc).symm
        exact absurd (by simp) hx.noSlash
    · refine ⟨ss, a, hss, fun h => hs.noSlash (List.mem_append_left x h),
        fun h => hs.noNul (List.mem_append_left x h), ?_⟩
      rw [ha, List.append_assoc, List.singleton_append]
  · rintro ⟨ss, s, hss, hs, hn, hp⟩
    have hsplit : p ++ String.ofList x = ofSegments (ss ++ [s ++ x]) := by
      apply String.toList_injective
      simp [ofSegments_append, hp]
    rw [hsplit]
    refine valid_ofSegments fun t ht => ?_
    rcases List.mem_append.1 ht with ht | ht
    · exact hss t ht
    · rw [List.mem_singleton.1 ht]
      exact hx.segment_append hs hn

theorem Open.exists_parent? (h : Open p) (hr : p ≠ root) : ∃ q, parent? p = some q := by
  obtain ⟨ss, s, -, hs, -, hp⟩ := h
  rw [parent?, if_neg hr, hp, beforeSlash?_append hs]
  cases written ss with
  | nil => exact ⟨_, rfl⟩
  | cons c cs => exact ⟨_, rfl⟩

theorem open_root : Open root := ⟨[], [], by simp, by simp, by simp, rfl⟩

theorem open_append_slash (h : valid p = true) (hr : p ≠ root) : Open (p ++ "/") := by
  obtain ⟨ss, s, hss, hs, rfl⟩ := exists_segments_of_ne_root h hr
  refine ⟨ss ++ [s], [], fun t ht => ?_, by simp, by simp, ?_⟩
  · rcases List.mem_append.1 ht with ht | ht
    · exact hss t ht
    · exact List.mem_singleton.1 ht ▸ hs
  · simp [ofSegments_append, written]

theorem parent?_append_slash (hp : p ≠ "") : parent? (p ++ "/") = some p := by
  have hne : p.toList ≠ [] := mt String.toList_eq_nil_iff.1 hp
  have hroot : p ++ "/" ≠ root := fun h => hne (by simpa [root] using congrArg String.toList h)
  rw [parent?, if_neg hroot, String.toList_append]
  have hcut : beforeSlash? (p.toList ++ "/".toList) = some p.toList :=
    beforeSlash?_append (by simp) p.toList
  obtain ⟨c, cs, hcs⟩ := List.exists_cons_of_ne_nil hne
  rw [hcut, hcs]
  exact congrArg some (by rw [← hcs, String.ofList_toList])

end Completion

section Numbered

open Numeral

theorem completion_padded (i : Int) : Completion (padded 10 i) := by
  have hmem : ∀ c ∈ padded 10 i, c ≠ '/' ∧ c ≠ Char.ofNat 0 ∧ c ≠ '.' := by
    intro c hc
    refine ⟨?_, ?_, ?_⟩ <;> rintro rfl <;>
      rcases mem_padded hc with h | h <;> exact absurd h (by decide)
  have hne : padded 10 i ≠ [] := fun h => by
    have hlen := le_length_padded 10 i
    rw [h] at hlen
    exact absurd hlen (by decide)
  obtain ⟨c, hc⟩ := List.exists_mem_of_ne_nil _ hne
  exact ⟨fun h => (hmem _ h).1 rfl, fun h => (hmem _ h).2.1 rfl, c, hc, (hmem c hc).2.2⟩

theorem valid_append_one {p : String} : valid (p ++ "1") = true ↔ Open p := by
  have hone : Completion ['1'] := ⟨by decide, by decide, '1', by decide, by decide⟩
  exact hone.valid_append_iff

theorem valid_numbered_iff {p : String} {i : Int} : valid (numbered p i) = true ↔ Open p :=
  (completion_padded i).valid_append_iff

theorem valid_numbered {p : String} (h : valid (p ++ "1") = true) (i : Int) :
    valid (numbered p i) = true :=
  valid_numbered_iff.2 (valid_append_one.1 h)

theorem parent?_numbered {p q : String} (h : parent? p = some q) (i : Int) :
    parent? (numbered p i) = some q :=
  (completion_padded i).parent?_append h

theorem parent?_numbered_root (i : Int) : parent? (numbered root i) = some root := by
  have hcut : beforeSlash? (numbered root i).toList = some [] := by
    have hs := (completion_padded i).noSlash
    simpa [numbered, root] using beforeSlash?_append hs []
  have hne : numbered root i ≠ root := (completion_padded i).ne_root root
  rw [parent?, if_neg hne, hcut]

end Numbered

section Inverses

variable {p q c d : String}

theorem check_eq_ok : check p = .ok () ↔ valid p = true := by
  unfold check valid
  cases flaw? p <;> simp

theorem check_iff :
    check p = .ok () ↔
      p = root ∨ ∃ ss, ss ≠ [] ∧ (∀ s ∈ ss, Segment s) ∧ p = String.ofList (written ss) := by
  rw [check_eq_ok, valid_iff]
  constructor
  · rintro ⟨ss, hss, rfl⟩
    by_cases hne : ss = []
    · exact .inl (if_pos hne)
    · exact .inr ⟨ss, hne, hss, if_neg hne⟩
  · rintro (rfl | ⟨ss, hne, hss, rfl⟩)
    · exact ⟨[], by simp, rfl⟩
    · exact ⟨ss, hss, (if_neg hne).symm⟩

theorem child_inj (hp : valid p = true) (hq : valid q = true) (hc : Segment c.toList)
    (hd : Segment d.toList) (h : child p c = child q d) : p = q ∧ c = d := by
  constructor
  · have hparent := parent?_child hp hc
    rw [h, parent?_child hq hd] at hparent
    exact (Option.some.inj hparent).symm
  · rw [← name_child hp hc, h, name_child hq hd]

/-- The texts that pass are the root and what one segment or more write, each after a slash. On
them taking the last segment off and putting one on undo each other. -/
theorem grammar_inverses :
    (∀ p, check p = .ok () ↔
      p = root ∨ ∃ ss, ss ≠ [] ∧ (∀ s ∈ ss, Segment s) ∧ p = String.ofList (written ss)) ∧
    (∀ p, check p = .ok () → p ≠ root →
      ∃ q, parent? p = some q ∧ check q = .ok () ∧
        (q.length < p.length ∧ q.utf8ByteSize < p.utf8ByteSize) ∧
        Segment (name p).toList ∧ child q (name p) = p) ∧
    (∀ p c, check p = .ok () → Segment c.toList →
      check (child p c) = .ok () ∧ parent? (child p c) = some p ∧ name (child p c) = c) ∧
    ∀ p q c d, check p = .ok () → check q = .ok () → Segment c.toList → Segment d.toList →
      child p c = child q d → p = q ∧ c = d := by
  simp only [check_eq_ok]
  refine ⟨fun p => check_eq_ok.symm.trans check_iff, fun p hp hr => ?_,
    fun p c hp hc => child_eq hp hc, fun p q c d hp hq hc hd => child_inj hp hq hc hd⟩
  obtain ⟨q, hq⟩ := exists_parent? hp hr
  exact ⟨q, hq, valid_parent? hp hq, lt_of_parent? hp hq, segment_name hp hq, child_name hp hq⟩

theorem grammar_inverses_nested :
    check "/lock/é.0" = .ok () ∧ "/lock/é.0" ≠ root ∧ parent? "/lock/é.0" = some "/lock" ∧
      child "/lock" (name "/lock/é.0") = child "/lock" "é.0" ∧ name "/lock/é.0" = "é.0" ∧
      Segment "..b".toList ∧ parent? (child "/lock/é.0" "..b") = some "/lock/é.0" := by
  obtain ⟨-, hup, hdown, hinj⟩ := grammar_inverses
  have hp : check "/lock/é.0" = .ok () := rfl
  have hr : "/lock/é.0" ≠ root := by decide
  have hlast : Segment "é.0".toList := by constructor <;> decide
  have hbelow : Segment "..b".toList := by constructor <;> decide
  obtain ⟨q, hq, hcheck, -, hname, hchild⟩ := hup _ hp hr
  obtain rfl : "/lock" = q := Option.some.inj hq
  have hsame : child "/lock" (name "/lock/é.0") = child "/lock" "é.0" := hchild
  exact ⟨hp, hr, hq, hsame, (hinj _ _ _ _ hcheck hcheck hname hlast hsame).2, hbelow,
    (hdown _ _ hp hbelow).2.1⟩

end Inverses

end Coordination.Path
