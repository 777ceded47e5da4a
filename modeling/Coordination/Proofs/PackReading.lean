import Coordination.Proofs.Framing

/-!
MessagePack reads back what it writes (`Pack.read_sized`). Every value begins with a head, a tag and
mostly a word, that reads the same whatever follows it; containers follow by induction on the value.
-/

namespace Coordination.Format

theorem twosComplement_lt (width : Nat) (i : Int) : twosComplement width i < wordCount width := by
  have hpos : 0 < wordCount width := Nat.pow_pos (by decide)
  have hlt : i % wordCount width < wordCount width := Int.emod_lt_of_pos i (by omega)
  have hnonneg : 0 ≤ i % wordCount width := Int.emod_nonneg i (by omega)
  rw [twosComplement]
  omega

theorem ofTwosComplement_twosComplement {width : Nat} {i : Int} (hlow : -wordCount width ≤ 2 * i)
    (hneg : i < 0) : ofTwosComplement width (twosComplement width i) = i := by
  have hword : i % wordCount width = i + wordCount width := by
    rw [← Int.add_emod_right, Int.emod_eq_of_lt (by omega) (by omega)]
  rw [ofTwosComplement, twosComplement, hword]
  split <;> omega

namespace Pack

variable {width n depth : Nat} {bs rest : Bytes}

theorem word?_bigEndian_mod (width n : Nat) (rest : Bytes) :
    word? width (bigEndian width n ++ rest) = some (n % wordCount width, rest) := by
  have hsplit := split?_append (bigEndian width n) rest
  rw [length_bigEndian] at hsplit
  simp only [word?, hsplit, Option.map_some, ofBigEndian_bigEndian_mod]

theorem word?_bigEndian (h : n < wordCount width) (rest : Bytes) :
    word? width (bigEndian width n ++ rest) = some (n, rest) := by
  rw [word?_bigEndian_mod, Nat.mod_eq_of_lt h]

theorem wordHead?_bigEndian (width : Nat) (h : n < wordCount width) (f : Nat → Head)
    (rest : Bytes) :
    wordHead? width f (bigEndian width n ++ rest) = some (f n, rest) := by
  simp only [wordHead?, word?_bigEndian h, Option.map_some]

theorem signedHead_twosComplement (width : Nat) {i : Int} (hlow : -wordCount width ≤ 2 * i)
    (hneg : i < 0) (rest : Bytes) :
    wordHead? width (signedHead width) (bigEndian width (twosComplement width i) ++ rest) =
      some (.whole (.signed i), rest) := by
  rw [wordHead?_bigEndian width (twosComplement_lt width i), signedHead,
    ofTwosComplement_twosComplement hlow hneg]

theorem sizedHead?_bigEndian (width : Nat) (h : bs.length < wordCount width) (f : Bytes → Pack)
    (rest : Bytes) :
    sizedHead? width 0 f (bigEndian width bs.length ++ (bs ++ rest)) =
      some (.whole (f bs), rest) := by
  simp only [sizedHead?, word?_bigEndian h, bytesHead?, Nat.add_zero, split?_append,
    Option.map_some]

/-- The bytes begin a value, in a way that does not depend on what follows. -/
def Begins (bs : Bytes) (h : Head) : Prop :=
  ∃ tag tail, bs = tag :: tail ∧ ∀ rest, head? tag (tail ++ rest) = some (h, rest)

theorem begins_nil : Begins [0xc0] (.whole .nil) := ⟨0xc0, [], rfl, fun _ => rfl⟩

theorem begins_unsigned (h : n < 2 ^ 64) : Begins (unsignedBytes n) (.whole (.unsigned n)) := by
  unfold unsignedBytes
  split_ifs with h1 h2 h3 h4
  · refine ⟨UInt8.ofNat n, [], rfl, fun rest => ?_⟩
    have htag : (UInt8.ofNat n).toNat = n := by
      rw [UInt8.toNat_ofNat']
      omega
    simp only [head?, htag, if_pos h1, List.nil_append]
  · exact ⟨0xcc, _, rfl, wordHead?_bigEndian 1 h2 (.whole ∘ .unsigned)⟩
  · exact ⟨0xcd, _, rfl, wordHead?_bigEndian 2 h3 (.whole ∘ .unsigned)⟩
  · exact ⟨0xce, _, rfl, wordHead?_bigEndian 4 h4 (.whole ∘ .unsigned)⟩
  · exact ⟨0xcf, _, rfl, wordHead?_bigEndian 8 h (.whole ∘ .unsigned)⟩

theorem begins_signed {i : Int} (hlow : -2 ^ 63 ≤ i) (hneg : i < 0) :
    Begins (signedBytes i) (.whole (.signed i)) := by
  unfold signedBytes
  split_ifs with h1 h2 h3 h4
  · -- the tag is the number itself, and its three high bits are set
    have hword : twosComplement 1 i = (i + 256).toNat := by
      have hcount : wordCount 1 = 256 := rfl
      rw [twosComplement, hcount]
      omega
    have htag : (UInt8.ofNat (twosComplement 1 i / wordCount 0)).toNat = (i + 256).toNat := by
      have hcount : wordCount 0 = 1 := rfl
      rw [UInt8.toNat_ofNat', hword, hcount]
      omega
    refine ⟨UInt8.ofNat (twosComplement 1 i / wordCount 0), [], rfl, fun rest => ?_⟩
    have hback : ofTwosComplement 1 (i + 256).toNat = i := by
      rw [← hword, ofTwosComplement_twosComplement (by simp [wordCount]; omega) hneg]
    simp only [head?, htag, signedHead, hback, List.nil_append]
    rw [if_neg (by omega), if_neg (by omega), if_neg (by omega), if_neg (by omega),
      if_pos (by omega)]
  · exact ⟨0xd0, _, rfl, signedHead_twosComplement 1 (by simp [wordCount]; omega) hneg⟩
  · exact ⟨0xd1, _, rfl, signedHead_twosComplement 2 (by simp [wordCount]; omega) hneg⟩
  · exact ⟨0xd2, _, rfl, signedHead_twosComplement 4 (by simp [wordCount]; omega) hneg⟩
  · exact ⟨0xd3, _, rfl, signedHead_twosComplement 8 (by simp [wordCount]; omega) hneg⟩

theorem begins_text (h : bs.length < 2 ^ 32) :
    Begins (textHead bs.length ++ bs) (.whole (.text bs)) := by
  unfold textHead
  split_ifs with h1 h2 h3
  · refine ⟨UInt8.ofNat (0xa0 + bs.length), bs, rfl, fun rest => ?_⟩
    have htag : (UInt8.ofNat (0xa0 + bs.length)).toNat = 0xa0 + bs.length := by
      rw [UInt8.toNat_ofNat']
      omega
    simp only [head?, htag, bytesHead?, Nat.add_sub_cancel_left, split?_append, Option.map_some]
    rw [if_neg (by omega), if_neg (by omega), if_neg (by omega), if_pos (by omega)]
  · exact ⟨0xd9, _, rfl, fun rest =>
      List.append_assoc _ _ rest ▸ sizedHead?_bigEndian 1 h2 .text rest⟩
  · exact ⟨0xda, _, rfl, fun rest =>
      List.append_assoc _ _ rest ▸ sizedHead?_bigEndian 2 h3 .text rest⟩
  · exact ⟨0xdb, _, rfl, fun rest =>
      List.append_assoc _ _ rest ▸ sizedHead?_bigEndian 4 h .text rest⟩

/-- A length beyond four bytes is written as far as they hold it, and so it is read. -/
theorem begins_array_mod (n : Nat) : Begins (arrayHead n) (.array (n % 2 ^ 32)) := by
  unfold arrayHead
  split_ifs with h1 h2
  · have hn : n % 2 ^ 32 = n := by omega
    refine ⟨UInt8.ofNat (0x90 + n), [], rfl, fun rest => ?_⟩
    have htag : (UInt8.ofNat (0x90 + n)).toNat = 0x90 + n := by
      rw [UInt8.toNat_ofNat']
      omega
    simp only [head?, htag, Nat.add_sub_cancel_left, List.nil_append, hn]
    rw [if_neg (by omega), if_neg (by omega), if_pos (by omega)]
  · have hn : n % 2 ^ 32 = n := by omega
    exact ⟨0xdc, _, rfl, hn.symm ▸ wordHead?_bigEndian 2 h2 .array⟩
  · refine ⟨0xdd, _, rfl, fun rest => ?_⟩
    have hhead : head? 0xdd (bigEndian 4 n ++ rest) =
        wordHead? 4 .array (bigEndian 4 n ++ rest) := rfl
    rw [hhead, wordHead?, word?_bigEndian_mod, Option.map_some]
    rfl

theorem begins_array (h : n < 2 ^ 32) : Begins (arrayHead n) (.array n) := by
  have hbegins := begins_array_mod n
  rwa [Nat.mod_eq_of_lt h] at hbegins

theorem begins_map (h : n < 2 ^ 32) : Begins (mapHead n) (.map n) := by
  unfold mapHead
  split_ifs with h1 h2
  · refine ⟨UInt8.ofNat (0x80 + n), [], rfl, fun rest => ?_⟩
    have htag : (UInt8.ofNat (0x80 + n)).toNat = 0x80 + n := by
      rw [UInt8.toNat_ofNat']
      omega
    simp only [head?, htag, Nat.add_sub_cancel_left, List.nil_append]
    rw [if_neg (by omega), if_pos (by omega)]
  · exact ⟨0xde, _, rfl, wordHead?_bigEndian 2 h2 .map⟩
  · exact ⟨0xdf, _, rfl, wordHead?_bigEndian 4 h .map⟩

section Read

variable {p : Pack}

theorem read_whole (h : Begins bs (.whole p)) (depth : Nat) (rest : Bytes) :
    read depth (bs ++ rest) = some (p, rest) := by
  obtain ⟨tag, tail, rfl, hhead⟩ := h
  rw [List.cons_append, read]
  simp only [hhead]

theorem read_array (h : Begins bs (.array n)) (depth : Nat) (rest : Bytes) :
    read (depth + 1) (bs ++ rest) =
      (readItems (read depth) n [] rest).map fun (ps, bs) => (.array ps, bs) := by
  obtain ⟨tag, tail, rfl, hhead⟩ := h
  rw [List.cons_append, read]
  simp only [hhead]

theorem read_map (h : Begins bs (.map n)) (depth : Nat) (rest : Bytes) :
    read (depth + 1) (bs ++ rest) =
      (readEntries (read depth) n [] rest).map fun (es, bs) => (.map es, bs) := by
  obtain ⟨tag, tail, rfl, hhead⟩ := h
  rw [List.cons_append, read]
  simp only [hhead]

end Read

mutual

theorem push_append (done : Bytes) : (p : Pack) → push done p = push [] p ++ done
  | .nil => rfl
  | .bool false => rfl
  | .bool true => rfl
  | .unsigned n => by simp [push, List.reverseAux_eq]
  | .signed i => by simp [push, List.reverseAux_eq]
  | .float => by simp [push, List.reverseAux_eq]
  | .text bs => by simp [push, List.reverseAux_eq]
  | .binary bs => by simp [push, List.reverseAux_eq]
  | .array ps => by
      rw [push, push, pushAll_append _ ps, pushAll_append (List.reverseAux _ []) ps]
      simp [List.reverseAux_eq]
  | .map es => by
      rw [push, push, pushEntries_append _ es, pushEntries_append (List.reverseAux _ []) es]
      simp [List.reverseAux_eq]
  | .extension => by simp [push, List.reverseAux_eq]

theorem pushAll_append (done : Bytes) : (ps : List Pack) → pushAll done ps = pushAll [] ps ++ done
  | [] => rfl
  | p :: ps => by
      rw [pushAll, pushAll, pushAll_append (push done p) ps, pushAll_append (push [] p) ps,
        push_append done p, List.append_assoc]

theorem pushEntries_append (done : Bytes) :
    (es : List (Pack × Pack)) → pushEntries done es = pushEntries [] es ++ done
  | [] => rfl
  | (k, v) :: es => by
      rw [pushEntries, pushEntries, pushEntries_append (push (push done k) v) es,
        pushEntries_append (push (push [] k) v) es, push_append (push done k) v,
        push_append (push [] k) v, push_append done k]
      simp

end

theorem reverse_pushAll (done : Bytes) (ps : List Pack) :
    (pushAll done ps).reverse = done.reverse ++ ps.flatMap encode := by
  induction ps generalizing done with
  | nil => simp [pushAll]
  | cons p ps ih =>
      rw [pushAll, ih, push_append, List.reverse_append, List.append_assoc, List.flatMap_cons]
      rfl

theorem reverse_pushEntries (done : Bytes) (es : List (Pack × Pack)) :
    (pushEntries done es).reverse =
      done.reverse ++ es.flatMap fun e => e.1.encode ++ e.2.encode := by
  induction es generalizing done with
  | nil => simp [pushEntries]
  | cons e es ih =>
      rw [pushEntries, ih, push_append, push_append done, List.flatMap_cons]
      simp [encode]

@[simp]
theorem encode_unsigned (n : Nat) : encode (.unsigned n) = unsignedBytes n := by
  simp [encode, push, List.reverseAux_eq]

@[simp]
theorem encode_signed (i : Int) : encode (.signed i) = signedBytes i := by
  simp [encode, push, List.reverseAux_eq]

@[simp]
theorem encode_text (bs : Bytes) : encode (.text bs) = textHead bs.length ++ bs := by
  simp [encode, push, List.reverseAux_eq]

@[simp]
theorem encode_array (ps : List Pack) :
    encode (.array ps) = arrayHead ps.length ++ ps.flatMap encode := by
  rw [encode, push, reverse_pushAll]
  simp [List.reverseAux_eq]

@[simp]
theorem encode_map (es : List (Pack × Pack)) :
    encode (.map es) = mapHead es.length ++ es.flatMap fun e => e.1.encode ++ e.2.encode := by
  rw [encode, push, reverse_pushEntries]
  simp [List.reverseAux_eq]

theorem encode_pos (p : Pack) : 0 < p.encode.length := by
  cases p with
  | nil => decide
  | bool b => cases b <;> decide
  | unsigned n =>
      rw [encode_unsigned, unsignedBytes]
      split_ifs <;> simp
  | signed i =>
      rw [encode_signed, signedBytes]
      split_ifs <;> simp [length_bigEndian]
  | float => decide
  | text bs =>
      rw [encode_text, textHead]
      split_ifs <;> simp
  | binary bs =>
      rw [encode, List.length_reverse, push, binaryHead]
      split_ifs <;> simp [List.reverseAux_eq]
  | array ps =>
      rw [encode_array, arrayHead]
      split_ifs <;> simp
  | map es =>
      rw [encode_map, mapHead]
      split_ifs <;> simp
  | extension => decide

/-- What writing a value of a store comes to, with containers nested at most so many levels deep.
Its lengths are another matter (`sized`). -/
inductive Plain : Nat → Pack → Prop
  | nil {depth : Nat} : Plain depth .nil
  | unsigned {depth n : Nat} : n < 2 ^ 64 → Plain depth (.unsigned n)
  | signed {depth : Nat} {i : Int} : -2 ^ 63 ≤ i → i < 0 → Plain depth (.signed i)
  | text {depth : Nat} (bs : Bytes) : Plain depth (.text bs)
  | array {depth : Nat} {ps : List Pack} : (∀ p ∈ ps, Plain depth p) → Plain (depth + 1) (.array ps)
  | map {depth : Nat} {es : List (Pack × Pack)} : (∀ e ∈ es, Plain depth e.1) →
      (∀ e ∈ es, Plain depth e.2) → Plain (depth + 1) (.map es)

theorem Plain.mono {p : Pack} {more : Nat} (h : Plain depth p) (hle : depth ≤ more) :
    Plain more p := by
  induction h generalizing more with
  | nil => exact .nil
  | unsigned hn => exact .unsigned hn
  | signed hlow hneg => exact .signed hlow hneg
  | text bs => exact .text bs
  | array _ ih =>
      obtain ⟨more, rfl⟩ := Nat.exists_eq_add_of_le' (Nat.le_of_add_left_le hle)
      exact .array fun p hp => ih p hp (by omega)
  | map _ _ ihKeys ihValues =>
      obtain ⟨more, rfl⟩ := Nat.exists_eq_add_of_le' (Nat.le_of_add_left_le hle)
      exact .map (fun e he => ihKeys e he (by omega)) fun e he => ihValues e he (by omega)

theorem readItems_encode {read : Bytes → Option (Pack × Bytes)} {ps : List Pack}
    (h : ∀ p ∈ ps, ∀ rest, read (p.encode ++ rest) = some (p, rest)) (done : List Pack)
    (rest : Bytes) :
    readItems read ps.length done (ps.flatMap encode ++ rest) =
      some (done.reverse ++ ps, rest) := by
  induction ps generalizing done with
  | nil => simp [readItems]
  | cons p ps ih =>
      have hrest := ih (fun q hq => h q (by simp [hq])) (p :: done)
      rw [List.flatMap_cons, List.append_assoc, List.length_cons, readItems, h p (by simp)]
      simp only [hrest, List.reverse_cons, List.append_assoc, List.singleton_append]

theorem readEntries_encode {read : Bytes → Option (Pack × Bytes)} {es : List (Pack × Pack)}
    (hk : ∀ e ∈ es, ∀ rest, read (e.1.encode ++ rest) = some (e.1, rest))
    (hv : ∀ e ∈ es, ∀ rest, read (e.2.encode ++ rest) = some (e.2, rest))
    (done : List (Pack × Pack)) (rest : Bytes) :
    readEntries read es.length done ((es.flatMap fun e => e.1.encode ++ e.2.encode) ++ rest) =
      some (done.reverse ++ es, rest) := by
  induction es generalizing done with
  | nil => simp [readEntries]
  | cons e es ih =>
      have hrest :=
        ih (fun q hq => hk q (by simp [hq])) (fun q hq => hv q (by simp [hq])) (e :: done)
      rw [List.flatMap_cons, List.append_assoc, List.append_assoc, List.length_cons, readEntries,
        hk e (by simp)]
      simp only [hv e (by simp), hrest, List.reverse_cons, List.append_assoc,
        List.singleton_append]

mutual

/-- Whether every length in a value fits the four bytes that it may be written in. -/
def sized : Pack → Bool
  | .text bs => decide (bs.length < 2 ^ 32)
  | .binary bs => decide (bs.length < 2 ^ 32)
  | .array ps => decide (ps.length < 2 ^ 32) && allSized ps
  | .map es => decide (es.length < 2 ^ 32) && entriesSized es
  | _ => true

def allSized : List Pack → Bool
  | [] => true
  | p :: ps => p.sized && allSized ps

def entriesSized : List (Pack × Pack) → Bool
  | [] => true
  | (k, v) :: es => k.sized && v.sized && entriesSized es

end

theorem allSized_iff {ps : List Pack} : allSized ps = true ↔ ∀ p ∈ ps, p.sized = true := by
  induction ps with
  | nil => simp [allSized]
  | cons p ps ih => simp [allSized, ih]

theorem entriesSized_iff {es : List (Pack × Pack)} :
    entriesSized es = true ↔ ∀ e ∈ es, e.1.sized = true ∧ e.2.sized = true := by
  induction es with
  | nil => simp [entriesSized]
  | cons e es ih => simp [entriesSized, ih]

theorem sized_array {ps : List Pack} :
    (array ps).sized = true ↔ ps.length < 2 ^ 32 ∧ ∀ p ∈ ps, p.sized = true := by
  rw [sized, Bool.and_eq_true, decide_eq_true_eq, allSized_iff]

theorem sized_map {es : List (Pack × Pack)} :
    (map es).sized = true ↔
      es.length < 2 ^ 32 ∧ ∀ e ∈ es, e.1.sized = true ∧ e.2.sized = true := by
  rw [sized, Bool.and_eq_true, decide_eq_true_eq, entriesSized_iff]

theorem read_sized {p : Pack} (h : Plain depth p) (hsized : p.sized = true) (rest : Bytes) :
    read depth (p.encode ++ rest) = some (p, rest) := by
  induction h generalizing rest with
  | nil => exact read_whole begins_nil _ rest
  | unsigned hn =>
      rw [encode_unsigned]
      exact read_whole (begins_unsigned hn) _ rest
  | signed hlow hneg =>
      rw [encode_signed]
      exact read_whole (begins_signed hlow hneg) _ rest
  | text bs =>
      rw [encode_text]
      exact read_whole (begins_text (of_decide_eq_true hsized)) _ rest
  | @array depth ps _ ih =>
      obtain ⟨hcount, hall⟩ := sized_array.1 hsized
      have hitems : ∀ p ∈ ps, ∀ rest, read depth (p.encode ++ rest) = some (p, rest) :=
        fun p hp => ih p hp (hall p hp)
      rw [encode_array, List.append_assoc, read_array (begins_array hcount),
        readItems_encode hitems]
      rfl
  | @map depth es _ _ ihKeys ihValues =>
      obtain ⟨hcount, hall⟩ := sized_map.1 hsized
      have hkeys : ∀ e ∈ es, ∀ rest, read depth (e.1.encode ++ rest) = some (e.1, rest) :=
        fun e he => ihKeys e he (hall e he).1
      have hvalues : ∀ e ∈ es, ∀ rest, read depth (e.2.encode ++ rest) = some (e.2, rest) :=
        fun e he => ihValues e he (hall e he).2
      rw [encode_map, List.append_assoc, read_map (begins_map hcount),
        readEntries_encode hkeys hvalues]
      rfl

theorem Plain.sized {p : Pack} (h : Plain depth p) (hlen : p.encode.length < 2 ^ 32) :
    p.sized = true := by
  induction h with
  | nil => rfl
  | unsigned _ => rfl
  | signed _ _ => rfl
  | text bs =>
      rw [encode_text, List.length_append] at hlen
      exact decide_eq_true (Nat.lt_of_le_of_lt (Nat.le_add_left _ _) hlen)
  | @array depth ps _ ih =>
      rw [encode_array, List.length_append] at hlen
      have hcount := length_le_flatMap encode encode_pos ps
      refine sized_array.2 ⟨by omega, fun p hp => ih p hp ?_⟩
      have hone := length_le_of_mem encode hp
      omega
  | @map depth es _ _ ihKeys ihValues =>
      rw [encode_map, List.length_append] at hlen
      have hpos : ∀ e : Pack × Pack, 0 < (e.1.encode ++ e.2.encode).length := by
        intro e
        rw [List.length_append]
        exact Nat.add_pos_left (encode_pos e.1) _
      have hcount := length_le_flatMap (fun e => e.1.encode ++ e.2.encode) hpos es
      refine sized_map.2 ⟨by omega, fun e he => ?_⟩
      have hone := length_le_of_mem (fun e : Pack × Pack => e.1.encode ++ e.2.encode) he
      rw [List.length_append] at hone
      exact ⟨ihKeys e he (by omega), ihValues e he (by omega)⟩

theorem decode_sized {p : Pack} (h : Plain (2 * maxDepth + 1) p) (hsized : p.sized = true)
    (rest : Bytes) : decode (p.encode ++ rest) = some p := by
  rw [decode, read_sized h hsized, Option.map_some]

end Pack

end Coordination.Format
