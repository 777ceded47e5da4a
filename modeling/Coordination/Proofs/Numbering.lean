import Coordination.Format.Word
import Coordination.Proofs.PathGrammar

namespace Coordination

namespace Numeral

variable {k width : Nat} {c : Char} {as bs : List Char}

theorem isDigit_padded (h : c ∈ padded width k) : c.isDigit = true := by
  change c ∈ List.replicate (width - (decimal k).length) '0' ++ decimal k at h
  rcases List.mem_append.1 h with h | h
  · rw [List.eq_of_mem_replicate h]
    rfl
  · exact mem_decimal h

theorem value_padded (width k : Nat) : value (padded width k) = k := by
  change Nat.ofDigitChars 10 (List.replicate (width - (decimal k).length) '0' ++ decimal k) 0 = k
  rw [Nat.ofDigitChars_append, Nat.ofDigitChars_replicate_zero, Nat.mul_zero]
  exact value_decimal k

theorem length_padded (h : k < 10000000000) : (padded 10 k).length = 10 := by
  have hlen : (decimal k).length ≤ 10 :=
    (Nat.length_toDigits_le_iff (by decide) (by decide)).2 h
  change (List.leftpad 10 '0' (decimal k)).length = 10
  rw [List.length_leftpad]
  exact Nat.max_eq_left hlen

theorem toNat_digit (h : c.isDigit = true) : '0'.toNat ≤ c.toNat ∧ c.toNat < '0'.toNat + 10 := by
  obtain ⟨hlo, hhi⟩ := Char.isDigit_iff_toNat.1 h
  exact ⟨hlo, Nat.lt_succ_of_le hhi⟩

theorem ofDigitChars_lt (ha : ∀ c ∈ as, c.isDigit = true) (hlen : as.length = bs.length)
    {i j : Nat} (h : i < j) : Nat.ofDigitChars 10 as i < Nat.ofDigitChars 10 bs j := by
  induction as generalizing bs i j with
  | nil =>
      obtain rfl := List.eq_nil_of_length_eq_zero hlen.symm
      exact h
  | cons a as ih =>
      cases bs with
      | nil => cases hlen
      | cons b bs =>
          have hdigit := toNat_digit (ha a List.mem_cons_self)
          rw [Nat.ofDigitChars_cons, Nat.ofDigitChars_cons]
          refine ih (fun c hc => ha c (List.mem_cons_of_mem a hc)) (Nat.succ.inj hlen) ?_
          omega

def byte (c : Char) : UInt8 := c.val.toUInt8

theorem toNat_byte (h : c.isDigit = true) : (byte c).toNat = c.toNat := by
  have hhi := (toNat_digit h).2
  have hval : c.val.toNat = c.toNat := rfl
  have hzero : '0'.toNat = 48 := rfl
  rw [byte, UInt32.toNat_toUInt8]
  omega

theorem bytes_lt_of_ofDigitChars_lt (ha : ∀ c ∈ as, c.isDigit = true)
    (hb : ∀ c ∈ bs, c.isDigit = true) (hlen : as.length = bs.length) {i : Nat}
    (h : Nat.ofDigitChars 10 as i < Nat.ofDigitChars 10 bs i) : as.map byte < bs.map byte := by
  induction as generalizing bs i with
  | nil =>
      obtain rfl := List.eq_nil_of_length_eq_zero hlen.symm
      exact absurd h (Nat.lt_irrefl _)
  | cons a as ih =>
      cases bs with
      | nil => cases hlen
      | cons b bs =>
          have hda := ha a List.mem_cons_self
          have hdb := hb b List.mem_cons_self
          have ha' : ∀ c ∈ as, c.isDigit = true := fun c hc => ha c (List.mem_cons_of_mem a hc)
          have hb' : ∀ c ∈ bs, c.isDigit = true := fun c hc => hb c (List.mem_cons_of_mem b hc)
          have hlen' : as.length = bs.length := Nat.succ.inj hlen
          rw [Nat.ofDigitChars_cons, Nat.ofDigitChars_cons] at h
          rw [List.map_cons, List.map_cons, List.cons_lt_cons_iff]
          -- the first digits decide, unless they are the same
          rcases Nat.lt_trichotomy a.toNat b.toNat with hlt | heq | hgt
          · refine .inl (UInt8.lt_iff_toNat_lt.2 ?_)
            rw [toNat_byte hda, toNat_byte hdb]
            exact hlt
          · obtain rfl := Char.toNat_inj.1 heq
            exact .inr ⟨rfl, ih ha' hb' hlen' h⟩
          · have hlo := (toNat_digit hdb).1
            have hmore := ofDigitChars_lt hb' hlen'.symm
              (show 10 * i + (b.toNat - '0'.toNat) < 10 * i + (a.toNat - '0'.toNat) by omega)
            exact absurd h (Nat.lt_asymm hmore)

end Numeral

namespace Format

theorem utf8_append (s t : String) : utf8 (s ++ t) = utf8 s ++ utf8 t := by
  simp only [utf8, String.toUTF8, String.toByteArray_append, ByteArray.toList_data_append]

theorem utf8EncodeChar_digit {c : Char} (h : c.isDigit = true) :
    String.utf8EncodeChar c = [Numeral.byte c] := by
  have hhi : c.toNat < 58 := (Numeral.toNat_digit h).2
  have hval : c.val.toNat = c.toNat := rfl
  have hmax : (127 : UInt32).toNat = 127 := rfl
  refine String.utf8EncodeChar_eq_singleton (Char.utf8Size_eq_one_iff.2 ?_)
  rw [UInt32.le_iff_toNat_le]
  omega

theorem utf8_digits {ds : List Char} (h : ∀ c ∈ ds, c.isDigit = true) :
    utf8 (String.ofList ds) = ds.map Numeral.byte := by
  have hbytes : utf8 (String.ofList ds) = ds.flatMap String.utf8EncodeChar := by
    simp only [utf8, String.toUTF8, String.toByteArray_ofList, List.utf8Encode,
      List.data_toByteArray]
  rw [hbytes]
  clear hbytes
  induction ds with
  | nil => rfl
  | cons c ds ih =>
      have hrest := ih fun d hd => h d (List.mem_cons_of_mem c hd)
      rw [List.flatMap_cons, hrest, utf8EncodeChar_digit (h c List.mem_cons_self)]
      rfl

end Format

namespace Path

open Format Numeral

variable {r r' : String} {j k : Nat}

theorem numbered_inj (hj : j < 10000000000) (hk : k < 10000000000)
    (h : numbered r j = numbered r' k) : r = r' ∧ j = k := by
  have hlist := congrArg String.toList h
  simp only [numbered, String.toList_append, String.toList_ofList] at hlist
  obtain ⟨hr, hnum⟩ := List.append_inj' hlist ((length_padded hj).trans (length_padded hk).symm)
  refine ⟨String.toList_injective hr, ?_⟩
  rw [← value_padded 10 j, hnum, value_padded]

theorem numbered_lt (hk : k < 10000000000) (h : j < k) :
    utf8 (numbered r j) < utf8 (numbered r k) := by
  have hdigits : ∀ i : Nat, ∀ c ∈ padded 10 i, c.isDigit = true := fun i c => isDigit_padded
  have hlen := (length_padded (Nat.lt_trans h hk)).trans (length_padded hk).symm
  rw [numbered, numbered, utf8_append, utf8_append, utf8_digits (hdigits j),
    utf8_digits (hdigits k)]
  refine List.append_left_lt (bytes_lt_of_ofDigitChars_lt (hdigits j) (hdigits k) hlen (i := 0) ?_)
  change value (padded 10 j) < value (padded 10 k)
  rw [value_padded, value_padded]
  exact h

end Path

end Coordination
