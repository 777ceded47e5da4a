import Coordination.Format.Medium
import Coordination.Proofs.Frames
import Mathlib.Data.List.Basic
import Mathlib.Tactic.Ring

/-!
JSON text read back. What is written for a value reads as that value, whatever stops it
(`read_chars`), so that the text of a value is parsed to it (`parse_render`). A number has to be
stopped by what follows it, and a text is told piece by piece.
-/

namespace Coordination

namespace Numeral

theorem head?_decimal {n : Nat} (hn : n ≠ 0) : (decimal n).head? ≠ some '0' := by
  induction n using Nat.strongRecOn with
  | ind n ih =>
      rcases Nat.lt_or_ge n 10 with hlt | hge
      · have hdigit : ∀ k < 10, k ≠ 0 → Nat.digitChar k ≠ '0' := by decide
        rw [decimal, Nat.toDigits_of_lt_base hlt, List.head?_cons]
        exact fun h => hdigit n hlt hn (Option.some.inj h)
      · have hfirst := ih (n / 10) (by omega) (by omega)
        rw [decimal, Nat.toDigits_of_base_le (by decide) hge,
          List.head?_append_of_ne_nil _ Nat.toDigits_ne_nil]
        exact hfirst

end Numeral

namespace Format.Json

section Numbers

variable {c : Char} {cs rest : List Char} {n : Nat}

/-- Nothing here goes on with a number. -/
def Stops (rest : List Char) : Prop := ∀ c ∈ rest.head?, c = ',' ∨ c = ']' ∨ c = '}'

theorem stops_nil : Stops [] := nofun

theorem stops_cons (h : c = ',' ∨ c = ']' ∨ c = '}') : Stops (c :: cs) := by
  rintro d hd
  obtain rfl := Option.some.inj hd
  exact h

theorem isDigit_of_mem_decimal (h : c ∈ Numeral.decimal n) : isDigit c = true :=
  Numeral.mem_decimal h

theorem takeWhile_stopped (hstops : Stops rest) : rest.takeWhile isDigit = [] := by
  cases rest with
  | nil => rfl
  | cons c cs => rcases hstops c rfl with rfl | rfl | rfl <;> rfl

theorem dropWhile_stopped (hstops : Stops rest) : rest.dropWhile isDigit = rest := by
  cases rest with
  | nil => rfl
  | cons c cs => rcases hstops c rfl with rfl | rfl | rfl <;> rfl

theorem skipFraction_stopped (hstops : Stops rest) : skipFraction rest = some (false, rest) := by
  cases rest with
  | nil => rfl
  | cons c cs => rcases hstops c rfl with rfl | rfl | rfl <;> rfl

theorem skipExponent_stopped (hstops : Stops rest) : skipExponent rest = some (false, rest) := by
  cases rest with
  | nil => rfl
  | cons c cs => rcases hstops c rfl with rfl | rfl | rfl <;> rfl

theorem readNumber_decimal (hstops : Stops rest) (negative : Bool) (n : Nat) :
    readNumber negative (Numeral.decimal n ++ rest) = some (integer negative n, rest) := by
  have htake : (Numeral.decimal n ++ rest).takeWhile isDigit = Numeral.decimal n := by
    rw [List.takeWhile_append_of_pos fun c => isDigit_of_mem_decimal, takeWhile_stopped hstops,
      List.append_nil]
  have hdrop : (Numeral.decimal n ++ rest).dropWhile isDigit = rest := by
    rw [List.dropWhile_append_of_pos fun c => isDigit_of_mem_decimal, dropWhile_stopped hstops]
  have hdigits : ¬((Numeral.decimal n).isEmpty = true ∨
      ((Numeral.decimal n).head? = some '0' ∧ (Numeral.decimal n).length ≠ 1)) := by
    rintro (hnil | ⟨hzero, hlen⟩)
    · exact Nat.toDigits_ne_nil (List.isEmpty_iff.1 hnil)
    · by_cases hn : n = 0
      · subst hn
        exact hlen rfl
      · exact Numeral.head?_decimal hn hzero
  simp only [readNumber, htake, hdrop, if_neg hdigits, skipFraction_stopped hstops,
    skipExponent_stopped hstops, Numeral.value_decimal, Bool.or_self, Bool.false_eq_true, if_false]

end Numbers

section Texts

variable {c : Char} {cs rest : List Char}

def Piece.Stands (p : Piece) (c : Char) : Prop :=
  ∀ done ps, joinPieces done (p :: ps) = joinPieces (c :: done) ps

theorem stands_char (c : Char) : (Piece.char c).Stands c := fun _ _ => rfl

theorem stands_unit (hc : c.toNat < 32) : (Piece.unit c.toNat).Stands c := by
  intro done ps
  have hhigh : isHigh c.toNat = false := by
    simp [isHigh]
    omega
  have hlow : isLow c.toNat = false := by
    simp [isLow]
    omega
  rw [joinPieces.eq_def]
  simp only [hhigh, hlow, Bool.or_self, Bool.false_eq_true, if_false, Char.ofNat_toNat]

theorem readPieces_plain (hquote : c ≠ '"') (hslash : c ≠ '\\') (hc : ¬c.toNat < 32)
    (done : List Piece) (cs : List Char) :
    readPieces done (c :: cs) = readPieces (.char c :: done) cs := by
  have hplain : ¬(c.toNat < 32 ∨ c = '\\') := not_or.2 ⟨hc, hslash⟩
  rw [readPieces.eq_def]
  split <;> rename_i h
  · cases h
  · exact absurd (List.cons.inj h).1 hquote
  · exact absurd (List.cons.inj h).1 hslash
  · exact absurd (List.cons.inj h).1 hslash
  · obtain ⟨rfl, rfl⟩ := List.cons.inj h
    rw [if_neg hplain]

theorem readPieces_unit (hc : c.toNat < 32) (done : List Piece) (cs : List Char) :
    readPieces done ('\\' :: 'u' :: '0' :: '0' :: Nat.digitChar (c.toNat / 16) ::
      Nat.digitChar (c.toNat % 16) :: cs) = readPieces (.unit c.toNat :: done) cs := by
  have hhex : ∀ n < 32,
      hex4? '0' '0' (Nat.digitChar (n / 16)) (Nat.digitChar (n % 16)) = some n := by
    decide
  rw [readPieces, hhex _ hc]

theorem exists_piece (c : Char) :
    ∃ p : Piece, p.Stands c ∧
      ∀ done cs, readPieces done (escaped c ++ cs) = readPieces (p :: done) cs := by
  unfold escaped
  split
  · subst c
    exact ⟨.char '"', stands_char _, fun _ _ => rfl⟩
  split
  · subst c
    exact ⟨.char '\\', stands_char _, fun _ _ => rfl⟩
  split
  · subst c
    exact ⟨.char '\n', stands_char _, fun _ _ => rfl⟩
  split
  · subst c
    exact ⟨.char '\r', stands_char _, fun _ _ => rfl⟩
  split
  · subst c
    exact ⟨.char '\t', stands_char _, fun _ _ => rfl⟩
  split <;> rename_i h8
  · obtain rfl : c = Char.ofNat 8 := h8 ▸ (Char.ofNat_toNat c).symm
    exact ⟨.char (Char.ofNat 8), stands_char _, fun _ _ => rfl⟩
  split <;> rename_i h12
  · obtain rfl : c = Char.ofNat 12 := h12 ▸ (Char.ofNat_toNat c).symm
    exact ⟨.char (Char.ofNat 12), stands_char _, fun _ _ => rfl⟩
  split <;> rename_i hcontrol
  · exact ⟨.unit c.toNat, stands_unit hcontrol, readPieces_unit hcontrol⟩
  · exact ⟨.char c, stands_char c, readPieces_plain ‹_› ‹_› hcontrol⟩

def quoted (s : String) : List Char := '"' :: s.toList.flatMap escaped ++ ['"']

theorem readText_quoted (s : String) (rest : List Char) :
    readText (s.toList.flatMap escaped ++ '"' :: rest) = some (some s, rest) := by
  have hpieces : ∀ cs : List Char, ∃ ps : List Piece,
      (∀ done, joinPieces done ps = some (done.reverse ++ cs)) ∧
      ∀ done, readPieces done (cs.flatMap escaped ++ '"' :: rest) =
        some (done.reverse ++ ps, rest) := by
    intro cs
    induction cs with
    | nil => exact ⟨[], fun done => by simp [joinPieces], fun done => by simp [readPieces]⟩
    | cons c cs ih =>
        obtain ⟨p, hp, hread⟩ := exists_piece c
        obtain ⟨ps, hjoin, hrest⟩ := ih
        refine ⟨p :: ps, fun done => ?_, fun done => ?_⟩
        · rw [hp, hjoin, List.reverse_cons, List.append_assoc, List.singleton_append]
        · rw [List.flatMap_cons, List.append_assoc, hread, hrest, List.reverse_cons,
            List.append_assoc, List.singleton_append]
  obtain ⟨ps, hjoin, hread⟩ := hpieces s.toList
  rw [readText, hread]
  simp only [List.reverse_nil, List.nil_append, Option.map_some, hjoin, String.ofList_toList]

end Texts

section Writing

theorem foldl_escaped (done cs : List Char) :
    cs.foldl (fun done c => (escaped c).reverseAux done) done =
      (cs.flatMap escaped).reverse ++ done := by
  induction cs generalizing done with
  | nil => rfl
  | cons c cs ih =>
      rw [List.foldl_cons, ih, List.reverseAux_eq, List.flatMap_cons, List.reverse_append,
        List.append_assoc]

theorem pushText_some (done : List Char) (s : String) :
    pushText done (some s) = (quoted s).reverse ++ done := by
  rw [pushText, foldl_escaped, quoted]
  simp only [List.reverse_append, List.reverse_cons, List.reverse_nil, List.append_assoc,
    List.cons_append, List.nil_append]

theorem pushText_append (done : List Char) (s : Option String) :
    pushText done s = pushText [] s ++ done := by
  cases s with
  | none => rfl
  | some s => rw [pushText_some, pushText_some, List.append_nil]

mutual

theorem push_append (done : List Char) : (j : Json) → push done j = push [] j ++ done
  | .null => rfl
  | .bool true => rfl
  | .bool false => rfl
  | .int i => by simp [push, List.reverseAux_eq]
  | .real => rfl
  | .text s => pushText_append done s
  | .array [] => rfl
  | .array (x :: xs) => by
      rw [push, push, pushItems_append (push ('[' :: done) x) xs,
        pushItems_append (push ['['] x) xs, push_append ('[' :: done) x, push_append ['['] x]
      simp
  | .object [] => rfl
  | .object ((k, v) :: es) => by
      rw [push, push, pushMembers_append (push (':' :: pushText ('{' :: done) k) v) es,
        pushMembers_append (push (':' :: pushText ['{'] k) v) es,
        push_append (':' :: pushText ('{' :: done) k) v, push_append (':' :: pushText ['{'] k) v,
        pushText_append ('{' :: done) k, pushText_append ['{'] k]
      simp

theorem pushItems_append (done : List Char) :
    (xs : List Json) → pushItems done xs = pushItems [] xs ++ done
  | [] => rfl
  | x :: xs => by
      rw [pushItems, pushItems, pushItems_append (push (',' :: done) x) xs,
        pushItems_append (push [','] x) xs, push_append (',' :: done) x, push_append [','] x]
      simp

theorem pushMembers_append (done : List Char) :
    (es : List (Option String × Json)) → pushMembers done es = pushMembers [] es ++ done
  | [] => rfl
  | (k, v) :: es => by
      rw [pushMembers, pushMembers,
        pushMembers_append (push (':' :: pushText (',' :: done) k) v) es,
        pushMembers_append (push (':' :: pushText [','] k) v) es,
        push_append (':' :: pushText (',' :: done) k) v, push_append (':' :: pushText [','] k) v,
        pushText_append (',' :: done) k, pushText_append [','] k]
      simp

end

def chars (j : Json) : List Char := (push [] j).reverse

theorem toList_render (j : Json) : (render j).toList = chars j := String.toList_ofList

def memberChars (e : String × Json) : List Char := quoted e.1 ++ ':' :: chars e.2

theorem reverse_pushItems (done : List Char) (xs : List Json) :
    (pushItems done xs).reverse = done.reverse ++ xs.flatMap fun x => ',' :: chars x := by
  induction xs generalizing done with
  | nil => simp [pushItems]
  | cons x xs ih =>
      rw [pushItems, ih, push_append, List.flatMap_cons]
      simp [chars]

theorem reverse_pushMembers (done : List Char) (es : List (String × Json)) :
    (pushMembers done (es.map fun (k, v) => (some k, v))).reverse =
      done.reverse ++ es.flatMap fun e => ',' :: memberChars e := by
  induction es generalizing done with
  | nil => simp [pushMembers]
  | cons e es ih =>
      rw [List.map_cons, pushMembers, ih, push_append, pushText_some, List.flatMap_cons]
      simp [chars, memberChars]

theorem chars_null : chars .null = ['n', 'u', 'l', 'l'] := rfl

theorem chars_true : chars (.bool true) = ['t', 'r', 'u', 'e'] := rfl

theorem chars_false : chars (.bool false) = ['f', 'a', 'l', 's', 'e'] := rfl

theorem chars_int (i : Int) : chars (.int i) = Numeral.signed i := by
  simp [chars, push, List.reverseAux_eq]

theorem chars_text (s : String) : chars (.text (some s)) = quoted s := by
  rw [chars, push, pushText_some, List.append_nil, List.reverse_reverse]

theorem chars_array_nil : chars (.array []) = ['[', ']'] := rfl

theorem chars_array_cons (x : Json) (xs : List Json) :
    chars (.array (x :: xs)) =
      '[' :: (chars x ++ (xs.flatMap fun x => ',' :: chars x) ++ [']']) := by
  rw [chars, push, List.reverse_cons, reverse_pushItems, push_append]
  simp [chars]

theorem chars_members_nil : chars (members []) = ['{', '}'] := rfl

theorem chars_members_cons (e : String × Json) (es : List (String × Json)) :
    chars (members (e :: es)) =
      '{' :: (memberChars e ++ (es.flatMap fun e => ',' :: memberChars e) ++ ['}']) := by
  rw [chars, members, List.map_cons, push, List.reverse_cons, reverse_pushMembers, push_append,
    pushText_some]
  simp [chars, memberChars]

end Writing

/-- What writing a value of a store comes to. -/
inductive Plain : Json → Prop
  | null : Plain .null
  | bool (b : Bool) : Plain (.bool b)
  | int {i : Int} : -2 ^ 63 ≤ i → i < 2 ^ 64 → Plain (.int i)
  | text (s : String) : Plain (.text (some s))
  | array {xs : List Json} : (∀ x ∈ xs, Plain x) → Plain (.array xs)
  | members {es : List (String × Json)} : (∀ e ∈ es, Plain e.2) → Plain (members es)

section Reading

variable {j : Json} {c : Char} {cs rest : List Char} {limit depth : Nat}

theorem skipBlanks_cons (hc : isBlank c = false) : skipBlanks (c :: cs) = c :: cs :=
  List.dropWhile_cons_of_neg (by simp [hc])

theorem exists_decimal (n : Nat) : ∃ c cs, Numeral.decimal n = c :: cs ∧ isDigit c = true := by
  cases hdigits : Numeral.decimal n with
  | nil => exact absurd hdigits Nat.toDigits_ne_nil
  | cons c cs =>
      exact ⟨c, cs, rfl, isDigit_of_mem_decimal (n := n) (hdigits ▸ List.mem_cons_self)⟩

theorem not_blank_of_isDigit (hc : isDigit c = true) : isBlank c = false ∧ c ≠ ']' := by
  refine ⟨Bool.eq_false_iff.2 fun hblank => ?_, ?_⟩
  · simp only [isBlank, Bool.or_eq_true, decide_eq_true_eq] at hblank
    rcases hblank with ((rfl | rfl) | rfl) | rfl <;> exact absurd hc (by decide)
  · rintro rfl
    exact absurd hc (by decide)

theorem chars_begins (h : Plain j) : ∃ c cs, chars j = c :: cs ∧ isBlank c = false ∧ c ≠ ']' := by
  cases h with
  | null => exact ⟨_, _, chars_null, rfl, by decide⟩
  | bool b => cases b with
    | true => exact ⟨_, _, chars_true, rfl, by decide⟩
    | false => exact ⟨_, _, chars_false, rfl, by decide⟩
  | @int i _ _ =>
      rw [chars_int]
      cases i with
      | ofNat n =>
          obtain ⟨c, cs, hdigits, hc⟩ := exists_decimal n
          exact ⟨c, cs, hdigits, not_blank_of_isDigit hc⟩
      | negSucc n => exact ⟨_, _, rfl, rfl, by decide⟩
  | text s => exact ⟨_, _, chars_text s, rfl, by decide⟩
  | @array xs _ => cases xs with
    | nil => exact ⟨_, _, chars_array_nil, rfl, by decide⟩
    | cons x xs => exact ⟨_, _, chars_array_cons x xs, rfl, by decide⟩
  | @members es _ => cases es with
    | nil => exact ⟨_, _, chars_members_nil, rfl, by decide⟩
    | cons e es => exact ⟨_, _, chars_members_cons e es, rfl, by decide⟩

theorem skipBlanks_chars (h : Plain j) (rest : List Char) :
    skipBlanks (chars j ++ rest) = chars j ++ rest := by
  obtain ⟨c, cs, hchars, hblank, -⟩ := chars_begins h
  rw [hchars]
  exact skipBlanks_cons hblank

theorem read_digit (hc : isDigit c = true) :
    read limit (depth + 1) (c :: cs) = readNumber false (c :: cs) := by
  rw [read.eq_def]
  dsimp only
  split <;> rename_i h
  · cases h
  on_goal 8 =>
    obtain ⟨rfl, rfl⟩ := List.cons.inj h
    rfl
  -- no digit begins anything else
  all_goals
    obtain ⟨rfl, -⟩ := List.cons.inj h
    exact absurd hc (by decide)

theorem integer_ofNat {n : Nat} (hn : n < 2 ^ 64) : integer false n = .int n := by
  rw [integer, if_neg Bool.false_ne_true]
  exact if_pos hn

theorem integer_negSucc {n : Nat} (hn : n < 2 ^ 63) :
    integer true (n + 1) = .int (Int.negSucc n) := by
  rw [integer, if_pos rfl]
  exact if_pos ⟨Nat.succ_pos n, hn⟩

theorem read_int {i : Int} (hlow : -2 ^ 63 ≤ i) (hhigh : i < 2 ^ 64) (hstops : Stops rest) :
    read limit (depth + 1) (Numeral.signed i ++ rest) = some (.int i, rest) := by
  cases i with
  | ofNat n =>
      obtain ⟨c, cs, hdigits, hc⟩ := exists_decimal n
      have hn : (n : Int) < 2 ^ 64 := hhigh
      have hnumber := readNumber_decimal hstops false n
      rw [integer_ofNat (by omega)] at hnumber
      rw [Numeral.signed, hdigits, List.cons_append, read_digit hc, ← List.cons_append, ← hdigits]
      exact hnumber
  | negSucc n =>
      have hnumber := readNumber_decimal hstops true (n + 1)
      rw [integer_negSucc (by omega)] at hnumber
      exact hnumber

theorem readItems_chars {read : List Char → Option (Json × List Char)} {x : Json} {xs : List Json}
    (hplain : ∀ y ∈ x :: xs, Plain y)
    (hread : ∀ y ∈ x :: xs, ∀ rest, Stops rest → read (chars y ++ rest) = some (y, rest))
    (hlimit : xs.length < limit) (done : List Json) (rest : List Char) :
    readItems read limit done (chars x ++ (xs.flatMap (fun x => ',' :: chars x) ++ ']' :: rest)) =
      some (done.reverse ++ x :: xs, rest) := by
  obtain ⟨hx, hxs⟩ := List.forall_mem_cons.1 hplain
  obtain ⟨hone, hmore⟩ := List.forall_mem_cons.1 hread
  induction xs generalizing x done limit with
  | nil =>
      obtain ⟨limit, rfl⟩ := Nat.exists_eq_succ_of_ne_zero (Nat.ne_of_gt hlimit)
      have hend : skipBlanks (']' :: rest) = ']' :: rest := skipBlanks_cons rfl
      rw [List.flatMap_nil, List.nil_append, readItems, skipBlanks_chars hx,
        hone _ (stops_cons (.inr (.inl rfl)))]
      simp only [hend, List.reverse_cons]
  | cons y ys ih =>
      obtain ⟨limit, rfl⟩ := Nat.exists_eq_succ_of_ne_zero (Nat.ne_of_gt (Nat.zero_lt_of_lt hlimit))
      obtain ⟨hy, hys⟩ := List.forall_mem_cons.1 hxs
      obtain ⟨hnext, hlater⟩ := List.forall_mem_cons.1 hmore
      have hrest := ih hxs hmore (Nat.lt_of_succ_lt_succ hlimit) (x :: done) hy hys hnext hlater
      have hcomma : ∀ cs, skipBlanks (',' :: cs) = ',' :: cs := fun cs => skipBlanks_cons rfl
      rw [List.flatMap_cons, readItems, skipBlanks_chars hx, List.cons_append, List.cons_append,
        hone _ (stops_cons (.inl rfl))]
      simp only [hcomma, List.append_assoc, hrest, List.reverse_cons, List.singleton_append]

theorem readMember_chars {read : List Char → Option (Json × List Char)} {e : String × Json}
    (hplain : Plain e.2)
    (hread : ∀ rest, Stops rest → read (chars e.2 ++ rest) = some (e.2, rest))
    (hstops : Stops rest) :
    readMember read (memberChars e ++ rest) = some ((some e.1, e.2), rest) := by
  have hquote : ∀ cs, skipBlanks ('"' :: cs) = '"' :: cs := fun cs => skipBlanks_cons rfl
  have hcolon : ∀ cs, skipBlanks (':' :: cs) = ':' :: cs := fun cs => skipBlanks_cons rfl
  have htext := readText_quoted e.1 (':' :: chars e.2 ++ rest)
  simp only [readMember, memberChars, quoted, List.cons_append, List.append_assoc, hquote,
    List.nil_append] at htext ⊢
  simp only [htext, hcolon, skipBlanks_chars hplain, hread rest hstops, Option.map_some]

theorem readMembers_chars {read : List Char → Option (Json × List Char)} {e : String × Json}
    {es : List (String × Json)} (hplain : ∀ x ∈ e :: es, Plain x.2)
    (hread : ∀ x ∈ e :: es, ∀ rest, Stops rest → read (chars x.2 ++ rest) = some (x.2, rest))
    (hlimit : es.length < limit) (done : List (Option String × Json)) (rest : List Char) :
    readMembers read limit done
        (memberChars e ++ (es.flatMap (fun e => ',' :: memberChars e) ++ '}' :: rest)) =
      some (done.reverse ++ (e :: es).map fun (k, v) => (some k, v), rest) := by
  obtain ⟨he, hes⟩ := List.forall_mem_cons.1 hplain
  obtain ⟨hone, hmore⟩ := List.forall_mem_cons.1 hread
  induction es generalizing e done limit with
  | nil =>
      obtain ⟨limit, rfl⟩ := Nat.exists_eq_succ_of_ne_zero (Nat.ne_of_gt hlimit)
      have hend : skipBlanks ('}' :: rest) = '}' :: rest := skipBlanks_cons rfl
      rw [List.flatMap_nil, List.nil_append, readMembers,
        readMember_chars he hone (stops_cons (.inr (.inr rfl)))]
      simp only [hend, List.reverse_cons, List.map_cons, List.map_nil]
  | cons e' es ih =>
      obtain ⟨limit, rfl⟩ := Nat.exists_eq_succ_of_ne_zero (Nat.ne_of_gt (Nat.zero_lt_of_lt hlimit))
      obtain ⟨he', hes'⟩ := List.forall_mem_cons.1 hes
      obtain ⟨hnext, hlater⟩ := List.forall_mem_cons.1 hmore
      have hrest := ih hes hmore (Nat.lt_of_succ_lt_succ hlimit) ((some e.1, e.2) :: done) he' hes'
        hnext hlater
      have hcomma : ∀ cs, skipBlanks (',' :: cs) = ',' :: cs := fun cs => skipBlanks_cons rfl
      rw [List.flatMap_cons, readMembers, List.cons_append, List.cons_append,
        readMember_chars he hone (stops_cons (.inl rfl))]
      simp only [hcomma, List.append_assoc, hrest, List.reverse_cons, List.singleton_append,
        List.map_cons]

theorem length_array (x : Json) (xs : List Json) :
    (chars (.array (x :: xs))).length =
      ((x :: xs).flatMap fun x => ',' :: chars x).length + 1 := by
  simp only [chars_array_cons, List.flatMap_cons, List.length_cons, List.length_append,
    List.length_nil]
  omega

theorem length_members (e : String × Json) (es : List (String × Json)) :
    (chars (members (e :: es))).length =
      ((e :: es).flatMap fun e => ',' :: memberChars e).length + 1 := by
  simp only [chars_members_cons, List.flatMap_cons, List.length_cons, List.length_append,
    List.length_nil]
  omega

theorem chars_pos (h : Plain j) : 0 < (chars j).length := by
  obtain ⟨c, cs, hchars, -⟩ := chars_begins h
  rw [hchars, List.length_cons]
  exact Nat.succ_pos _

theorem read_items (hc : isBlank c = false) (hclose : c ≠ ']') :
    read limit (depth + 1) ('[' :: c :: cs) =
      (readItems (read limit depth) limit [] (c :: cs)).map fun (xs, cs) => (.array xs, cs) := by
  simp only [read, skipBlanks_cons hc]
  split <;> rename_i h
  · exact absurd (List.cons.inj h).1 hclose
  · rfl

theorem read_members :
    read limit (depth + 1) ('{' :: '"' :: cs) =
      (readMembers (read limit depth) limit [] ('"' :: cs)).map
        fun (es, cs) => (.object es, cs) := by
  have hquote : skipBlanks ('"' :: cs) = '"' :: cs := skipBlanks_cons rfl
  simp only [read, hquote]
  rfl

theorem read_chars (h : Plain j) (hlimit : (chars j).length ≤ limit)
    (hdepth : (chars j).length ≤ depth) (hstops : Stops rest) :
    read limit depth (chars j ++ rest) = some (j, rest) := by
  obtain ⟨depth, rfl⟩ : ∃ d, depth = d + 1 :=
    Nat.exists_eq_succ_of_ne_zero (Nat.ne_of_gt (Nat.lt_of_lt_of_le (chars_pos h) hdepth))
  induction h generalizing depth rest with
  | null => rfl
  | bool b => cases b <;> rfl
  | int hlow hhigh =>
      rw [chars_int]
      exact read_int hlow hhigh hstops
  | text s =>
      have htext := readText_quoted s rest
      simp only [chars_text, quoted, List.cons_append, List.append_assoc, List.nil_append, read,
        htext, Option.map_some]
  | @array xs hplain ih =>
      cases xs with
      | nil => rfl
      | cons x xs =>
          rw [length_array] at hlimit hdepth
          have hcount :=
            length_le_flatMap (fun y => ',' :: chars y) (fun _ => Nat.succ_pos _) (x :: xs)
          rw [List.length_cons] at hcount
          have hroom : xs.length < limit := by omega
          have hitems : ∀ y ∈ x :: xs, ∀ rest, Stops rest →
              read limit depth (chars y ++ rest) = some (y, rest) := by
            intro y hy rest hstops
            have hpos := chars_pos (hplain y hy)
            have hshort := length_le_of_mem (fun y => ',' :: chars y) hy
            rw [List.length_cons] at hshort
            obtain ⟨depth, rfl⟩ := Nat.exists_eq_succ_of_ne_zero (n := depth) (by omega)
            exact ih y hy (by omega) hstops depth (by omega)
          have hread := readItems_chars hplain hitems hroom [] rest
          obtain ⟨c, cs, hchars, hblank, hclose⟩ := chars_begins (hplain x List.mem_cons_self)
          rw [chars_array_cons]
          rw [hchars, List.cons_append] at hread
          simp only [hchars, List.cons_append, List.append_assoc, List.nil_append,
            read_items hblank hclose, hread, Option.map_some, List.reverse_nil]
  | @members es hplain ih =>
      cases es with
      | nil => rfl
      | cons e es =>
          rw [length_members] at hlimit hdepth
          have hcount :=
            length_le_flatMap (fun e => ',' :: memberChars e) (fun _ => Nat.succ_pos _) (e :: es)
          rw [List.length_cons] at hcount
          have hroom : es.length < limit := by omega
          have hitems : ∀ x ∈ e :: es, ∀ rest, Stops rest →
              read limit depth (chars x.2 ++ rest) = some (x.2, rest) := by
            intro x hx rest hstops
            have hpos := chars_pos (hplain x hx)
            have hshort := length_le_of_mem (fun e => ',' :: memberChars e) hx
            rw [memberChars, List.length_cons, List.length_append, List.length_cons] at hshort
            obtain ⟨depth, rfl⟩ := Nat.exists_eq_succ_of_ne_zero (n := depth) (by omega)
            exact ih x hx (by omega) hstops depth (by omega)
          have hread := readMembers_chars hplain hitems hroom [] rest
          rw [chars_members_cons]
          simp only [memberChars, quoted, List.cons_append, List.append_assoc, List.nil_append,
            List.reverse_nil] at hread ⊢
          rw [read_members, hread]
          rfl

theorem parse_render (h : Plain j) : parse (render j) = some j := by
  have hread : read ((chars j).length + 1) ((chars j).length + 1) (chars j ++ []) = some (j, []) :=
    read_chars h (Nat.le_succ _) (Nat.le_succ _) stops_nil
  have hblanks := skipBlanks_chars h []
  rw [List.append_nil] at hread hblanks
  simp only [parse, toList_render, hblanks, hread]
  rfl

end Reading

end Format.Json

end Coordination
