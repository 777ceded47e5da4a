namespace Coordination.Numeral

def decimal (n : Nat) : List Char := Nat.toDigits 10 n

def signed : Int → List Char
  | .ofNat n => decimal n
  | .negSucc n => '-' :: decimal (n + 1)

/-- Zeros go between the sign and the digits until the whole is `width` characters long. -/
def padded (width : Nat) : Int → List Char
  | .ofNat n => List.leftpad width '0' (decimal n)
  | .negSucc n => '-' :: List.leftpad (width - 1) '0' (decimal (n + 1))

def value (ds : List Char) : Nat := Nat.ofDigitChars 10 ds 0

theorem value_decimal (n : Nat) : value (decimal n) = n :=
  Nat.ofDigitChars_toDigits (by decide) (by decide)

theorem mem_decimal {n : Nat} {c : Char} (h : c ∈ decimal n) : c.isDigit = true :=
  Nat.isDigit_of_mem_toDigits (by decide) (by decide) h

theorem mem_padded {width : Nat} {i : Int} {c : Char} (h : c ∈ padded width i) :
    c.isDigit = true ∨ c = '-' := by
  cases i with
  | ofNat n =>
      simp only [padded, List.leftpad, List.mem_append, List.mem_replicate] at h
      rcases h with ⟨-, rfl⟩ | h
      · exact .inl rfl
      · exact .inl (mem_decimal h)
  | negSucc n =>
      simp only [padded, List.leftpad, List.mem_cons, List.mem_append, List.mem_replicate] at h
      rcases h with rfl | ⟨-, rfl⟩ | h
      · exact .inr rfl
      · exact .inl rfl
      · exact .inl (mem_decimal h)

theorem le_length_padded (width : Nat) (i : Int) : width ≤ (padded width i).length := by
  cases i with
  | ofNat n =>
      rw [padded, List.length_leftpad]
      omega
  | negSucc n =>
      rw [padded, List.length_cons, List.length_leftpad]
      omega

def hex (n : Nat) : List Char := '0' :: 'x' :: Nat.toDigits 16 n

def text (n : Nat) : String := String.ofList (decimal n)

def hexDigit? (c : Char) : Option Nat :=
  if '0' ≤ c ∧ c ≤ '9' then some (c.toNat - '0'.toNat)
  else if 'a' ≤ c ∧ c ≤ 'f' then some (c.toNat - 'a'.toNat + 10)
  else if 'A' ≤ c ∧ c ≤ 'F' then some (c.toNat - 'A'.toNat + 10)
  else none

end Coordination.Numeral
