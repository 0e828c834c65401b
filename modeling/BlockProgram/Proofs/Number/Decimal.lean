import BlockProgram.Number.Decimal

/-!
# Decimal integers

A text of digits, with a minus sign in front of them or not, stands for an integer (`Denotes`). The
text of an integer stands for it (`denotes_toString`), and it is read back from its text
(`integer?_toString_int`).
-/

namespace BlockProgram.Decimal

open List

variable {text : String} {cs : List Char} {negative : Bool} {n : Nat} {x : Int} {c : Char}

/-! ## Digits -/

/-- Decimal digits, at least one. -/
def IsNumeral (digits : List Char) : Prop :=
  digits ≠ [] ∧ ∀ c ∈ digits, c.isDigit = true

theorem utf8Size_of_isDigit (h : c.isDigit = true) : c.utf8Size = 1 := by
  have hnine : c.toNat ≤ '9'.toNat := (Char.isDigit_iff_toNat.mp h).2
  exact Char.utf8Size_eq_one_iff.mpr (Nat.le_trans hnine (by decide))

theorem isDigit_of_mem_toString (h : c ∈ (toString n).toList) : c.isDigit = true := by
  rw [Nat.toString_eq_repr, Nat.toList_repr] at h
  exact Nat.isDigit_of_mem_toDigits (by decide) (by decide) h

theorem toList_toString_ne_nil (n : Nat) : (toString n).toList ≠ [] := by
  rw [Nat.toString_eq_repr, Nat.toList_repr]
  exact Nat.toDigits_ne_nil

theorem isNumeral_toString (n : Nat) : IsNumeral (toString n).toList :=
  ⟨toList_toString_ne_nil n, fun _ => isDigit_of_mem_toString⟩

theorem digitsValue_toString (n : Nat) : digitsValue (toString n).toList = n := by
  rw [Nat.toString_eq_repr, Nat.toList_repr]
  exact Nat.ofDigitChars_ten_toDigits

theorem toList_toString_negSucc (n : Nat) :
    (toString (Int.negSucc n)).toList = '-' :: (toString (n + 1)).toList :=
  String.toList_append

/-! ## Integers -/

/-- A text stands for an integer. There may be zeros in front of the digits that count. -/
inductive Denotes : List Char → Int → Prop
  | plain {digits : List Char} (h : IsNumeral digits) :
    Denotes digits (Nat.ofDigitChars 10 digits 0)
  | minus {digits : List Char} (h : IsNumeral digits) :
    Denotes ('-' :: digits) (-(Nat.ofDigitChars 10 digits 0 : Int))

theorem denotes_toString (x : Int) : Denotes (toString x).toList x := by
  have hvalue : ∀ n : Nat, Nat.ofDigitChars 10 (toString n).toList 0 = n := digitsValue_toString
  cases x with
  | ofNat n =>
    have hplain := Denotes.plain (isNumeral_toString n)
    rwa [hvalue] at hplain
  | negSucc n =>
    have hminus := Denotes.minus (isNumeral_toString (n + 1))
    rwa [hvalue, ← toList_toString_negSucc] at hminus

theorem readSign_of_isDigit (h : ∀ c ∈ cs, c.isDigit = true) : readSign cs = (false, cs) := by
  unfold readSign
  split
  · exact absurd (h '-' (.head _)) (by decide)
  · exact absurd (h '+' (.head _)) (by decide)
  · rfl

theorem integer?_eq_some_iff : integer? text = some (negative, n) ↔
    ∃ digits, readSign text.toList = (negative, digits) ∧ IsNumeral digits ∧
      digitsValue digits = n := by
  unfold integer?
  generalize readSign text.toList = r
  obtain ⟨s, cs⟩ := r
  simp only [Option.ite_none_left_eq_some, Bool.or_eq_true, List.isEmpty_iff, Bool.not_eq_true',
    not_or, Bool.not_eq_false, all_eq_true, Option.some.injEq, Prod.mk.injEq]
  constructor
  · rintro ⟨hnumeral, rfl, rfl⟩
    exact ⟨cs, ⟨rfl, rfl⟩, hnumeral, rfl⟩
  · rintro ⟨_, ⟨rfl, rfl⟩, hnumeral, rfl⟩
    exact ⟨hnumeral, rfl, rfl⟩

/-- What is read from a text without a plus sign is what the text stands for. -/
theorem denotes_iff_integer? (hplus : text.toList.head? ≠ some '+') : Denotes text.toList x ↔
    ∃ negative n, integer? text = some (negative, n) ∧
      (if negative then -(n : Int) else n) = x := by
  simp only [integer?_eq_some_iff]
  generalize text.toList = cs at hplus ⊢
  constructor
  · intro h
    cases h with
    | plain h => exact ⟨false, _, ⟨_, readSign_of_isDigit h.2, h, rfl⟩, rfl⟩
    | minus h => exact ⟨true, _, ⟨_, rfl, h, rfl⟩, rfl⟩
  · rintro ⟨negative, n, ⟨digits, hread, hnumeral, rfl⟩, rfl⟩
    unfold readSign at hread
    split at hread
    · cases hread
      exact .minus hnumeral
    · exact absurd rfl hplus
    · cases hread
      exact .plain hnumeral

theorem integer?_toString_nat (n : Nat) : integer? (toString n) = some (false, n) :=
  integer?_eq_some_iff.mpr ⟨_, readSign_of_isDigit fun _ => isDigit_of_mem_toString,
    isNumeral_toString n, digitsValue_toString n⟩

theorem integer?_toString_int (x : Int) :
    integer? (toString x) = some (decide (x < 0), x.natAbs) := by
  cases x with
  | ofNat n =>
    have hsign : ¬ Int.ofNat n < 0 := Int.not_lt.mpr (Int.natCast_nonneg n)
    rw [decide_eq_false hsign]
    exact integer?_toString_nat n
  | negSucc n =>
    rw [decide_eq_true (Int.negSucc_lt_zero n)]
    refine integer?_eq_some_iff.mpr
      ⟨_, ?_, isNumeral_toString (n + 1), digitsValue_toString (n + 1)⟩
    rw [toList_toString_negSucc]
    rfl

end BlockProgram.Decimal
