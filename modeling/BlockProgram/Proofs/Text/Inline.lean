import BlockProgram.Number.Literal
import BlockProgram.Proofs.Text.Tidy
import BlockProgram.Text.Quoted
import Mathlib.Data.List.TakeWhile

/-!
# Texts on one line

Numbers are made of digits, signs and a point, and a string literal escapes what would end the line.
So every literal stands on one line (`isInline_quoted`, `isInline_numberText`), whatever it is a
literal of. So does each line of a text, and it ends in a character that is not blank once it is
trimmed (`endsSolid_trimRight`).
-/

namespace BlockProgram.Text

open List

variable {c : Char}

/-! ## Digits -/

theorem IsInline.append {s t : String} (hs : IsInline s) (ht : IsInline t) : IsInline (s ++ t) := by
  intro c hc
  rw [String.toList_append] at hc
  rcases mem_append.mp hc with hc | hc
  · exact hs c hc
  · exact ht c hc

theorem ne_newline_of_isDigit (h : c.isDigit = true) : c ≠ '\n' := by
  rintro rfl
  cases h

theorem ne_newline_of_mem_toDigits {n : Nat} (h : c ∈ Nat.toDigits 10 n) : c ≠ '\n' :=
  ne_newline_of_isDigit (Nat.isDigit_of_mem_toDigits (by decide) (by decide) h)

theorem isInline_toString_nat (n : Nat) : IsInline (toString n) := by
  intro c hc
  rw [Nat.toString_eq_repr, Nat.toList_repr] at hc
  exact ne_newline_of_mem_toDigits hc

theorem isInline_toString_int (n : Int) : IsInline (toString n) := by
  cases n with
  | ofNat n => exact isInline_toString_nat n
  | negSucc n =>
    have hsign : IsInline "-" := by decide
    exact hsign.append (isInline_toString_nat (n + 1))

/-! ## Lines of a text -/

theorem ne_newline_of_mem_lines {cs l : List Char} (h : l ∈ lines cs) : ∀ c ∈ l, c ≠ '\n' := by
  have hfrom : ∀ acc : List Char, (∀ c ∈ acc, c ≠ '\n') → l ∈ linesFrom acc cs →
      ∀ c ∈ l, c ≠ '\n' := by
    clear h
    induction cs with
    | nil =>
      intro acc hacc h
      unfold linesFrom at h
      split at h
      · cases h
      · rw [mem_singleton.mp h]
        simpa using hacc
    | cons c r ih =>
      intro acc hacc h
      unfold linesFrom at h
      split at h
      · rcases mem_cons.mp h with rfl | h
        · unfold dropReturn
          split <;> simp_all
        · exact ih [] (by simp) h
      · next hc => exact ih (c :: acc) (forall_mem_cons.mpr ⟨hc, hacc⟩) h
  exact hfrom [] (by simp) h

/-- A line that is not blank ends in a character that is not, once it is trimmed. -/
theorem endsSolid_trimRight {l : List Char} (hl : ∀ c ∈ l, c ≠ '\n')
    (hblank : (trim l).isEmpty = false) : EndsSolid (String.ofList (trimRight l)) := by
  have hinline : IsInline (String.ofList (trimRight l)) := by
    intro c hc
    rw [String.toList_ofList] at hc
    exact hl c (mem_reverse.mp ((dropWhile_sublist _).mem (mem_reverse.mp hc)))
  unfold trimRight at hinline ⊢
  cases hrest : l.reverse.dropWhile isBlank with
  | nil =>
    -- all of the line is blank
    have hall : ∀ c ∈ l, isBlank c = true := by
      simpa [dropWhile_eq_nil_iff] using hrest
    rw [trim, dropWhile_eq_nil_iff.mpr hall] at hblank
    cases hblank
  | cons c r =>
    rw [hrest] at hinline
    have hc : isBlank c = false := by
      have hhead := head?_dropWhile_not isBlank l.reverse
      rw [hrest] at hhead
      simpa using hhead
    exact hinline.endsSolid (by simp) hc

/-! ## Literals -/

theorem hexDigit_ne_newline (n : Nat) : hexDigit n ≠ '\n' := by
  have hdigits : ∀ k < 16, Nat.digitChar k ≠ '\n' := by decide
  exact hdigits _ (Nat.mod_lt n (by decide))

theorem ne_newline_of_mem_escaped {d : Char} (h : d ∈ escaped c) : d ≠ '\n' := by
  by_cases hnewline : c = '\n'
  · have hletters : (escaped '\n').all (· != '\n') = true := by decide
    rw [hnewline] at h
    simpa using all_eq_true.mp hletters d h
  · have hhigh := hexDigit_ne_newline (c.toNat / 16)
    have hlow := hexDigit_ne_newline c.toNat
    rintro rfl
    unfold escaped at h
    split_ifs at h <;> simp_all [eq_comm]

theorem isInline_quoted (s : String) : IsInline (quoted s) := by
  intro c hc
  unfold quoted at hc
  rw [String.toList_ofList] at hc
  rcases mem_cons.mp hc with rfl | hc
  · decide
  · rcases mem_append.mp hc with hc | hc
    · obtain ⟨d, _, hd⟩ := mem_flatMap.mp hc
      exact ne_newline_of_mem_escaped hd
    · rw [mem_singleton.mp hc]
      decide

theorem ne_newline_of_mem_millionths {n : Nat} (h : c ∈ NumberLiteral.millionths n) : c ≠ '\n' := by
  have hsix : ∀ {k : Nat} {d : Char}, d ∈ NumberLiteral.sixDigits k → d ≠ '\n' := by
    intro k d hd
    unfold NumberLiteral.sixDigits at hd
    rcases mem_append.mp hd with hd | hd
    · rw [eq_of_mem_replicate hd]
      decide
    · exact ne_newline_of_mem_toDigits hd
  unfold NumberLiteral.millionths at h
  dsimp only at h
  split at h
  · exact ne_newline_of_mem_toDigits h
  · rcases mem_append.mp h with h | h
    · exact ne_newline_of_mem_toDigits h
    · rcases mem_cons.mp h with rfl | h
      · decide
      · have hmem := (dropWhile_sublist _).mem (mem_reverse.mp h)
        exact hsix (mem_reverse.mp hmem)

theorem isInline_numberText (x : Binary64) : IsInline (NumberLiteral.text x) := by
  cases x with
  | nan => decide
  | infinite negative => cases negative <;> decide
  | finite negative m e =>
    unfold NumberLiteral.text
    dsimp only
    split
    · exact isInline_toString_int _
    · intro c hc
      rw [String.toList_ofList] at hc
      rcases mem_append.mp hc with hc | hc
      · cases negative with
        | false => cases hc
        | true =>
          rw [mem_singleton.mp hc]
          decide
      · exact ne_newline_of_mem_millionths hc

end BlockProgram.Text
