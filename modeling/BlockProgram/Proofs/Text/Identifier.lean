import BlockProgram.Text.Identifier
import Mathlib.Data.List.Nodup
import Mathlib.Data.List.Perm.Subperm

/-!
# Laws of identifiers

Every display name becomes a legal identifier (`isIdentifier_identifier`), also with a number behind
it. The search for a free name ends at the first candidate that is not in use (`firstFree_fresh`):
the candidates differ, so not all of them can be.
-/

namespace BlockProgram.Text

open List

variable {base name : String} {used : List String}

/-! ## Legal identifiers -/

/-- Not empty, of letters, digits, `_` and `$`, and without a digit in front. -/
structure IsIdentifier (s : String) : Prop where
  nonempty : s.toList ≠ []
  chars : ∀ c ∈ s.toList, isNameChar c = true
  start : ∀ c, s.toList.head? = some c → c.isDigit = false

theorem isNameChar_of_isDigit {c : Char} (h : c.isDigit = true) : isNameChar c = true := by
  unfold isNameChar Char.isAlphanum
  rw [h, Bool.or_true]
  rfl

theorem isBlank_of_isNameChar {c : Char} (h : isNameChar c = true) : isBlank c = false := by
  have hn : 33 ≤ c.toNat ∧ c.toNat ≤ 126 := by
    simp only [isNameChar, Bool.or_eq_true, beq_iff_eq] at h
    rcases h with (h | rfl) | rfl
    · delta Char.isAlphanum Char.isAlpha Char.isUpper Char.isLower Char.isDigit at h
      simp only [Bool.or_eq_true, Bool.and_eq_true, decide_eq_true_eq, ge_iff_le] at h
      change ((65 ≤ c.toNat ∧ c.toNat ≤ 90) ∨ 97 ≤ c.toNat ∧ c.toNat ≤ 122) ∨
        48 ≤ c.toNat ∧ c.toNat ≤ 57 at h
      omega
    · decide
    · decide
  simp only [isBlank, Bool.or_eq_false_iff, Bool.and_eq_false_iff, decide_eq_false_iff_not,
    beq_eq_false_iff_ne]
  omega

theorem isNameChar_of_mem_squash {inRun : Bool} {l : List Char} {c : Char}
    (h : c ∈ squash inRun l) : isNameChar c = true := by
  fun_induction squash inRun l with
  | case1 => cases h
  | case2 inRun d r hd ih =>
    rcases mem_cons.mp h with rfl | h
    · exact hd
    · exact ih h
  | case3 d r hd ih => exact ih h
  | case4 inRun d r hd hrun ih =>
    rcases mem_cons.mp h with rfl | h
    · rfl
    · exact ih h

theorem isIdentifier_guardStart {l : List Char} (hl : ∀ c ∈ l, isNameChar c = true) :
    IsIdentifier (String.ofList (guardStart l)) := by
  unfold guardStart
  split
  · exact ⟨by simp, by simp [isNameChar], by simp⟩
  · next c r =>
    split
    · refine ⟨by simp, ?_, by simp⟩
      rw [String.toList_ofList]
      intro d hd
      rcases mem_cons.mp hd with rfl | hd
      · rfl
      · exact hl d hd
    · next hc =>
      refine ⟨by simp, by rw [String.toList_ofList]; exact hl, ?_⟩
      rw [String.toList_ofList]
      intro d hd
      cases hd
      exact Bool.eq_false_iff.mpr hc

theorem isIdentifier_identifier (name : String) : IsIdentifier (identifier name) :=
  isIdentifier_guardStart fun _ => isNameChar_of_mem_squash

theorem IsIdentifier.append_toString {s : String} (h : IsIdentifier s) (k : Nat) :
    IsIdentifier (s ++ toString k) := by
  have htext : (s ++ toString k).toList = s.toList ++ Nat.toDigits 10 k := by
    rw [String.toList_append, Nat.toString_eq_repr, Nat.toList_repr]
  refine ⟨?_, ?_, ?_⟩
  · rw [htext]
    exact append_ne_nil_of_left_ne_nil h.nonempty _
  · rw [htext]
    intro c hc
    rcases mem_append.mp hc with hc | hc
    · exact h.chars c hc
    · exact isNameChar_of_isDigit (Nat.isDigit_of_mem_toDigits (by decide) (by decide) hc)
  · rw [htext, head?_append_of_ne_nil _ h.nonempty]
    exact h.start

/-! ## Free names -/

/-- The names that are tried for `base`: `base`, `base2`, `base3`, …. -/
def candidate (base : String) : Nat → String
  | 0 => base
  | i + 1 => base ++ toString (i + 2)

/-- `name` is the first of the candidates for `base` that is not in use. -/
def FirstFree (used : List String) (base name : String) : Prop :=
  ∃ i, name = candidate base i ∧ name ∉ used ∧ ∀ j, j < i → candidate base j ∈ used

theorem IsIdentifier.candidate (h : IsIdentifier base) (i : Nat) :
    IsIdentifier (candidate base i) := by
  cases i with
  | zero => exact h
  | succ i => exact h.append_toString (i + 2)

theorem toDigits_injective : Function.Injective (Nat.toDigits 10) := by
  intro a b h
  calc a = Nat.ofDigitChars 10 (Nat.toDigits 10 a) 0 := Nat.ofDigitChars_ten_toDigits.symm
    _ = Nat.ofDigitChars 10 (Nat.toDigits 10 b) 0 := by rw [h]
    _ = b := Nat.ofDigitChars_ten_toDigits

theorem candidate_injective (base : String) : Function.Injective (candidate base) := by
  have hlong : ∀ i, candidate base (i + 1) ≠ base := by
    intro i h
    have hlength := congrArg (List.length ∘ String.toList) h
    have hdigits := Nat.length_toDigits_pos (b := 10) (n := i + 2)
    simp only [candidate, Function.comp_apply, String.toList_append, Nat.toString_eq_repr,
      Nat.toList_repr, length_append] at hlength
    omega
  intro i j h
  cases i with
  | zero =>
    cases j with
    | zero => rfl
    | succ j => exact absurd h.symm (hlong j)
  | succ i =>
    cases j with
    | zero => exact absurd h (hlong i)
    | succ j =>
      have htext := congrArg String.toList h
      simp only [candidate, String.toList_append, Nat.toString_eq_repr, Nat.toList_repr,
        append_cancel_left_eq] at htext
      have hij := toDigits_injective htext
      omega

/-- One more candidate than there are names in use: one of them is free. -/
theorem exists_free (used : List String) (base : String) :
    ∃ i, i ≤ used.length ∧ candidate base i ∉ used := by
  by_contra hall
  push Not at hall
  have hsubset : (List.range (used.length + 1)).map (candidate base) ⊆ used := by
    intro name hname
    obtain ⟨i, hi, rfl⟩ := mem_map.mp hname
    exact hall i (Nat.le_of_lt_succ (mem_range.mp hi))
  have hnodup : ((List.range (used.length + 1)).map (candidate base)).Nodup :=
    List.Nodup.map (candidate_injective base) nodup_range
  have hlength := (hnodup.subperm hsubset).length_le
  rw [length_map, length_range] at hlength
  omega

/-- The search finds the first free candidate if there is one in its reach. -/
theorem freshFrom_eq_candidate (fuel k : Nat)
    (hfree : ∃ i, k ≤ i ∧ i < k + fuel ∧ candidate base (i + 1) ∉ used) :
    ∃ i, k ≤ i ∧ freshFrom used base fuel (k + 2) = candidate base (i + 1) ∧
      candidate base (i + 1) ∉ used ∧ ∀ j, k ≤ j → j < i → candidate base (j + 1) ∈ used := by
  induction fuel generalizing k with
  | zero =>
    obtain ⟨i, hk, hi, _⟩ := hfree
    omega
  | succ fuel ih =>
    unfold freshFrom
    dsimp only
    split
    · next hk =>
      have hused : candidate base (k + 1) ∈ used := contains_iff_mem.mp hk
      obtain ⟨i, hi, hfuel, hifree⟩ := hfree
      have hne : i ≠ k := by
        rintro rfl
        exact hifree hused
      obtain ⟨r, hr, heq, hrfree, hbefore⟩ := ih (k + 1) ⟨i, by omega, by omega, hifree⟩
      refine ⟨r, by omega, heq, hrfree, ?_⟩
      intro j hj hjr
      rcases Nat.eq_or_lt_of_le hj with rfl | hlt
      · exact hused
      · exact hbefore j hlt hjr
    · next hk =>
      refine ⟨k, Nat.le_refl k, rfl, fun h => hk (contains_iff_mem.mpr h), ?_⟩
      intro j hj hlt
      omega

theorem firstFree_fresh (used : List String) (base : String) :
    FirstFree used base (fresh used base) := by
  unfold fresh
  split
  · next hbase =>
    have hused : candidate base 0 ∈ used := contains_iff_mem.mp hbase
    have hreach : ∃ i, 0 ≤ i ∧ i < 0 + used.length ∧ candidate base (i + 1) ∉ used := by
      obtain ⟨i, hi, hfree⟩ := exists_free used base
      cases i with
      | zero => exact absurd hused hfree
      | succ i => exact ⟨i, Nat.zero_le i, by omega, hfree⟩
    obtain ⟨i, _, heq, hfree, hbefore⟩ := freshFrom_eq_candidate used.length 0 hreach
    refine ⟨i + 1, heq, heq ▸ hfree, ?_⟩
    intro j hj
    cases j with
    | zero => exact hused
    | succ j => exact hbefore j (Nat.zero_le j) (Nat.lt_of_succ_lt_succ hj)
  · next hbase =>
    refine ⟨0, rfl, fun h => hbase (contains_iff_mem.mpr h), ?_⟩
    intro j hj
    cases hj

theorem FirstFree.isIdentifier (h : FirstFree used base name) (hbase : IsIdentifier base) :
    IsIdentifier name := by
  obtain ⟨i, rfl, _, _⟩ := h
  exact hbase.candidate i

theorem FirstFree.not_mem (h : FirstFree used base name) : name ∉ used := by
  obtain ⟨_, _, hfree, _⟩ := h
  exact hfree

theorem FirstFree.base_mem (h : FirstFree used base name) : base ∈ name :: used := by
  obtain ⟨i, rfl, _, hlower⟩ := h
  cases i with
  | zero => exact .head _
  | succ i => exact .tail _ (hlower 0 (Nat.succ_pos i))

end BlockProgram.Text
