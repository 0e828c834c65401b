import Mathlib.Data.List.Chain
import BlockProgram.Proofs.Text.Identifier

/-!
# Names and their identifiers

An identifier does not show all of its name: `a b`, `a-b` and `a_b` become `a_b`. Names that are
spelled alike, with one and the same sign between their words (`SpelledWith`), can be read back from
their identifiers (`map_respell_identifier`), so different ones get different identifiers. Nothing
keeps identifiers and reserved words apart: an identifier is reserved exactly if its name is, but
for blanks around it (`identifier_mem_reservedWords`).
-/

namespace BlockProgram.Text

open List

variable {name : String} {l : List Char} {sep : Char}

/-! ## Trimming -/

/-- Nothing is trimmed off a text that has no blank at its ends. -/
theorem trim_eq_self (hhead : ∀ c, l.head? = some c → isBlank c = false)
    (hlast : ∀ c, l.getLast? = some c → isBlank c = false) : trim l = l := by
  have hdrop : ∀ {k : List Char}, (∀ c, k.head? = some c → isBlank c = false) →
      k.dropWhile isBlank = k := by
    intro k hk
    cases k with
    | nil => rfl
    | cons c r => exact dropWhile_cons_of_neg (by simp [hk c rfl])
  unfold trim trimRight
  rw [hdrop hhead, hdrop (by simpa using hlast), reverse_reverse]

/-! ## Names that are identifiers -/

theorem squash_eq_self (h : ∀ c ∈ l, isNameChar c = true) (inRun : Bool) : squash inRun l = l := by
  induction l generalizing inRun with
  | nil => rfl
  | cons c r ih =>
    obtain ⟨hc, hr⟩ := forall_mem_cons.mp h
    rw [squash, if_pos hc, ih hr]

theorem guardStart_eq_self (hne : l ≠ []) (h : ∀ c, l.head? = some c → c.isDigit = false) :
    guardStart l = l := by
  cases l with
  | nil => exact absurd rfl hne
  | cons c r => rw [guardStart, if_neg (by simp [h c rfl])]

theorem identifier_eq_trimmed (h : IsIdentifier (trimmed name)) :
    identifier name = trimmed name := by
  obtain ⟨hne, hchars, hstart⟩ := h
  simp only [trimmed, String.toList_ofList] at hne hchars hstart
  unfold identifier trimmed
  rw [squash_eq_self hchars, guardStart_eq_self hne hstart]

theorem IsIdentifier.identifier_eq (h : IsIdentifier name) : identifier name = name := by
  have hblank : ∀ c ∈ name.toList, isBlank c = false :=
    fun c hc => isBlank_of_isNameChar (h.chars c hc)
  have htrim : trimmed name = name := by
    unfold trimmed
    rw [trim_eq_self (fun c hc => hblank c (mem_of_head? hc))
      (fun c hc => hblank c (mem_of_getLast? hc)), String.ofList_toList]
  rw [identifier_eq_trimmed (htrim.symm ▸ h), htrim]

/-- Whatever is changed in a name leaves a `_`. -/
theorem isIdentifier_trimmed (h : '_' ∉ (identifier name).toList) :
    IsIdentifier (trimmed name) := by
  have hguard : ∀ {l : List Char}, '_' ∉ guardStart l → guardStart l = l := by
    intro l hl
    cases l with
    | nil => exact absurd (.head _) hl
    | cons c r =>
      rw [guardStart] at hl ⊢
      split at hl
      · exact absurd (.head _) hl
      · next hc => rw [if_neg hc]
  have hsquash : ∀ {l : List Char}, '_' ∉ squash false l → squash false l = l := by
    intro l hl
    induction l with
    | nil => rfl
    | cons c r ih =>
      rw [squash] at hl ⊢
      split at hl
      · next hc =>
        rw [if_pos hc, ih fun hr => hl (.tail c hr)]
      · exact absurd (.head _) hl
  unfold identifier at h
  rw [String.toList_ofList] at h
  have hguarded := hguard h
  rw [hguarded] at h
  have hsame : identifier name = trimmed name := by
    unfold identifier trimmed
    rw [hguarded, hsquash h]
  exact hsame ▸ isIdentifier_identifier name

/-! ## Reserved words -/

theorem isIdentifier_of_mem_reservedWords {w : String} (h : w ∈ reservedWords) :
    IsIdentifier w ∧ '_' ∉ w.toList := by
  have hall : (reservedWords.all fun w => !w.toList.isEmpty && w.toList.all isNameChar &&
      w.toList.head?.all (!·.isDigit) && !w.toList.contains '_') = true := by decide +kernel
  have hword := all_eq_true.mp hall w h
  simp only [Bool.and_eq_true, Bool.not_eq_true', isEmpty_eq_false_iff, all_eq_true,
    Option.all_eq_true, contains_eq_mem, decide_eq_false_iff_not] at hword
  obtain ⟨⟨⟨hne, hchars⟩, hstart⟩, hunderscore⟩ := hword
  exact ⟨⟨hne, hchars, hstart⟩, hunderscore⟩

/-- An identifier is a reserved word exactly if its name is one, but for blanks around it. -/
theorem identifier_mem_reservedWords (name : String) :
    identifier name ∈ reservedWords ↔ trimmed name ∈ reservedWords := by
  constructor
  · intro h
    have hsame := identifier_eq_trimmed
      (isIdentifier_trimmed (isIdentifier_of_mem_reservedWords h).2)
    exact hsame ▸ h
  · intro h
    rw [identifier_eq_trimmed (isIdentifier_of_mem_reservedWords h).1]
    exact h

/-! ## Names that can be read back -/

/-- A name of words with `sep` between them, one at a time if it cannot stand in an identifier. The
words are of letters, digits and `$`, and no digit stands in front. -/
structure SpelledWith (sep : Char) (name : String) : Prop where
  chars : ∀ c ∈ name.toList, c = sep ∨ isNameChar c = true ∧ c ≠ '_'
  start : ∃ c ∈ name.toList.head?, isNameChar c = true ∧ c.isDigit = false
  stop : ∃ c ∈ name.toList.getLast?, isNameChar c = true
  lone : name.toList.IsChain fun a b => isNameChar a = true ∨ isNameChar b = true

instance decidableSpelledWith (sep : Char) (name : String) : Decidable (SpelledWith sep name) :=
  -- characters are sought in the name, not among all characters
  have := fun q [DecidablePred q] => List.decidableBAll q name.toList
  have := fun q [DecidablePred q] => Option.decidableExistsMem name.toList.head? (p := q)
  have := fun q [DecidablePred q] => Option.decidableExistsMem name.toList.getLast? (p := q)
  decidable_of_iff (_ ∧ _ ∧ _ ∧ _)
    ⟨fun ⟨h₁, h₂, h₃, h₄⟩ => ⟨h₁, h₂, h₃, h₄⟩, fun ⟨h₁, h₂, h₃, h₄⟩ => ⟨h₁, h₂, h₃, h₄⟩⟩

/-- Reads a character of an identifier as one of the name. -/
def respell (sep c : Char) : Char :=
  if c = '_' then sep else c

theorem respell_eq_self {c : Char} (h : c = sep ∨ isNameChar c = true ∧ c ≠ '_') :
    respell sep c = c := by
  unfold respell
  split
  · next hc => exact (h.resolve_right fun hw => hw.2 hc).symm
  · rfl

theorem map_respell_squash (hchars : ∀ c ∈ l, c = sep ∨ isNameChar c = true ∧ c ≠ '_')
    (hlone : l.IsChain fun a b => isNameChar a = true ∨ isNameChar b = true) :
    (squash false l).map (respell sep) = l := by
  induction l with
  | nil => rfl
  | cons c r ih =>
    obtain ⟨hc, hr⟩ := forall_mem_cons.mp hchars
    have hrest := ih hr hlone.tail
    rw [squash]
    split
    · rw [map_cons, respell_eq_self hc, hrest]
    · next hname =>
      have hsep : c = sep := hc.resolve_right fun hw => hname hw.1
      -- no run goes on behind a separator
      have hrun : squash true r = squash false r := by
        cases r with
        | nil => rfl
        | cons d r =>
          have hd : isNameChar d = true :=
            ((isChain_cons_cons.mp hlone).1).resolve_left hname
          rw [squash, squash, if_pos hd, if_pos hd]
      rw [if_neg Bool.false_ne_true, map_cons, hrun, hrest, hsep]
      rfl

theorem SpelledWith.map_respell_identifier (h : SpelledWith sep name) :
    (identifier name).toList.map (respell sep) = name.toList := by
  obtain ⟨c, hhead, hc, hdigit⟩ := h.start
  obtain ⟨d, hlast, hd⟩ := h.stop
  have htrim : trim name.toList = name.toList := by
    refine trim_eq_self (fun x hx => ?_) (fun x hx => ?_)
    · rw [hhead] at hx
      cases hx
      exact isBlank_of_isNameChar hc
    · rw [hlast] at hx
      cases hx
      exact isBlank_of_isNameChar hd
  have hguard : guardStart (squash false name.toList) = squash false name.toList := by
    cases hl : name.toList with
    | nil =>
      rw [hl] at hhead
      cases hhead
    | cons x r =>
      rw [hl] at hhead
      cases hhead
      rw [squash, if_pos hc, guardStart, if_neg (by simp [hdigit])]
  unfold identifier
  rw [String.toList_ofList, htrim, hguard]
  exact map_respell_squash h.chars h.lone

/-- Names that are spelled alike keep apart. -/
theorem SpelledWith.identifier_inj {name name' : String} (h : SpelledWith sep name)
    (h' : SpelledWith sep name') : identifier name = identifier name' ↔ name = name' := by
  constructor
  · intro heq
    have htext := h.map_respell_identifier
    rw [heq, h'.map_respell_identifier] at htext
    exact (String.toList_inj.mp htext).symm
  · exact congrArg identifier

end BlockProgram.Text
