import BlockProgram.Compile.EnumDeclaration
import BlockProgram.Proofs.Number.Decimal

/-!
# Values and names of enum members

A member of an enum is read by counting the characters of its value and cutting the text at the byte
of that number. These characters are single bytes, so the cut is never inside a character
(`exists_cut`). What is read is a value of 64 bits and a name that no digit begins, and the text is
one that stands for the value, followed by the name (`decode_eq_some_iff`).
-/

namespace BlockProgram.EnumMember

open List Decimal

variable {s text name : String} {v : Int}

theorem fits_iff : fits v = true ↔ ∃ w : Int64, w.toInt = v := by
  unfold fits
  rw [Bool.and_eq_true, decide_eq_true_eq, decide_eq_true_eq]
  constructor
  · rintro ⟨hlow, hhigh⟩
    exact ⟨.ofInt v, Int64.toInt_ofInt_of_le (by omega) (by omega)⟩
  · rintro ⟨w, rfl⟩
    have hlow := w.le_toInt
    have hhigh := w.toInt_lt
    omega

theorem value?_eq_some_iff (hplus : text.toList.head? ≠ some '+') :
    value? text = some v ↔ fits v = true ∧ Denotes text.toList v := by
  rw [denotes_iff_integer? hplus]
  unfold value?
  cases integer? text with
  | none => simp
  | some r =>
    simp only [Option.bind_eq_bind, Option.bind_some, Option.ite_none_right_eq_some,
      Option.some.injEq]
    constructor
    · rintro ⟨hfits, rfl⟩
      exact ⟨hfits, _, _, rfl, rfl⟩
    · rintro ⟨hfits, _, _, rfl, rfl⟩
      exact ⟨hfits, rfl⟩

/-! ## The cut -/

/-- Characters that stand in front of a name. -/
def IsLead (text : String) : Prop :=
  ∀ c ∈ text.toList, (c.isDigit || c == '-') = true

namespace IsLead

theorem head?_ne_plus (h : IsLead text) : text.toList.head? ≠ some '+' :=
  fun hplus => absurd (h '+' (mem_of_head? hplus)) (by decide)

theorem utf8ByteSize (h : IsLead text) : text.utf8ByteSize = text.length := by
  unfold IsLead at h
  rw [← String.ofList_toList (s := text), String.length_ofList]
  generalize text.toList = cs at h
  induction cs with
  | nil => rfl
  | cons c r ih =>
    obtain ⟨hc, hr⟩ := forall_mem_cons.mp h
    have hsize : c.utf8Size = 1 := by
      rcases Bool.or_eq_true_iff.mp hc with hc | hc
      · exact utf8Size_of_isDigit hc
      · rw [eq_of_beq hc]
        rfl
    rw [String.ofList_cons, String.utf8ByteSize_append, String.utf8ByteSize_singleton, hsize, ih hr,
      length_cons, Nat.add_comm]

end IsLead

/-- No digit begins the text. -/
def NoDigitFirst (text : String) : Prop :=
  text.toList.head?.any Char.isDigit = false

/-- Counting stops at the first character that is not counted. -/
theorem exists_lead (cs : List Char) (k : Nat) : ∃ lead rest, cs = lead ++ rest ∧
    ((cs.zipIdx k).takeWhile fun x => x.1.isDigit || (x.2 == 0 && x.1 == '-')).length =
      lead.length ∧
    (∀ c ∈ lead, (c.isDigit || c == '-') = true) ∧ rest.head?.any Char.isDigit = false := by
  induction cs generalizing k with
  | nil => exact ⟨[], [], rfl, rfl, forall_mem_nil _, rfl⟩
  | cons c r ih =>
    rw [zipIdx_cons, takeWhile_cons]
    split
    · next hc =>
      obtain ⟨lead, rest, rfl, hlength, hlead, hrest⟩ := ih (k + 1)
      refine ⟨c :: lead, rest, rfl, by rw [length_cons, hlength, length_cons], ?_, hrest⟩
      refine forall_mem_cons.mpr ⟨?_, hlead⟩
      rw [Bool.or_eq_true] at hc ⊢
      exact hc.imp_right fun h => (Bool.and_eq_true_iff.mp h).2
    · next hc =>
      have hdigit := (Bool.or_eq_false_iff.mp (Bool.eq_false_iff.mpr hc)).1
      exact ⟨[], c :: r, rfl, rfl, forall_mem_nil _, hdigit⟩

theorem exists_cut (s : String) : ∃ text name, s = text ++ name ∧ IsLead text ∧
    valueLength s = text.length ∧ NoDigitFirst name := by
  obtain ⟨lead, rest, hs, hlength, hlead, hrest⟩ := exists_lead s.toList 0
  refine ⟨.ofList lead, .ofList rest, ?_, ?_, ?_, ?_⟩
  · rw [← String.ofList_append, ← hs, String.ofList_toList]
  · unfold IsLead
    rwa [String.toList_ofList]
  · rw [String.length_ofList]
    exact hlength
  · unfold NoDigitFirst
    rwa [String.toList_ofList]

theorem valueLength_append (h : Denotes text.toList v) (hname : NoDigitFirst name) :
    valueLength (text ++ name) = text.length := by
  unfold valueLength
  rw [String.toList_append, ← String.length_toList]
  generalize text.toList = cs at h
  obtain ⟨hne, hlead⟩ : cs ≠ [] ∧
      ∀ x ∈ cs.zipIdx, (x.1.isDigit || (x.2 == 0 && x.1 == '-')) = true := by
    cases h with
    | plain h => exact ⟨h.1, fun x hx => by rw [h.2 _ (fst_mem_of_mem_zipIdx hx)]; rfl⟩
    | minus h =>
      refine ⟨cons_ne_nil _ _, forall_mem_cons.mpr ⟨rfl, fun x hx => ?_⟩⟩
      rw [h.2 _ (fst_mem_of_mem_zipIdx hx)]
      rfl
  rw [zipIdx_append, takeWhile_append_of_pos hlead]
  unfold NoDigitFirst at hname
  cases hn : name.toList with
  | nil => simp
  | cons d r => simp_all

/-! ## Reading -/

theorem pos?_valueLength (hlead : IsLead text)
    (hlength : valueLength (text ++ name) = text.length) :
    ∃ p, (text ++ name).pos? ⟨valueLength (text ++ name)⟩ = some p ∧ p.Splits text name := by
  have hvalid : text.rawEndPos.IsValid (text ++ name) :=
    String.Pos.Raw.isValid_rawEndPos.append_right name
  refine ⟨_, ?_, String.Pos.splits_append_rawEndPos⟩
  rw [hlength, ← hlead.utf8ByteSize]
  exact congrArg (Option.map _)
    (dif_pos (String.Pos.Raw.isValidForSlice_eq_true_iff.mpr hvalid.toSlice))

theorem decode_append (hlead : IsLead text)
    (hlength : valueLength (text ++ name) = text.length) : decode (text ++ name) =
      (value? text).bind fun v => if name.isEmpty then none else some ⟨v, name⟩ := by
  obtain ⟨p, hp, hsplits⟩ := pos?_valueLength hlead hlength
  unfold decode
  rw [hp, Option.bind_eq_bind, Option.bind_some, hsplits.copy_sliceTo_eq, hsplits.copy_sliceFrom_eq]
  rfl

theorem IsLead.of_denotes (h : Denotes text.toList v) : IsLead text := by
  unfold IsLead
  generalize text.toList = cs at h
  cases h with
  | plain h => exact fun c hc => by rw [h.2 c hc]; rfl
  | minus h => exact forall_mem_cons.mpr ⟨rfl, fun c hc => by rw [h.2 c hc]; rfl⟩

theorem decode_eq_some_iff : decode s = some ⟨v, name⟩ ↔
    name ≠ "" ∧ NoDigitFirst name ∧ (∃ w : Int64, w.toInt = v) ∧
      ∃ text : String, Denotes text.toList v ∧ s = text ++ name := by
  rw [← fits_iff]
  constructor
  · intro h
    obtain ⟨text, rest, rfl, hlead, hlength, hrest⟩ := exists_cut s
    rw [decode_append hlead hlength, Option.bind_eq_some_iff] at h
    obtain ⟨w, hw, h⟩ := h
    rw [Option.ite_none_left_eq_some, String.isEmpty_iff] at h
    obtain ⟨hne, ⟨⟩⟩ := h
    obtain ⟨hfits, hdenotes⟩ := (value?_eq_some_iff hlead.head?_ne_plus).mp hw
    exact ⟨hne, hrest, hfits, text, hdenotes, rfl⟩
  · rintro ⟨hne, hname, hfits, text, hdenotes, rfl⟩
    have hlead := IsLead.of_denotes hdenotes
    rw [decode_append hlead (valueLength_append hdenotes hname),
      (value?_eq_some_iff hlead.head?_ne_plus).mpr ⟨hfits, hdenotes⟩, Option.bind_some,
      if_neg (mt String.isEmpty_iff.mp hne)]

/-- The cut is between two characters, whatever the text. A value of 64 bits and a name that no
digit begins are read back from their texts. What is read from a text is such a value and such a
name, and the text is one that stands for the value, followed by the name. -/
theorem decode_exact :
    (∀ s : String, (s.pos? ⟨valueLength s⟩).isSome = true) ∧
    (∀ (v : Int64) (name : String), name ≠ "" → NoDigitFirst name →
      decode (toString v ++ name) = some ⟨v.toInt, name⟩) ∧
    ∀ (s : String) (v : Int) (name : String), decode s = some ⟨v, name⟩ ↔
      name ≠ "" ∧ NoDigitFirst name ∧ (∃ w : Int64, w.toInt = v) ∧
        ∃ text : String, Denotes text.toList v ∧ s = text ++ name := by
  refine ⟨fun s => ?_, fun v name hne hname => ?_, fun s v name => decode_eq_some_iff⟩
  · obtain ⟨text, name, rfl, hlead, hlength, _⟩ := exists_cut s
    obtain ⟨p, hp, _⟩ := pos?_valueLength hlead hlength
    rw [hp]
    rfl
  · exact decode_eq_some_iff.mpr
      ⟨hne, hname, ⟨v, rfl⟩, toString v, denotes_toString v.toInt, rfl⟩

/-- The lowest value in front of a sign and a letter of two bytes, and zeros in front of a value. -/
theorem decode_exact_lowest :
    decode "-9223372036854775808-é" = some ⟨-9223372036854775808, "-é"⟩ ∧
    decode "-007é" = some ⟨-7, "é"⟩ := by
  refine ⟨decode_exact.2.1 Int64.minValue "-é" (by decide) rfl, ?_⟩
  have hdigits : IsNumeral ['0', '0', '7'] := ⟨by decide, all_eq_true.mp (by decide)⟩
  exact (decode_exact.2.2 "-007é" (-7) "é").mpr
    ⟨by decide, rfl, ⟨-7, by decide⟩, "-007", .minus hdigits, by decide⟩

end BlockProgram.EnumMember
