import Mathlib.Data.List.Forall2
import BlockProgram.Code.Layout

/-!
# The source map is exact

The entries that come with laid out code are those of its named parts, one for each and in the order
in which the parts begin. The bytes of an entry begin and end between two characters, and they are
the text that its part has when it is written alone at its nesting level. Of two entries the later
one lies inside the earlier one or after it.

The writer counts from the byte `start` at which its text is put, and every text it makes is put
between other texts later on. So the statement that carries the induction, `Traces`, speaks of an
entry as a place `before ++ s ++ after` of the text made so far, which is easy to widen.
-/

namespace BlockProgram

open List

variable {start : Nat} {text s : String} {w : Written} {e : SourceEntry}

/-- The first byte after an entry. -/
def SourceEntry.stop (e : SourceEntry) : Nat :=
  e.start + e.length

/-- A later entry begins no sooner, and lies inside the earlier one or after it. -/
def SourceEntry.Precedes (e f : SourceEntry) : Prop :=
  e.start ≤ f.start ∧ (f.stop ≤ e.stop ∨ e.stop ≤ f.start)

/-- The bytes of an entry lie between two character boundaries of the text and spell `s`. -/
structure SourceEntry.Marks (e : SourceEntry) (text s : String) : Prop where
  start_valid : String.Pos.Raw.IsValid text ⟨e.start⟩
  stop_valid : String.Pos.Raw.IsValid text ⟨e.stop⟩
  slice_eq : text.toByteArray.extract e.start e.stop = s.toByteArray

namespace Code

/-! ## Parts -/

mutual

/-- The parts of code, itself among them, in the order in which they begin, with their levels. -/
def parts (depth : Nat) : Code → List (Nat × Code)
  | .text t s => [(depth, .text t s)]
  | .group t cs => (depth, .group t cs) :: partsAll depth cs
  | .block t cs => (depth, .block t cs) :: partsAll (depth + 1) cs
  | .binary t op l r => (depth, .binary t op l r) :: (parts depth l ++ parts depth r)
  | .unary t op c => (depth, .unary t op c) :: parts depth c

def partsAll (depth : Nat) : List Code → List (Nat × Code)
  | [] => []
  | c :: r => parts depth c ++ partsAll depth r

end

/-- Whether a part was made from a block. -/
def isNamed (part : Nat × Code) : Bool :=
  part.2.tag.id.isSome

/-- The text of a part that stands alone. -/
def ownText (part : Nat × Code) : String :=
  (write part.1 0 part.2).text

/-! ## Where a text is put does not change it -/

@[simp] theorem record_text (t : Tag) (start : Nat) (w : Written) :
    (record t start w).text = w.text := by
  unfold record
  cases t.id <;> rfl

theorem wrapped_text_congr (wrap : Bool) {v w : Written} (h : v.text = w.text) :
    (wrapped wrap v).text = (wrapped wrap w).text := by
  cases wrap <;> simp [wrapped, h]

mutual

theorem write_text (depth m n : Nat) : (c : Code) → (write depth m c).text = (write depth n c).text
  | .text t s => by simp [write]
  | .group t cs => by simp [write, writeParts_text depth m n cs]
  | .block t cs => by simp [write, writeStatements_text (depth + 1) (m + 2) (n + 2) true cs]
  | .binary t op l r => by
    simp only [write, record_text]
    rw [wrapped_text_congr _ (write_text depth _ _ l),
      wrapped_text_congr _ (write_text depth _ _ r)]
  | .unary t op c => by
    simp only [write, record_text]
    rw [wrapped_text_congr _ (write_text depth _ _ c)]

theorem writeParts_text (depth m n : Nat) :
    (cs : List Code) → (writeParts depth m cs).text = (writeParts depth n cs).text
  | [] => rfl
  | c :: r => by
    simp only [writeParts]
    rw [write_text depth m n c, writeParts_text depth _ _ r]

theorem writeStatements_text (depth m n : Nat) (first : Bool) : (cs : List Code) →
    (writeStatements depth m first cs).text = (writeStatements depth n first cs).text
  | [] => rfl
  | c :: r => by
    simp only [writeStatements]
    rw [write_text depth _ _ c, writeStatements_text depth _ _ false r]

end

/-! ## Entries and the places of their texts -/

/-- An entry of a text put at byte `start` is the place of `s` between two parts of the text. -/
def Occurs (text : String) (start : Nat) (e : SourceEntry) (s : String) : Prop :=
  ∃ before after, text = before ++ s ++ after ∧ e.start = start + before.utf8ByteSize ∧
    e.length = s.utf8ByteSize

theorem Occurs.surround (lead tail : String) (h : Occurs text (start + lead.utf8ByteSize) e s) :
    Occurs (lead ++ text ++ tail) start e s := by
  obtain ⟨before, after, rfl, hstart, hlength⟩ := h
  refine ⟨lead ++ before, after ++ tail, by simp [String.append_assoc], ?_, hlength⟩
  rw [hstart, String.utf8ByteSize_append]
  omega

theorem Occurs.bounds (h : Occurs text start e s) :
    start ≤ e.start ∧ e.stop ≤ start + text.utf8ByteSize := by
  obtain ⟨before, after, rfl, hstart, hlength⟩ := h
  simp only [SourceEntry.stop, hstart, hlength, String.utf8ByteSize_append]
  constructor <;> omega

theorem Occurs.marks (h : Occurs text 0 e s) : e.Marks text s := by
  obtain ⟨before, after, rfl, hstart, hlength⟩ := h
  have hstop : e.stop = (before ++ s).utf8ByteSize := by
    simp only [SourceEntry.stop, hstart, hlength, String.utf8ByteSize_append]
    omega
  rw [Nat.zero_add] at hstart
  refine ⟨?_, ?_, ?_⟩
  · apply String.Pos.Raw.isValid_iff_exists_append.2
    exact ⟨before, s ++ after, by rw [String.append_assoc], by rw [hstart]; rfl⟩
  · apply String.Pos.Raw.isValid_iff_exists_append.2
    exact ⟨before ++ s, after, rfl, by rw [hstop]; rfl⟩
  · have skipped : before.toByteArray.extract e.start e.stop = ByteArray.empty := by
      rw [ByteArray.extract_eq_empty_iff, hstart, String.size_toByteArray]
      omega
    have tail : after.toByteArray.extract (e.start - (before ++ s).utf8ByteSize)
        (e.stop - (before ++ s).utf8ByteSize) = ByteArray.empty := by
      rw [ByteArray.extract_eq_empty_iff]
      omega
    have whole : s.toByteArray.extract (e.start - before.utf8ByteSize)
        (e.stop - before.utf8ByteSize) = s.toByteArray := by
      rw [hstop, hstart, String.utf8ByteSize_append, Nat.sub_self, Nat.add_sub_cancel_left,
        ← String.size_toByteArray, ByteArray.extract_zero_size]
    rw [String.toByteArray_append, ByteArray.extract_append, String.size_toByteArray, tail,
      String.toByteArray_append, ByteArray.extract_append, String.size_toByteArray, skipped, whole,
      ByteArray.empty_append, ByteArray.append_empty]

/-- The entries of a text put at byte `start` are those of the named ones among `parts`, in
order. -/
structure Traces (start : Nat) (w : Written) (parts : List (Nat × Code)) : Prop where
  occurs : List.Forall₂ (fun e part => part.2.tag.id = some e.id ∧
    Occurs w.text start e (ownText part))
    w.map (parts.filter isNamed)
  ordered : w.map.Pairwise SourceEntry.Precedes

namespace Traces

theorem nil (start : Nat) (text : String) : Traces start { text := text } [] :=
  ⟨List.Forall₂.nil, List.Pairwise.nil⟩

theorem bounds {parts : List (Nat × Code)} (h : Traces start w parts) (he : e ∈ w.map) :
    start ≤ e.start ∧ e.stop ≤ start + w.text.utf8ByteSize := by
  obtain ⟨i, hi, rfl⟩ := getElem_of_mem he
  exact (h.occurs.get hi (h.occurs.length_eq ▸ hi)).2.bounds

/-- Text before and after leaves the entries as they are. -/
theorem surround {parts : List (Nat × Code)} (lead tail : String)
    (h : Traces (start + lead.utf8ByteSize) w parts) :
    Traces start { w with text := lead ++ w.text ++ tail } parts :=
  ⟨h.occurs.imp fun _ _ part => ⟨part.1, part.2.surround lead tail⟩, h.ordered⟩

theorem append {v w : Written} {ps qs : List (Nat × Code)} (hv : Traces start v ps)
    (hw : Traces (start + v.text.utf8ByteSize) w qs) :
    Traces start { text := v.text ++ w.text, map := v.map ++ w.map } (ps ++ qs) := by
  constructor
  · rw [filter_append]
    refine rel_append ?_ ?_
    · exact hv.occurs.imp fun _ _ part => ⟨part.1, by simpa using part.2.surround "" w.text⟩
    · exact hw.occurs.imp fun _ _ part => ⟨part.1, by simpa using part.2.surround v.text ""⟩
  · refine pairwise_append.2 ⟨hv.ordered, hw.ordered, fun e he f hf => ?_⟩
    -- all of `v` ends where `w` starts
    have := hv.bounds he
    have := hw.bounds hf
    simp only [SourceEntry.Precedes, SourceEntry.stop] at *
    omega

/-- The entry of a part stands before those of its own parts. -/
theorem record {start depth : Nat} {ps : List (Nat × Code)} {c : Code} (h : Traces start w ps)
    (hc : ownText (depth, c) = w.text) :
    Traces start (record c.tag start w) ((depth, c) :: ps) := by
  unfold Code.record
  cases hid : c.tag.id with
  | none =>
    refine ⟨?_, h.ordered⟩
    rw [filter_cons_of_neg (by simp [isNamed, hid])]
    exact h.occurs
  | some id =>
    constructor
    · rw [filter_cons_of_pos (by simp [isNamed, hid])]
      refine List.Forall₂.cons ⟨hid, ?_⟩ h.occurs
      exact ⟨"", "", by simp [hc], by simp, by simp [hc]⟩
    · refine pairwise_cons.2 ⟨fun f hf => ?_, h.ordered⟩
      have := h.bounds hf
      simp only [SourceEntry.Precedes, SourceEntry.stop] at *
      omega

theorem wrapped {ps : List (Nat × Code)} {wrap : Bool} (h : Traces (operandStart wrap start) w ps) :
    Traces start (wrapped wrap w) ps := by
  cases wrap with
  | false => exact h
  | true => exact surround "(" ")" h

end Traces

/-! ## The writer -/

mutual

theorem traces_write (depth start : Nat) :
    (c : Code) → Traces start (write depth start c) (parts depth c)
  | .text t s => (Traces.nil start s).record (c := .text t s) (record_text t 0 _)
  | .group t cs => by
    have own : ownText (depth, .group t cs) = (writeParts depth start cs).text := by
      simp only [ownText, write, record_text]
      exact writeParts_text depth 0 start cs
    exact (traces_writeParts depth start cs).record own
  | .block t cs => by
    have body := traces_writeStatements (depth + 1) (start + 2) true cs
    have braced := body.surround "\x7b\n" (indentation depth ++ "\x7d")
    rw [← String.append_assoc] at braced
    refine braced.record (c := .block t cs) ?_
    simp only [ownText, write, record_text]
    rw [writeStatements_text (depth + 1) (0 + 2) (start + 2)]
  | .binary t op l r => by
    have left := (traces_write depth (operandStart (needsParentheses op false l) start) l).wrapped
    have ended := Traces.surround "" (" " ++ op ++ " ") left
    rw [String.empty_append] at ended
    have both := ended.append (traces_write depth (operandStart (needsParentheses op true r) _)
      r).wrapped
    rw [String.utf8ByteSize_append, ← Nat.add_assoc] at both
    refine both.record (c := .binary t op l r) ?_
    simp only [ownText, write, record_text]
    rw [wrapped_text_congr _ (write_text depth _ _ l),
      wrapped_text_congr _ (write_text depth _ _ r)]
  | .unary t op c => by
    have operand := (traces_write depth (operandStart (isBinary c) (start + op.utf8ByteSize))
      c).wrapped
    have prefixed := operand.surround op ""
    rw [String.append_empty] at prefixed
    refine prefixed.record (c := .unary t op c) ?_
    simp only [ownText, write, record_text]
    rw [wrapped_text_congr _ (write_text depth _ _ c)]

theorem traces_writeParts (depth start : Nat) :
    (cs : List Code) → Traces start (writeParts depth start cs) (partsAll depth cs)
  | [] => Traces.nil start ""
  | c :: r => (traces_write depth start c).append (traces_writeParts depth _ r)

theorem traces_writeStatements (depth start : Nat) (first : Bool) :
    (cs : List Code) → Traces start (writeStatements depth start first cs) (partsAll depth cs)
  | [] => Traces.nil start ""
  | c :: r => by
    exact ((traces_write depth _ c).surround _ "\n").append (traces_writeStatements depth _ false r)

end

/-- The map of a program has one entry for each named part, in the order in which the parts begin.
Its bytes spell the part as it is written alone, and any two entries are nested or apart. -/
theorem layOut_map_exact (statements : List Code) :
    List.Forall₂ (fun e part => part.2.tag.id = some e.id ∧
      e.Marks (layOut statements).text (ownText part))
      (layOut statements).map ((partsAll 0 statements).filter isNamed) ∧
    (layOut statements).map.Pairwise SourceEntry.Precedes := by
  have traces := traces_writeStatements 0 0 true statements
  exact ⟨traces.occurs.imp fun _ _ part => ⟨part.1, part.2.marks⟩, traces.ordered⟩

end Code

end BlockProgram
