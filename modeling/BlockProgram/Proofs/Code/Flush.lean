import BlockProgram.Proofs.Code.SourceMap
import BlockProgram.Proofs.Text.Tidy

/-!
# Code that is laid out tidily

The layout itself puts no blank before the end of a line and never leaves two lines blank. So code
is flush, at every nesting level, if its texts are (`IsFlush`), and a statement may stand on lines
of its own if moreover it ends in a character that is not blank (`IsLine`). A program of such
statements is tidy as it is laid out (`tidy_layOut`).
-/

namespace BlockProgram.Code

open Text List

variable {c : Code} {s : String} {statements parts r : List Code}

def IsFlush (c : Code) : Prop :=
  ∀ depth start, Text.IsFlush (write depth start c).text

/-- The code is flush, and a line may end behind it. -/
def IsLine (c : Code) : Prop :=
  ∀ depth start, EndsSolid (write depth start c).text

theorem IsLine.isFlush (h : IsLine c) : IsFlush c :=
  fun depth start => (h depth start).isFlush

/-! ## Names and texts -/

theorem write_withTag_text (depth start : Nat) (t : Tag) (c : Code) :
    (write depth start (c.withTag t)).text = (write depth start c).text := by
  cases c <;> simp [withTag, write]

theorem IsFlush.named (h : IsFlush c) (id : String) : IsFlush (c.named id) := by
  intro depth start
  unfold Code.named
  rw [write_withTag_text]
  exact h depth start

theorem IsLine.named (h : IsLine c) (id : String) : IsLine (c.named id) := by
  intro depth start
  unfold Code.named
  rw [write_withTag_text]
  exact h depth start

theorem IsLine.separated (h : IsLine c) (blank : Bool) : IsLine (c.separated blank) := by
  intro depth start
  unfold Code.separated
  rw [write_withTag_text]
  exact h depth start

theorem isFlush_ofText (h : Text.IsFlush s) : IsFlush (ofText s) := by
  intro depth start
  simpa [ofText, write] using h

theorem isLine_ofText (h : EndsSolid s) : IsLine (ofText s) := by
  intro depth start
  simpa [ofText, write] using h

/-! ## Parts -/

def AreFlush (parts : List Code) : Prop :=
  ∀ c ∈ parts, IsFlush c

/-- Flush parts, the last of which a line may end behind. -/
inductive MakeLine : List Code → Prop where
  | last {c : Code} (h : IsLine c) : MakeLine [c]
  | cons {c : Code} {r : List Code} (h : IsFlush c) (hr : MakeLine r) : MakeLine (c :: r)

theorem AreFlush.nil : AreFlush [] :=
  fun _ hc => by cases hc

theorem AreFlush.cons (hc : IsFlush c) (hr : AreFlush r) : AreFlush (c :: r) :=
  forall_mem_cons.mpr ⟨hc, hr⟩

theorem AreFlush.text (hs : Text.IsFlush s) (hr : AreFlush r) : AreFlush (ofText s :: r) :=
  .cons (isFlush_ofText hs) hr

theorem AreFlush.append {l r : List Code} (hl : AreFlush l) (hr : AreFlush r) : AreFlush (l ++ r) :=
  forall_mem_append.mpr ⟨hl, hr⟩

theorem MakeLine.text (hs : Text.IsFlush s) (hr : MakeLine r) : MakeLine (ofText s :: r) :=
  .cons (isFlush_ofText hs) hr

theorem AreFlush.makeLine {l r : List Code} (hl : AreFlush l) (hr : MakeLine r) :
    MakeLine (l ++ r) := by
  induction l with
  | nil => exact hr
  | cons c l ih =>
    obtain ⟨hc, hl⟩ := forall_mem_cons.mp hl
    exact .cons hc (ih hl)

theorem isFlush_ofParts (h : AreFlush parts) : IsFlush (ofParts parts) := by
  have hparts : ∀ depth start, Text.IsFlush (writeParts depth start parts).text := by
    intro depth
    induction parts with
    | nil => exact fun _ => rfl
    | cons c r ih =>
      intro start
      obtain ⟨hc, hr⟩ := forall_mem_cons.mp h
      exact (hc depth start).append (ih hr _)
  intro depth start
  simpa [ofParts, write] using hparts depth start

theorem isLine_ofParts (h : MakeLine parts) : IsLine (ofParts parts) := by
  have hparts : ∀ depth start, Text.EndsSolid (writeParts depth start parts).text := by
    intro depth
    induction h with
    | @last c hc =>
      intro start
      have htext : (writeParts depth start [c]).text = (write depth start c).text :=
        String.append_empty
      rw [htext]
      exact hc depth start
    | cons hc hr ih => exact fun start => (hc depth start).append_solid (ih _)
  intro depth start
  simpa [ofParts, write] using hparts depth start

theorem isLine_statement (h : AreFlush parts) : IsLine (statement parts) :=
  isLine_ofParts (h.makeLine (.last (isLine_ofText (by decide))))

theorem isFlush_commaSeparated {items : List Code} (h : AreFlush items) :
    IsFlush (commaSeparated items) := by
  refine isFlush_ofParts ?_
  induction items with
  | nil => exact .nil
  | cons c r ih =>
    obtain ⟨hc, hr⟩ := forall_mem_cons.mp h
    cases r with
    | nil => exact h
    | cons d r =>
      rw [intersperse_cons_cons]
      exact .cons hc (.text (by decide) (ih hr))

theorem isLine_parenthesized (h : IsFlush c) : IsLine c.parenthesized :=
  isLine_ofParts (.text (by decide) (.cons h (.last (isLine_ofText (by decide)))))

theorem isLine_call {callee : String} (hcallee : Text.IsFlush callee) {args : List Code}
    (hargs : AreFlush args) : IsLine (call callee args) :=
  isLine_ofParts (.text (hcallee.append (by decide))
    (.cons (isFlush_commaSeparated hargs) (.last (isLine_ofText (by decide)))))

theorem isFlush_followedBy (hc : IsFlush c) {suffix : String} (hsuffix : Text.IsFlush suffix) :
    IsFlush (c.followedBy suffix) := by
  have hplain : IsFlush (ofParts [c, ofText suffix]) :=
    isFlush_ofParts (.cons hc (.text hsuffix .nil))
  have hwrapped : IsFlush (ofParts [c.parenthesized, ofText suffix]) :=
    isFlush_ofParts (.cons (isLine_parenthesized hc).isFlush (.text hsuffix .nil))
  cases c with
  | text t s => exact hplain
  | group t cs => exact hplain
  | block t cs => exact hplain
  | binary t op l r => exact hwrapped
  | unary t op c => exact hwrapped

/-! ## Operators -/

theorem isFlush_wrapped {w : Written} (h : Text.IsFlush w.text) (wrap : Bool) :
    Text.IsFlush (wrapped wrap w).text := by
  cases wrap with
  | false => exact h
  | true =>
    have hopen : Text.IsFlush "(" := by decide
    exact (hopen.append h).append (by decide)

theorem isFlush_infixed {l r : Code} (hl : IsFlush l) {op : String} (hop : Text.IsFlush op)
    (hr : IsFlush r) : IsFlush (infixed l op r) := by
  intro depth start
  have hblank : Text.IsFlush " " := by decide
  simp only [infixed, write, record_text]
  exact ((isFlush_wrapped (hl depth _) _).append ((hblank.append hop).append hblank)).append
    (isFlush_wrapped (hr depth _) _)

theorem isFlush_prefixed {op : String} (hop : Text.IsFlush op) (hc : IsFlush c) :
    IsFlush (prefixed op c) := by
  intro depth start
  simp only [prefixed, write, record_text]
  exact hop.append (isFlush_wrapped (hc depth _) _)

/-! ## Statements -/

theorem isFlush_indentation (depth : Nat) : Text.IsFlush (indentation depth) := by
  refine IsInline.isFlush fun c hc => ?_
  have hblank : c = ' ' := eq_of_mem_replicate (by simpa [indentation] using hc)
  rw [hblank]
  decide

/-- What stands in front of a statement can be read from the end of a line, and from anywhere if no
statement comes before. -/
theorem exists_scan_lead (depth : Nat) {first blankBefore : Bool} {s : Before}
    (hs : first = true ∨ s = .lineEnd) :
    ∃ s', scan s
      ((if !first && blankBefore then "\n" else "") ++ indentation depth).toList = some s' := by
  rw [String.toList_append, scan_append]
  by_cases hblank : (!first && blankBefore) = true
  · have hfirst : first = false := by simpa using (Bool.and_eq_true_iff.mp hblank).1
    obtain rfl := hs.resolve_left (by simp [hfirst])
    rw [if_pos hblank]
    exact (isFlush_indentation depth).exists_scan .blank
  · rw [if_neg hblank]
    exact (isFlush_indentation depth).exists_scan s

/-- Statements are read from the end of a line to the end of a line. In front of the first one
anything may stand, since no blank line comes between. -/
theorem scan_writeStatements (h : ∀ c ∈ statements, IsLine c) (depth start : Nat) {first : Bool}
    {s : Before} (hs : first = true ∨ s = .lineEnd) :
    scan s (writeStatements depth start first statements).text.toList =
      some (if statements.isEmpty then s else .lineEnd) := by
  induction statements generalizing start first s with
  | nil => rfl
  | cons c r ih =>
    obtain ⟨hc, hr⟩ := forall_mem_cons.mp h
    simp only [writeStatements]
    generalize hlead : (if !first && c.tag.blankBefore then "\n" else "") ++ indentation depth
      = lead
    obtain ⟨s', hs'⟩ := hlead ▸ exists_scan_lead depth hs
    have hline := hc depth (start + lead.utf8ByteSize)
    have hrest : ∀ next, scan .lineEnd (writeStatements depth next false r).text.toList =
        some .lineEnd := by
      intro next
      rw [ih hr next (.inr rfl), ite_self]
    simp only [String.toList_append, scan_append, hs', Option.bind_some,
      scan_of_blank hline hline.ne_nil s']
    exact hrest _

theorem isLine_braces (h : ∀ c ∈ statements, IsLine c) : IsLine (braces statements) := by
  intro depth start
  simp only [braces, write, record_text]
  have hbody := scan_writeStatements h (depth + 1) (start + 2) (s := .lineEnd) (.inl rfl)
  obtain ⟨s', hs'⟩ := (isFlush_indentation depth).exists_scan .lineEnd
  have hopen : Text.scan .blank "\x7b\n".toList = some .lineEnd := by decide
  have hclose : Text.EndsSolid "\x7d" := by decide
  rw [ite_self] at hbody
  unfold EndsSolid
  simp only [String.toList_append, scan_append, hopen, Option.bind_some, hbody, hs']
  exact scan_of_blank hclose hclose.ne_nil s'

/-- A program of statements that lines may end behind is tidy as it is laid out. -/
theorem tidy_layOut (h : ∀ c ∈ statements, IsLine c) :
    tidy (layOut statements).text = (layOut statements).text := by
  cases statements with
  | nil => rfl
  | cons c r => exact tidy_eq_self (scan_writeStatements h 0 0 (.inl rfl))

end BlockProgram.Code
