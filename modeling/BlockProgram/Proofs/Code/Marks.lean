import BlockProgram.Proofs.Code.SourceMap

/-!
# Marks of code

What code looks like from afar: where braces open and close, which lines were made from no block,
and where the parts begin that were made from blocks, all in the order of the text.
-/

namespace BlockProgram

open List

/-- What can be seen of code from afar. -/
inductive Mark where
  | opens
  | closes
  /-- A line that was made from no block. -/
  | line (text : String)
  /-- A part that was made from the block with an id. -/
  | part (id : String)
deriving Repr, DecidableEq

def Mark.id? : Mark → Option String
  | .part id => some id
  | _ => none

namespace Code

def ownMarks (t : Tag) : List Mark :=
  (t.id.map Mark.part).toList

/-- The mark of a line that carries no id. -/
def ownLine (c : Code) : List Mark :=
  if c.tag.id.isSome then [] else [.line c.source]

mutual

def marks : Code → List Mark
  | .text t _ => ownMarks t
  | .group t cs => ownMarks t ++ partMarks cs
  | .block t cs => ownMarks t ++ (.opens :: (lineMarks cs ++ [.closes]))
  | .binary t _ l r => ownMarks t ++ (marks l ++ marks r)
  | .unary t _ c => ownMarks t ++ marks c

def partMarks : List Code → List Mark
  | [] => []
  | c :: r => marks c ++ partMarks r

/-- The marks of statements on lines of their own. -/
def lineMarks : List Code → List Mark
  | [] => []
  | c :: r => ownLine c ++ (marks c ++ lineMarks r)

end

/-! ## Lists -/

@[simp] theorem partMarks_nil : partMarks [] = [] := by
  simp only [partMarks]

@[simp] theorem partMarks_cons (c : Code) (r : List Code) :
    partMarks (c :: r) = marks c ++ partMarks r := by
  simp only [partMarks]

theorem partMarks_append (l r : List Code) : partMarks (l ++ r) = partMarks l ++ partMarks r := by
  induction l with
  | nil => rw [partMarks_nil, nil_append, nil_append]
  | cons c l ih =>
    rw [cons_append, partMarks_cons, partMarks_cons, ih, append_assoc]

@[simp] theorem lineMarks_nil : lineMarks [] = [] := by
  simp only [lineMarks]

@[simp] theorem lineMarks_cons (c : Code) (r : List Code) :
    lineMarks (c :: r) = ownLine c ++ (marks c ++ lineMarks r) := by
  simp only [lineMarks]

theorem lineMarks_append (l r : List Code) : lineMarks (l ++ r) = lineMarks l ++ lineMarks r := by
  induction l with
  | nil => rw [lineMarks_nil, nil_append, nil_append]
  | cons c l ih =>
    rw [cons_append, lineMarks_cons, lineMarks_cons, ih, append_assoc, append_assoc]

/-! ## Building -/

@[simp] theorem marks_ofText (s : String) : (ofText s).marks = [] := by
  simp only [ofText, marks, ownMarks, Option.map_none, Option.toList_none]

@[simp] theorem marks_ofParts (parts : List Code) : (ofParts parts).marks = partMarks parts := by
  simp only [ofParts, marks, ownMarks, Option.map_none, Option.toList_none, nil_append]

@[simp] theorem marks_braces (statements : List Code) :
    (braces statements).marks = .opens :: (lineMarks statements ++ [.closes]) := by
  simp only [braces, marks, ownMarks, Option.map_none, Option.toList_none, nil_append]

@[simp] theorem marks_infixed (l : Code) (op : String) (r : Code) :
    (infixed l op r).marks = l.marks ++ r.marks := by
  simp only [infixed, marks, ownMarks, Option.map_none, Option.toList_none, nil_append]

@[simp] theorem marks_prefixed (op : String) (c : Code) : (prefixed op c).marks = c.marks := by
  simp only [prefixed, marks, ownMarks, Option.map_none, Option.toList_none, nil_append]

@[simp] theorem marks_statement (parts : List Code) :
    (statement parts).marks = partMarks parts := by
  simp [statement, partMarks_append]

@[simp] theorem partMarks_intersperse (s : String) (items : List Code) :
    partMarks (items.intersperse (ofText s)) = partMarks items := by
  induction items with
  | nil => rfl
  | cons c r ih =>
    cases r with
    | nil => rfl
    | cons d r =>
      rw [intersperse_cons_cons, partMarks_cons, partMarks_cons, ih, marks_ofText,
        nil_append, ← partMarks_cons]

@[simp] theorem marks_commaSeparated (items : List Code) :
    (commaSeparated items).marks = partMarks items := by
  rw [commaSeparated, marks_ofParts, partMarks_intersperse]

@[simp] theorem marks_parenthesized (c : Code) : c.parenthesized.marks = c.marks := by
  simp [parenthesized]

@[simp] theorem marks_call (callee : String) (args : List Code) :
    (call callee args).marks = partMarks args := by
  simp [call]

@[simp] theorem marks_followedBy (c : Code) (suffix : String) :
    (c.followedBy suffix).marks = c.marks := by
  unfold followedBy
  split <;> simp

/-! ## Names -/

/-- A part is named unless it has a name. -/
theorem marks_named (c : Code) (id : String) :
    (c.named id).marks = (if c.tag.id.isSome then [] else [.part id]) ++ c.marks := by
  cases c with
  | text t s => cases h : t.id <;> simp [named, tag, withTag, marks, ownMarks, h]
  | group t cs => cases h : t.id <;> simp [named, tag, withTag, marks, ownMarks, h]
  | block t cs => cases h : t.id <;> simp [named, tag, withTag, marks, ownMarks, h]
  | binary t op l r => cases h : t.id <;> simp [named, tag, withTag, marks, ownMarks, h]
  | unary t op c => cases h : t.id <;> simp [named, tag, withTag, marks, ownMarks, h]

theorem isSome_id_named (c : Code) (id : String) : (c.named id).tag.id.isSome = true := by
  cases c <;> rfl

theorem id_named {c : Code} (h : c.tag.id = none) (id : String) :
    (c.named id).tag.id = some id := by
  cases c <;> exact congrArg (fun o : Option String => some (o.getD id)) h

theorem id_named_ne_none (c : Code) (id : String) : (c.named id).tag.id ≠ none :=
  Option.isSome_iff_ne_none.mp (isSome_id_named c id)

@[simp] theorem ownLine_named (c : Code) (id : String) : (c.named id).ownLine = [] := by
  unfold ownLine
  rw [isSome_id_named]
  rfl

@[simp] theorem marks_separated (c : Code) (blank : Bool) :
    (c.separated blank).marks = c.marks := by
  cases c <;> simp [separated, tag, withTag, marks, ownMarks]

theorem id_separated (c : Code) (blank : Bool) : (c.separated blank).tag.id = c.tag.id := by
  cases c <;> rfl

theorem source_withTag (t : Tag) (c : Code) : (c.withTag t).source = c.source := by
  cases c <;> simp [withTag, source, write, record_text]

@[simp] theorem ownLine_separated (c : Code) (blank : Bool) :
    (c.separated blank).ownLine = c.ownLine := by
  have hsource : (c.separated blank).source = c.source := source_withTag _ c
  unfold ownLine
  rw [hsource, id_separated]

/-- A simple statement that is only text. -/
theorem ownLine_statement_ofText (s : String) :
    (statement [ofText s]).ownLine = [.line (s ++ ";")] := by
  simp [ownLine, statement, ofParts, ofText, tag, source, write, writeParts, record]

/-! ## The source map -/

theorem filterMap_ownMarks (t : Tag) : (ownMarks t).filterMap Mark.id? = t.id.toList := by
  unfold ownMarks
  cases t.id <;> rfl

theorem filterMap_ownLine (c : Code) : (ownLine c).filterMap Mark.id? = [] := by
  unfold ownLine
  split <;> rfl

mutual

/-- The parts that marks show are the named ones. -/
theorem filterMap_marks (depth : Nat) : (c : Code) →
    (marks c).filterMap Mark.id? = (parts depth c).filterMap fun part => part.2.tag.id
  | .text t s => by
    simp only [marks, parts, filterMap_ownMarks, filterMap_cons, filterMap_nil, tag]
    cases t.id <;> rfl
  | .group t cs => by
    simp only [marks, parts, filterMap_append, filterMap_ownMarks, filterMap_cons, tag,
      filterMap_partMarks depth cs]
    cases t.id <;> rfl
  | .block t cs => by
    simp only [marks, parts, filterMap_append, filterMap_ownMarks, filterMap_cons, tag,
      filterMap_lineMarks (depth + 1) cs, Mark.id?, filterMap_nil, append_nil]
    cases t.id <;> rfl
  | .binary t op l r => by
    simp only [marks, parts, filterMap_append, filterMap_ownMarks, filterMap_cons, tag,
      filterMap_marks depth l, filterMap_marks depth r]
    cases t.id <;> rfl
  | .unary t op c => by
    simp only [marks, parts, filterMap_append, filterMap_ownMarks, filterMap_cons, tag,
      filterMap_marks depth c]
    cases t.id <;> rfl

theorem filterMap_partMarks (depth : Nat) : (cs : List Code) →
    (partMarks cs).filterMap Mark.id? = (partsAll depth cs).filterMap fun part => part.2.tag.id
  | [] => rfl
  | c :: r => by
    simp only [partMarks, partsAll, filterMap_append, filterMap_marks depth c,
      filterMap_partMarks depth r]

theorem filterMap_lineMarks (depth : Nat) : (cs : List Code) →
    (lineMarks cs).filterMap Mark.id? = (partsAll depth cs).filterMap fun part => part.2.tag.id
  | [] => rfl
  | c :: r => by
    simp only [lineMarks, partsAll, filterMap_append, filterMap_ownLine, nil_append,
      filterMap_marks depth c, filterMap_lineMarks depth r]

end

/-- The source map has an entry for each part that the marks show, in their order. -/
theorem ids_layOut (code : List Code) :
    (layOut code).map.map (·.id) = (lineMarks code).filterMap Mark.id? := by
  have hnamed : ∀ ps : List (Nat × Code), (ps.filterMap fun part => part.2.tag.id) =
      (ps.filter isNamed).filterMap fun part => part.2.tag.id := by
    intro ps
    rw [filterMap_filter]
    refine filterMap_congr fun part _ => ?_
    unfold isNamed
    cases part.2.tag.id <;> rfl
  have hids : ∀ {es : List SourceEntry} {ps : List (Nat × Code)},
      List.Forall₂ (fun e part => part.2.tag.id = some e.id) es ps →
        es.map (·.id) = ps.filterMap fun part => part.2.tag.id := by
    intro es ps h
    induction h with
    | nil => rfl
    | cons h _ ih => rw [map_cons, filterMap_cons, h, ih]
  rw [filterMap_lineMarks 0, hnamed]
  exact hids ((traces_writeStatements 0 0 true code).occurs.imp fun _ _ h => h.1)

end Code

end BlockProgram
