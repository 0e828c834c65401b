import BlockProgram.Code.Node

/-!
# Laying out code

`Code.write` turns code into text and says which bytes of the text each named part is: `write depth
start c` is the text of `c` at nesting level `depth`, with the entries of its named parts in the
order in which they begin, counted from byte `start` on.

An operand stands in parentheses when its operator binds less tightly than the operator around it,
or equally tightly on the side to which that operator does not associate.
-/

namespace BlockProgram

/-- The bytes `start`, …, `start + length - 1` were made from block `id`. -/
structure SourceEntry where
  start : Nat
  length : Nat
  id : String
deriving Repr, DecidableEq, Inhabited

/-- Text with the entries of its named parts. -/
structure Written where
  text : String := ""
  map : List SourceEntry := []
deriving Repr, DecidableEq, Inhabited

namespace Code

/-! ## Operators -/

def precedence (op : String) : Nat :=
  if op ∈ ["=", "+=", "-="] then 1
  else if op = "||" then 2
  else if op = "&&" then 3
  else if op ∈ ["==", "!=", "===", "!=="] then 4
  else if op ∈ ["<", "<=", ">", ">="] then 5
  else if op ∈ ["<<", ">>"] then 6
  else if op ∈ ["+", "-"] then 7
  else if op ∈ ["*", "/", "%"] then 8
  else if op = "**" then 9
  else 10

/-- Powers and assignments associate to the right. -/
def associatesRight (op : String) : Bool :=
  op == "**" || precedence op == 1

/-- Whether an operand of `op` stands in parentheses, as its right or its left operand. -/
def needsParentheses (op : String) (isRight : Bool) : Code → Bool
  | .binary _ inner _ _ =>
    if precedence inner = precedence op then isRight != associatesRight op
    else precedence inner < precedence op
  | _ => false

def isBinary : Code → Bool
  | .binary .. => true
  | _ => false

/-! ## Text -/

def indentation (depth : Nat) : String :=
  String.ofList (List.replicate (4 * depth) ' ')

/-- Adds the entry of a part itself, in front of those of its own parts. -/
def record (t : Tag) (start : Nat) (w : Written) : Written :=
  match t.id with
  | none => w
  | some id => { w with map := ⟨start, w.text.utf8ByteSize, id⟩ :: w.map }

/-- Where an operand starts, after a parenthesis if there is one. -/
def operandStart (wrap : Bool) (start : Nat) : Nat :=
  if wrap then start + 1 else start

/-- Puts an operand in parentheses if need be. -/
def wrapped (wrap : Bool) (w : Written) : Written :=
  if wrap then { w with text := "(" ++ w.text ++ ")" } else w

mutual

def write (depth start : Nat) : Code → Written
  | .text t s => record t start { text := s }
  | .group t parts => record t start (writeParts depth start parts)
  | .block t statements =>
    let body := writeStatements (depth + 1) (start + 2) true statements
    record t start { body with text := "\x7b\n" ++ body.text ++ indentation depth ++ "\x7d" }
  | .binary t op left right =>
    let wrapLeft := needsParentheses op false left
    let wrapRight := needsParentheses op true right
    let l := wrapped wrapLeft (write depth (operandStart wrapLeft start) left)
    let middle := " " ++ op ++ " "
    let next := start + l.text.utf8ByteSize + middle.utf8ByteSize
    let r := wrapped wrapRight (write depth (operandStart wrapRight next) right)
    record t start { text := l.text ++ middle ++ r.text, map := l.map ++ r.map }
  | .unary t op operand =>
    let wrap := isBinary operand
    let w := wrapped wrap (write depth (operandStart wrap (start + op.utf8ByteSize)) operand)
    record t start { w with text := op ++ w.text }

def writeParts (depth start : Nat) : List Code → Written
  | [] => {}
  | c :: r =>
    let w := write depth start c
    let rest := writeParts depth (start + w.text.utf8ByteSize) r
    { text := w.text ++ rest.text, map := w.map ++ rest.map }

/-- Statements on lines of their own; `first` says that none stands before them. -/
def writeStatements (depth start : Nat) (first : Bool) : List Code → Written
  | [] => {}
  | c :: r =>
    let lead := (if !first && c.tag.blankBefore then "\n" else "") ++ indentation depth
    let w := write depth (start + lead.utf8ByteSize) c
    let line := lead ++ w.text ++ "\n"
    let rest := writeStatements depth (start + line.utf8ByteSize) false r
    { text := line ++ rest.text, map := w.map ++ rest.map }

end

def layOut (statements : List Code) : Written :=
  writeStatements 0 0 true statements

def source (c : Code) : String :=
  (write 0 0 c).text

end Code

end BlockProgram
