import BlockProgram.Number.Literal

/-!
# Code trees

Generated code is a tree: texts, groups of parts, blocks in braces, and operators, which are kept
apart so that parentheses are put where they are needed. Any part may carry the id of the block it
was made from.
-/

namespace BlockProgram

structure Tag where
  /-- The block the part was made from. -/
  id : Option String := none
  /-- Whether a blank line separates the part, as a statement, from the statement before it. -/
  blankBefore : Bool := false
deriving Repr, DecidableEq, Inhabited

inductive Code where
  | text (tag : Tag) (content : String)
  | group (tag : Tag) (parts : List Code)
  /-- Statements in braces, each on a line of its own. -/
  | block (tag : Tag) (statements : List Code)
  | binary (tag : Tag) (op : String) (left right : Code)
  | unary (tag : Tag) (op : String) (operand : Code)
deriving Repr, Inhabited

namespace Code

def tag : Code → Tag
  | .text t _ | .group t _ | .block t _ | .binary t _ _ _ | .unary t _ _ => t

def withTag (t : Tag) : Code → Code
  | .text _ s => .text t s
  | .group _ ps => .group t ps
  | .block _ ss => .block t ss
  | .binary _ op l r => .binary t op l r
  | .unary _ op c => .unary t op c

/-- Names the block a part was made from, unless it is already named. -/
def named (c : Code) (id : String) : Code :=
  c.withTag { c.tag with id := some (c.tag.id.getD id) }

def separated (c : Code) (blank : Bool) : Code :=
  c.withTag { c.tag with blankBefore := blank }

/-! ## Building -/

def ofText (s : String) : Code := .text {} s

def ofParts (parts : List Code) : Code := .group {} parts

def braces (statements : List Code) : Code := .block {} statements

def infixed (left : Code) (op : String) (right : Code) : Code := .binary {} op left right

def prefixed (op : String) (operand : Code) : Code := .unary {} op operand

/-- A simple statement: its parts and a semicolon. -/
def statement (parts : List Code) : Code :=
  ofParts (parts ++ [ofText ";"])

/-- Items with a comma between neighbours. -/
def commaSeparated (items : List Code) : Code :=
  ofParts (items.intersperse (ofText ", "))

def parenthesized (c : Code) : Code :=
  ofParts [ofText "(", c, ofText ")"]

def call (callee : String) (args : List Code) : Code :=
  ofParts [ofText (callee ++ "("), commaSeparated args, ofText ")"]

/-- Follows code by a member access or an index, in parentheses if it is an operator. -/
def followedBy (c : Code) (suffix : String) : Code :=
  match c with
  | .binary .. | .unary .. => ofParts [parenthesized c, ofText suffix]
  | _ => ofParts [c, ofText suffix]

/-! ## Asking -/

def asText? : Code → Option String
  | .text _ s => some s
  | _ => none

def isQuoted (s : String) : Bool :=
  match s.toList with
  | '"' :: c :: r => (c :: r).getLast? == some '"'
  | _ => false

/-- A number, text or truth value. -/
def isLiteral (c : Code) : Bool :=
  match c.asText? with
  | none => false
  | some s => s == "true" || s == "false" || isQuoted s || NumberLiteral.isLiteral s

end Code

end BlockProgram
