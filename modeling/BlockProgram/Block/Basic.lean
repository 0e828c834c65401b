import BlockProgram.Block.Kind
import BlockProgram.Block.Mutation
import BlockProgram.TypeName

/-!
# Blocks

A block has fields, which hold text, and inputs, which hold other blocks: one value, or the first of
a chain of statements. A statement may be followed by another one.
-/

namespace BlockProgram

/-- A block is known by its place in the document. -/
abbrev BlockRef := Nat

inductive InputKind where
  | value
  | statement
deriving Repr, DecidableEq, Inhabited

structure Input where
  name : String
  kind : InputKind
  target : Option BlockRef := none
deriving Repr, DecidableEq, Inhabited

structure Field where
  name : String
  value : String
deriving Repr, DecidableEq, Inhabited

structure FunctionArg where
  id : String
  name : String
  type : TypeName
deriving Repr, DecidableEq, Inhabited

structure FunctionSignature where
  name : String
  args : List FunctionArg
deriving Repr, DecidableEq, Inhabited

structure Block where
  id : String
  tag : String
  kind : BlockKind
  enabled : Bool := true
  shadow : Bool := false
  inputs : List Input := []
  fields : List Field := []
  next : Option BlockRef := none
  mutation : Option Mutation := none
  /-- The types the block may be used as; none for a statement. -/
  output : Option (List TypeName) := none
  signature : Option FunctionSignature := none
deriving Repr, DecidableEq, Inhabited

def Field.valueOf? (fields : List Field) (name : String) : Option String :=
  (fields.find? (·.name == name)).map (·.value)

namespace Block

def field? (b : Block) (name : String) : Option String :=
  Field.valueOf? b.fields name

def input? (b : Block) (name : String) : Option Input :=
  b.inputs.find? (·.name == name)

def hasInput (b : Block) (name : String) : Bool :=
  (b.input? name).isSome

def inputTarget? (b : Block) (name : String) : Option BlockRef :=
  (b.input? name).bind (·.target)

def valueInputs (b : Block) : List Input :=
  b.inputs.filter (·.kind == .value)

def statementInputs (b : Block) : List Input :=
  b.inputs.filter (·.kind == .statement)

def hasStatementInputs (b : Block) : Bool :=
  b.inputs.any (·.kind == .statement)

/-- The first statement in the block's first statement input. -/
def body? (b : Block) : Option BlockRef :=
  b.statementInputs.head?.bind (·.target)

def targets (b : Block) : List BlockRef :=
  b.inputs.filterMap (·.target)

def hasOutput (b : Block) : Bool :=
  b.output.isSome

/-- The variable that the block is about. -/
def variableField? (b : Block) : Option String :=
  b.field? "VAR"

def functionName? (b : Block) : Option String :=
  match b.signature with
  | some s => some s.name
  | none => b.field? "function_name"

def args (b : Block) : List FunctionArg :=
  match b.signature with
  | some s => s.args
  | none => []

def isLiteral (b : Block) : Bool :=
  match b.kind with
  | .numberLiteral | .textLiteral | .booleanLiteral | .fieldLiteral => true
  | _ => false

/-- Whether a name is `lead` followed by decimal digits, at least one. -/
def isNumbered (lead name : String) : Bool :=
  let cs := name.toList
  lead.toList.isPrefixOf cs &&
    (let rest := cs.drop lead.length
     !rest.isEmpty && rest.all Char.isDigit)

/-- The inputs called `lead` with a number, in input order. -/
def numberedInputs (b : Block) (lead : String) : List Input :=
  b.inputs.filter fun i => isNumbered lead i.name

end Block

end BlockProgram
