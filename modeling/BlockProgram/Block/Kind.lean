/-!
# Kinds of blocks

What a block does, as far as scopes, typing and code generation tell blocks apart.
-/

namespace BlockProgram

inductive ArithmeticOp where
  | add
  | minus
  | multiply
  | divide
  | power
deriving Repr, DecidableEq, Inhabited

namespace ArithmeticOp

def ofField? (value : String) : Option ArithmeticOp :=
  if value = "ADD" then some add
  else if value = "MINUS" then some minus
  else if value = "MULTIPLY" then some multiply
  else if value = "DIVIDE" then some divide
  else if value = "POWER" then some power
  else none

def symbol : ArithmeticOp → String
  | add => "+"
  | minus => "-"
  | multiply => "*"
  | divide => "/"
  | power => "**"

end ArithmeticOp

inductive CompareOp where
  | eq
  | neq
  | lt
  | lte
  | gt
  | gte
deriving Repr, DecidableEq, Inhabited

namespace CompareOp

def ofField? (value : String) : Option CompareOp :=
  if value = "EQ" then some eq
  else if value = "NEQ" then some neq
  else if value = "LT" then some lt
  else if value = "LTE" then some lte
  else if value = "GT" then some gt
  else if value = "GTE" then some gte
  else none

def symbol : CompareOp → String
  | eq => "=="
  | neq => "!="
  | lt => "<"
  | lte => "<="
  | gt => ">"
  | gte => ">="

def isEquality : CompareOp → Bool
  | eq | neq => true
  | _ => false

end CompareOp

inductive BoolOp where
  | and
  | or
deriving Repr, DecidableEq, Inhabited

namespace BoolOp

def ofField? (value : String) : Option BoolOp :=
  if value = "AND" then some and
  else if value = "OR" then some or
  else none

def symbol : BoolOp → String
  | and => "&&"
  | or => "||"

end BoolOp

inductive BlockKind where
  | onStart
  | variableGet
  | variableSet
  | variableChange
  | numberLiteral
  | textLiteral
  | booleanLiteral
  | arithmetic (op : ArithmeticOp)
  | compare (op : CompareOp)
  | boolOperation (op : BoolOp)
  | negate
  | modulo
  | mathBinary (name : String)
  | mathUnary (name : String)
  | textJoin
  | textLength
  | conditional
  | repeatTimes
  | whileLoop
  | forRange
  | forOf
  | breakLoop
  | continueLoop
  | listCreate
  | listIndexGet
  | listIndexSet
  | listLength
  | functionDefinition
  | functionCall
  | functionCallOutput
  | functionReturn
  | argumentReporter
  /-- Statements that stand in the output as they are written. -/
  | rawStatement
  /-- An expression that stands in the output as it is written. -/
  | rawExpression
  /-- A shadow block whose one field stands in the output as it is. -/
  | fieldLiteral
  /-- A use of the host symbol with the given qualified name. -/
  | hostCall (qualifiedName : String)
  | unknown
deriving Repr, DecidableEq, Inhabited

end BlockProgram
