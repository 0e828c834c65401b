import BlockProgram.Emit.HostCall

/-!
# Code for expressions

* literals            ↦ a number, quoted text, `true` or `false`, the field as it is
* variables           ↦ their output names
* operators           ↦ `a + b`, `a && b`, `!a`, `Math.f(a)`
* equality            ↦ `a == b`; of two different literals `(a as any) == (b as any)`
* text                ↦ `a + b + c`, with `""` in front unless `a` is text; `a.length`
* lists               ↦ `[a, b]`, `a[i]`, `a.length`
* calls               ↦ `f(a, b)`

Any other block, used as an expression, is the default literal of its type.
-/

namespace BlockProgram

namespace Program

/-! ## Literals -/

/-- The text of a number field; `0` if it holds no number. -/
def numberText (field : String) : String :=
  ((Decimal.read (Text.trimmed field)).map NumberLiteral.text).getD "0"

def truthText (field : Option String) : String :=
  if field.any fun v => v.toList.map Char.toLower == "true".toList then "true" else "false"

/-! ## Operators -/

def emitBinary (p : Program) (e : Emitter) (b : BlockRef) (left op right : String) :
    CompileM Code := do
  let l ← p.emitInput e b left
  let r ← p.emitInput e b right
  return .infixed l op r

/-- A value that may be compared with anything. -/
def asAny (c : Code) : Code :=
  .ofParts [.ofText "(", c, .ofText " as any)"]

/-- A comparison. Two different literals could never be equal, and are compared as anything. -/
def compareCode (op : CompareOp) (l r : Code) : Code :=
  if op.isEquality && l.isLiteral && r.isLiteral && l.source != r.source then
    .infixed (asAny l) op.symbol (asAny r)
  else .infixed l op.symbol r

/-! ## Text and lists -/

def itemInputs (block : Block) : List String :=
  (block.numberedInputs "ADD").map (·.name)

/-- The sum of all parts, from the left. -/
def joinCode (isText : Bool) : List Code → Code
  | [] => .ofText "\"\""
  | first :: rest =>
    let start := if isText then first else .infixed (.ofText "\"\"") "+" first
    rest.foldl (fun l r => .infixed l "+" r) start

/-- The first part of a text block, and whether it is text. -/
def emitFirstPart (p : Program) (e : Emitter) (b : BlockRef) (input : String) :
    CompileM (Bool × Code) := do
  let target ← p.attach b input none
  let type ← p.targetTypeName target
  let code ← p.emitTarget e target
  return (type == some TypeName.text, code)

/-- The parts of a text block joined to one text. -/
def emitTextJoin (p : Program) (e : Emitter) (b : BlockRef) : List String → CompileM Code
  | [] => return joinCode false []
  | input :: inputs => do
    let (isText, first) ← p.emitFirstPart e b input
    let rest ← p.emitInputs e b inputs
    return joinCode isText (first :: rest)

def emitIndexed (p : Program) (e : Emitter) (b : BlockRef) : CompileM Code := do
  let list ← p.emitInput e b "LIST"
  let index ← p.emitInput e b "INDEX"
  return .ofParts [list.followedBy "[", index, .ofText "]"]

/-! ## All expressions -/

/-- The default literal of a block that is no expression. -/
def emitDefault (p : Program) (b : BlockRef) : CompileM Code := do
  let type ← p.targetTypeName (.block b)
  return .ofText (TypeName.defaultLiteral type)

/-- The code of an expression, given how to make code for the blocks below it. -/
def expressionStep (p : Program) (e : Emitter) (b : BlockRef) : CompileM Code :=
  let block := p.block b
  match block.kind with
  | .numberLiteral => return .ofText (numberText ((block.field? "NUM").getD "0"))
  | .textLiteral => return .ofText (Text.quoted ((block.field? "TEXT").getD ""))
  | .booleanLiteral => return .ofText (truthText (block.field? "BOOL"))
  | .fieldLiteral => return .ofText ((block.fields.head?.map (·.value)).getD "")
  | .variableGet => do return .ofText (← p.variableName b (block.variableField?.getD ""))
  | .argumentReporter => do return .ofText (← p.variableName b ((block.field? "VALUE").getD ""))
  | .arithmetic op => p.emitBinary e b "A" op.symbol "B"
  | .modulo => p.emitBinary e b "DIVIDEND" "%" "DIVISOR"
  | .boolOperation op => p.emitBinary e b "A" op.symbol "B"
  | .compare op => do
    let l ← p.emitInput e b "A"
    let r ← p.emitInput e b "B"
    return compareCode op l r
  | .negate => do return .prefixed "!" (← p.emitInput e b "BOOL")
  | .mathBinary name | .mathUnary name => do
    return .call ("Math." ++ name) (← p.emitInputs e b (block.valueInputs.map (·.name)))
  | .textJoin => p.emitTextJoin e b (itemInputs block)
  | .textLength => do return (← p.emitInput e b "VALUE").followedBy ".length"
  | .listCreate => do
    let items ← p.emitInputs e b (itemInputs block)
    return .ofParts [.ofText "[", .commaSeparated items, .ofText "]"]
  | .listIndexGet => p.emitIndexed e b
  | .listLength => do return (← p.emitInput e b (lengthInput block)).followedBy ".length"
  | .functionCallOutput => p.emitFunctionCall e b
  | .rawExpression => return .ofText (Text.trimmed ((block.field? "EXPRESSION").getD ""))
  | .hostCall name => p.emitHostCall e b name
  | _ => p.emitDefault b

end Program

end BlockProgram
