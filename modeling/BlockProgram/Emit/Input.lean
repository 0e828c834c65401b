import BlockProgram.Code.Layout
import BlockProgram.Text.Identifier
import BlockProgram.Text.Quoted
import BlockProgram.Typing.Rules

/-!
# Code for inputs, chains and declarations

Code for a block is made from code for the blocks right below it. An `Emitter` makes the latter; the
functions here and in the modules that follow build on one. What is missing in an input becomes the
default literal of its type.

* value input          ↦ the expression, or a default literal
* statement input      ↦ `{ … }`, each statement after the declarations that belong to it
* declaration          ↦ `let x = 0`, `let x: T = null` and so on, by the type of `x`
-/

namespace BlockProgram

structure Emitter where
  expression : BlockRef → CompileM Code
  /-- The code of one statement, which may be several lines. -/
  statement : BlockRef → CompileM (List Code)

namespace Program

/-! ## Values -/

/-- The code of a value that comes from a block or a placeholder. -/
def emitTarget (p : Program) (e : Emitter) : Target → CompileM Code
  | .block b => do
    let code ← e.expression b
    return code.named (p.block b).id
  | .placeholder i => do
    let type ← p.targetTypeName (.placeholder i)
    return .ofText (TypeName.defaultLiteral type)

def emitInput (p : Program) (e : Emitter) (b : BlockRef) (input : String) : CompileM Code := do
  let target ← p.attach b input none
  p.emitTarget e target

def emitInputs (p : Program) (e : Emitter) (b : BlockRef) (inputs : List String) :
    CompileM (List Code) :=
  inputs.mapM (p.emitInput e b)

/-! ## Variables -/

/-- The output name of the variable that a name means at a block. -/
def variableName (p : Program) (b : BlockRef) (name : String) : CompileM String := do
  let v ← p.lookup b name
  return (← get).outputName v

def variableTypeName (v : BindingId) : TrackM (Option TypeName) := do
  TypeGraph.resolvedType ((← get).binding v).node

/-- A declaration with the value that a variable of the given type starts with. -/
def declarationText (name : String) : Option TypeName → String
  | none => "let " ++ name ++ " = 0"
  | some t =>
    if t = TypeName.number then "let " ++ name ++ " = 0"
    else if t = TypeName.boolean then "let " ++ name ++ " = false"
    else if t = TypeName.text then "let " ++ name ++ " = \"\""
    else if t = TypeName.array then "let " ++ name ++ ": any[] = []"
    else if TypeName.isArray t then "let " ++ name ++ ": " ++ t ++ " = []"
    else "let " ++ name ++ ": " ++ t ++ " = null"

def emitDeclaration (v : BindingId) : TrackM Code := do
  let type ← variableTypeName v
  return .statement [.ofText (declarationText ((← get).outputName v) type)]

/-- The declarations that belong in front of a statement. -/
def emitDeclarations (b : BlockRef) : TrackM (List Code) := do
  (((← get).blockDeclarations.get? b).getD []).mapM emitDeclaration

/-! ## Chains -/

/-- The code of one statement of a chain with its declarations. -/
def emitLink (e : Emitter) (b : BlockRef) : CompileM (List Code) := do
  let declarations ← emitDeclarations b
  let statement ← e.statement b
  return declarations ++ statement

/-- The code of the live statements of a chain. -/
def emitChain (p : Program) (e : Emitter) (first : Option BlockRef) : CompileM (List Code) := do
  let live := (p.workspace.chain first).filter (p.isLive (← get))
  return (← live.mapM (emitLink e)).flatten

def emitBody (p : Program) (e : Emitter) (first : Option BlockRef) : CompileM Code := do
  return .braces (← p.emitChain e first)

/-! ## User functions -/

def functionIdentifier (name : String) : String :=
  Text.identifier name

def emitFunctionCall (p : Program) (e : Emitter) (b : BlockRef) : CompileM Code := do
  let block := p.block b
  let args ← p.emitInputs e b (block.args.map (·.id))
  return .call (functionIdentifier (block.functionName?.getD "")) args

end Program

end BlockProgram
