import BlockProgram.Emit.Expression

/-!
# Code for statements

* assignment            ↦ `x = a`, `x += a`; a first assignment that declares `let x = a`
* conditions            ↦ `if (a) { … } else if (b) { … } else { … }`
* counting loops        ↦ `for (let i = 0; i < a; i++) { … }`
* other loops           ↦ `while (a) { … }`, `for (let x of a) { … }`
* items                 ↦ `a[i] = b`
* functions             ↦ `function f(x: T) { … }`, `return a`
* raw code              ↦ its lines that are not blank
* registrations         ↦ the call, with no semicolon after it

Any other block is an expression followed by a semicolon. The last line of a statement carries the
id of its block.
-/

namespace BlockProgram

namespace Program

/-! ## Assignments -/

/-- Whether an assignment is the declaration of its variable. -/
def isDeclaring (v : Binding) (b : BlockRef) : Bool :=
  v.declared == some .assigned && v.first == some b

/-- Whether a value has no type of its own. -/
def isUntyped (value : Code) : Bool :=
  value.asText? == some "null" || value.asText? == some "[]"

/-- The start of an assignment that declares its variable; the type is written unless the value
shows it. -/
def declaringHead (name : String) (declared assigned : Option TypeName) (value : Code) : String :=
  match declared with
  | some t =>
    if isUntyped value || assigned != some t then "let " ++ name ++ ": " ++ t ++ " = "
    else "let " ++ name ++ " = "
  | none => "let " ++ name ++ " = "

/-- The start of an assignment of a value that comes from `target`. -/
def assignmentHead (p : Program) (b : BlockRef) (v : BindingId) (target : Target) (value : Code) :
    CompileM String := do
  let c ← get
  let name := c.outputName v
  if isDeclaring (c.binding v) b then do
    let declared ← variableTypeName v
    let assigned ← p.targetTypeName target
    return declaringHead name declared assigned value
  else return name ++ " = "

def emitSet (p : Program) (e : Emitter) (b : BlockRef) : CompileM Code := do
  let v ← p.lookup b ((p.block b).variableField?.getD "")
  let target ← p.attach b "VALUE" none
  let value ← p.emitTarget e target
  let head ← p.assignmentHead b v target value
  return .statement [.ofText head, value]

def emitChange (p : Program) (e : Emitter) (b : BlockRef) : CompileM Code := do
  let name ← p.variableName b ((p.block b).variableField?.getD "")
  let value ← p.emitInput e b "VALUE"
  return .statement [.ofText (name ++ " += "), value]

def emitIndexSet (p : Program) (e : Emitter) (b : BlockRef) : CompileM Code := do
  let list ← p.emitInput e b "LIST"
  let index ← p.emitInput e b "INDEX"
  let value ← p.emitInput e b "VALUE"
  return .statement [list.followedBy "[", index, .ofText "] = ", value]

/-! ## Conditions and loops -/

/-- The body that belongs to a condition: `DO2` to `IF2`. -/
def bodyInput (condition : String) : String :=
  "DO" ++ String.ofList (condition.toList.drop 2)

/-- The branches of a condition; `lead` is what stands in front of the first one. -/
def emitBranches (p : Program) (e : Emitter) (b : BlockRef) (lead : String) :
    List String → CompileM (List Code)
  | [] => return []
  | condition :: r => do
    let test ← p.emitInput e b condition
    let body ← p.emitBody e ((p.block b).inputTarget? (bodyInput condition))
    let rest ← p.emitBranches e b " else if (" r
    return [.ofText lead, test, .ofText ") ", body] ++ rest

/-- The branches of a condition and what else happens. -/
def conditionalCode (branches : List Code) : Option Code → Code
  | some otherwise =>
    if branches.isEmpty then .ofParts [.ofText "if (true) ", otherwise]
    else .ofParts (branches ++ [.ofText " else ", otherwise])
  | none =>
    if branches.isEmpty then .ofParts [.ofText "if (false) ", .braces []] else .ofParts branches

def emitConditional (p : Program) (e : Emitter) (b : BlockRef) : CompileM Code := do
  let block := p.block b
  let branches ← p.emitBranches e b "if (" ((block.numberedInputs "IF").map (·.name))
  let otherwise ← (block.input? "ELSE").mapM fun i => p.emitBody e i.target
  return conditionalCode branches otherwise

def emitLoopBody (p : Program) (e : Emitter) (b : BlockRef) : CompileM Code :=
  p.emitBody e ((p.block b).inputTarget? "DO")

def emitRepeat (p : Program) (e : Emitter) (b : BlockRef) : CompileM Code := do
  let i ← p.variableName b repeatIndex
  let times ← p.emitInput e b "TIMES"
  let body ← p.emitLoopBody e b
  return .ofParts
    [.ofText ("for (let " ++ i ++ " = 0; " ++ i ++ " < "), times,
     .ofText ("; " ++ i ++ "++) "), body]

/-- The condition of a loop, turned round if it runs until the condition holds. -/
def loopCondition (mode : Option String) (condition : Code) : Code :=
  if mode = some "UNTIL" then .prefixed "!" condition else condition

def emitWhile (p : Program) (e : Emitter) (b : BlockRef) : CompileM Code := do
  let condition ← p.emitInput e b "COND"
  let body ← p.emitLoopBody e b
  let test := loopCondition ((p.block b).field? "MODE") condition
  return .ofParts [.ofText "while (", test, .ofText ") ", body]

/-- Where a counting loop starts. -/
def emitFrom (p : Program) (e : Emitter) (b : BlockRef) : CompileM Code :=
  if (p.block b).hasInput "FROM" then p.emitInput e b "FROM" else return .ofText "0"

def emitForRange (p : Program) (e : Emitter) (b : BlockRef) : CompileM Code := do
  let i ← p.variableName b ((p.block b).variableField?.getD "")
  let start ← p.emitFrom e b
  let stop ← p.emitInput e b "TO"
  let body ← p.emitLoopBody e b
  return .ofParts
    [.ofText ("for (let " ++ i ++ " = "), start, .ofText ("; " ++ i ++ " <= "), stop,
     .ofText ("; " ++ i ++ "++) "), body]

def emitForOf (p : Program) (e : Emitter) (b : BlockRef) : CompileM Code := do
  let x ← p.variableName b ((p.block b).variableField?.getD "")
  let list ← p.emitInput e b "LIST"
  let body ← p.emitLoopBody e b
  return .ofParts [.ofText ("for (let " ++ x ++ " of "), list, .ofText ") ", body]

/-! ## User functions -/

def emitReturn (p : Program) (e : Emitter) (b : BlockRef) : CompileM Code :=
  if (p.block b).hasInput returnValueInput then do
    return .statement [.ofText "return ", ← p.emitInput e b returnValueInput]
  else return .statement [.ofText "return"]

def emitParameter (p : Program) (b : BlockRef) (a : FunctionArg) : CompileM String := do
  let v ← p.lookup b a.name
  let type ← variableTypeName v
  return (← get).outputName v ++ ": " ++ type.getD TypeName.any

/-- The settled type of what a user function returns, none if there is none. -/
def functionTypeName (p : Program) (name : String) : TrackM (Option TypeName) := fun c =>
  match p.functionType name c with
  | .ok n c => let r := TypeGraph.resolvedType n c.graph; (r.1, { c with graph := r.2 })
  | .error _ c => (none, c)

/-- Only a dynamic result is written as the type of a function. -/
def resultAnnotation (result : Option TypeName) : String :=
  if result = some TypeName.any then ": any" else ""

def emitFunction (p : Program) (e : Emitter) (b : BlockRef) (name : String) : CompileM Code := do
  let block := p.block b
  let parameters ← block.args.mapM (p.emitParameter b)
  let result ← p.functionTypeName name
  let body ← p.emitBody e block.body?
  let head := "function " ++ functionIdentifier name ++ "(" ++ commaList parameters ++ ")" ++
    resultAnnotation result ++ " "
  return .ofParts [.ofText head, body]

def emitFunctionDefinition (p : Program) (e : Emitter) (b : BlockRef) : CompileM Code :=
  match (p.block b).functionName? with
  | some name => p.emitFunction e b name
  | none => p.fail b .unnamedFunction

/-! ## Other statements -/

/-- The lines of raw code that are not blank. -/
def rawLines (code : String) : List Code :=
  ((Text.lines code.toList).filter fun l => !(Text.trim l).isEmpty).map fun l =>
    .ofText (String.ofList (Text.trimRight l))

/-- Whether a use of a host symbol ends in a handler. -/
def takesHandler (p : Program) (name : String) : Bool :=
  (p.surface.symbol? name).any (·.hasHandler)

def emitHostStatement (p : Program) (e : Emitter) (b : BlockRef) (name : String) :
    CompileM Code := do
  let call ← p.emitHostCall e b name
  return if p.takesHandler name then call else .statement [call]

/-- An expression as a statement. A list in front would index the line before it, so it is kept
apart by a semicolon. -/
def expressionStatement (c : Code) : Code :=
  if c.source.toList.head? = some '[' then .statement [.ofText ";", c] else .statement [c]

/-- A block that nothing is known about. -/
def emitUnknown (p : Program) (e : Emitter) (b : BlockRef) : CompileM (List Code) :=
  if (p.block b).hasOutput then do return [expressionStatement (← p.expressionStep e b)]
  else do
    p.report b ("Unsupported block '" ++ (p.block b).tag ++ "'.")
    return []

/-- The lines of a statement, before the last one gets its id. -/
def emitLines (p : Program) (e : Emitter) (b : BlockRef) : CompileM (List Code) :=
  let block := p.block b
  match block.kind with
  | .onStart => p.emitChain e (block.statementInputs.findSome? (·.target))
  | .variableSet => do return [← p.emitSet e b]
  | .variableChange => do return [← p.emitChange e b]
  | .conditional => do return [← p.emitConditional e b]
  | .repeatTimes => do return [← p.emitRepeat e b]
  | .whileLoop => do return [← p.emitWhile e b]
  | .forRange => do return [← p.emitForRange e b]
  | .forOf => do return [← p.emitForOf e b]
  | .breakLoop => return [.statement [.ofText "break"]]
  | .continueLoop => return [.statement [.ofText "continue"]]
  | .listIndexSet => do return [← p.emitIndexSet e b]
  | .functionDefinition => do return [← p.emitFunctionDefinition e b]
  | .functionCall => do return [.statement [← p.emitFunctionCall e b]]
  | .functionReturn => do return [← p.emitReturn e b]
  | .rawStatement => return rawLines ((block.field? "CODE").getD "")
  | .hostCall name => do return [← p.emitHostStatement e b name]
  | .unknown => p.emitUnknown e b
  | _ => do return [expressionStatement (← p.expressionStep e b)]

/-- Names the block that the last of several lines was made from. -/
def nameLast (id : String) : List Code → List Code
  | [] => []
  | [c] => [c.named id]
  | c :: r => c :: nameLast id r

/-- The code of a statement, given how to make code for the blocks below it. -/
def statementStep (p : Program) (e : Emitter) (b : BlockRef) : CompileM (List Code) := do
  return nameLast (p.block b).id (← p.emitLines e b)

/-! ## All blocks -/

/-- Makes code for blocks with at most `fuel` levels of blocks. -/
def emitterFrom (p : Program) : Nat → Emitter
  | 0 => ⟨fun _ => return .ofText "", fun _ => return []⟩
  | fuel + 1 =>
    let below := p.emitterFrom fuel
    ⟨p.expressionStep below, p.statementStep below⟩

/-- Makes code for the blocks of a program, which has no more levels than blocks. -/
def emitter (p : Program) : Emitter :=
  p.emitterFrom p.workspace.size

def emitExpression (p : Program) (b : BlockRef) : CompileM Code :=
  p.emitter.expression b

def emitStatement (p : Program) (b : BlockRef) : CompileM (List Code) :=
  p.emitter.statement b

end Program

end BlockProgram
