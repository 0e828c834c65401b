import BlockProgram.Host.Surface
import BlockProgram.Workspace.Basic

/-!
# Building workspaces

Blocks come as specifications that refer to each other by id. `build` resolves the references and
decides what each block does. It refuses ids that occur twice, references to unknown blocks, blocks
with two parents or plugged into themselves, and rings of connections.
-/

namespace BlockProgram

/-- A block as a document gives it. -/
structure BlockSpec where
  id : String
  tag : String
  enabled : Bool := true
  shadow : Bool := false
  fields : List Field := []
  /-- Name, kind and the id of the block plugged in. -/
  inputs : List (String × InputKind × Option String) := []
  next : Option String := none
  mutation : Option Mutation := none
  output : Option (List TypeName) := none
  arguments : List FunctionArg := []
deriving Repr, DecidableEq, Inhabited

inductive BuildError where
  | duplicateId (id : String)
  | unknownBlock (owner id : String)
  | selfConnection (id : String)
  | secondParent (id : String)
  | cycle (id : String)
deriving Repr, DecidableEq

def BuildError.message : BuildError → String
  | .duplicateId id => "Duplicate block id '" ++ id ++ "'."
  | .unknownBlock owner id => "Block '" ++ owner ++ "' references unknown block '" ++ id ++ "'."
  | .selfConnection id => "Block '" ++ id ++ "' is connected to itself."
  | .secondParent id => "Block '" ++ id ++ "' connects a block that already has a parent."
  | .cycle id => "Block '" ++ id ++ "' is part of a connection cycle."

namespace Workspace

/-! ## What a block does -/

def onStartTag : String := "pxt-on-start"

/-- Block types with a fixed meaning, with the types they may be used as. -/
def plainKinds : List (String × BlockKind × Option (List TypeName)) :=
  [(onStartTag, .onStart, none),
   ("variables_get", .variableGet, some [TypeName.generic]),
   ("variables_set", .variableSet, none),
   ("variables_change", .variableChange, none),
   ("math_number", .numberLiteral, some [TypeName.number]),
   ("math_integer", .numberLiteral, some [TypeName.number]),
   ("math_whole_number", .numberLiteral, some [TypeName.number]),
   ("math_number_minmax", .numberLiteral, some [TypeName.number]),
   ("text", .textLiteral, some [TypeName.text]),
   ("logic_boolean", .booleanLiteral, some [TypeName.boolean]),
   ("logic_negate", .negate, some [TypeName.boolean]),
   ("math_modulo", .modulo, some [TypeName.number]),
   ("math_op3", .mathUnary "abs", some [TypeName.number]),
   ("text_join", .textJoin, some [TypeName.text]),
   ("text_length", .textLength, some [TypeName.number]),
   ("controls_if", .conditional, none),
   ("controls_repeat_ext", .repeatTimes, none),
   ("device_while", .whileLoop, none),
   ("controls_whileUntil", .whileLoop, none),
   ("pxt_controls_for", .forRange, none),
   ("controls_simple_for", .forRange, none),
   ("pxt_controls_for_of", .forOf, none),
   ("controls_for_of", .forOf, none),
   ("break_keyword", .breakLoop, none),
   ("continue_keyword", .continueLoop, none),
   ("lists_create_with", .listCreate, some [TypeName.array]),
   ("lists_index_get", .listIndexGet, some [TypeName.generic]),
   ("lists_index_set", .listIndexSet, none),
   ("lists_length", .listLength, some [TypeName.number]),
   ("function_definition", .functionDefinition, none),
   ("function_call", .functionCall, none),
   ("function_call_output", .functionCallOutput, some [TypeName.generic]),
   ("function_return", .functionReturn, none),
   ("typescript_statement", .rawStatement, none),
   ("typescript_expression", .rawExpression, some [TypeName.generic])]

/-- Block types whose meaning depends on the field `OP`. -/
def operatorKind? (tag op : String) : Option (BlockKind × Option (List TypeName)) :=
  if tag = "math_arithmetic" then
    some (((ArithmeticOp.ofField? op).map .arithmetic).getD .unknown, some [TypeName.number])
  else if tag = "logic_compare" then
    some (((CompareOp.ofField? op).map .compare).getD .unknown, some [TypeName.boolean])
  else if tag = "logic_operation" then
    some (((BoolOp.ofField? op).map .boolOperation).getD .unknown, some [TypeName.boolean])
  else if tag = "math_op2" then
    some (.mathBinary (if op = "" then "min" else op), some [TypeName.number])
  else if tag = "math_js_op" then
    some (.mathUnary (if op = "" then "abs" else op), some [TypeName.number])
  else none

def argumentReporterTag : String := "argument_reporter"

/-- What a block does, from its type, fields and inputs, and the types it may be used as. -/
def resolveKind (surface : Surface) (spec : BlockSpec) : BlockKind × Option (List TypeName) :=
  let op := (Field.valueOf? spec.fields "OP").getD ""
  match plainKinds.lookup spec.tag, operatorKind? spec.tag op with
  | some k, _ => k
  | none, some k => k
  | none, none =>
    if argumentReporterTag.toList.isPrefixOf spec.tag.toList then
      (.argumentReporter, some [TypeName.generic])
    else
      match surface.symbolForBlock? spec.tag with
      | some symbol => (.hostCall symbol.qualifiedName, surface.outputShape symbol)
      | none =>
        if spec.shadow && spec.fields.length == 1 && spec.inputs.isEmpty then
          (.fieldLiteral, some [TypeName.generic])
        else (.unknown, none)

/-- The signature of blocks that define or call a user function by name. -/
def resolveSignature (kind : BlockKind) (spec : BlockSpec) : Option FunctionSignature :=
  match kind with
  | .functionDefinition | .functionCall | .functionCallOutput =>
    (Field.valueOf? spec.fields "function_name").map fun name => ⟨name, spec.arguments⟩
  | _ => none

/-! ## Connections -/

/-- The place of the block that `owner` refers to. -/
def resolveRef (ids : List String) (owner id : String) : Except BuildError BlockRef :=
  match ids.idxOf? id with
  | some b => .ok b
  | none => .error (.unknownBlock owner id)

def resolveRef? (ids : List String) (owner : String) :
    Option String → Except BuildError (Option BlockRef)
  | none => .ok none
  | some id => (resolveRef ids owner id).map some

/-- An input with the place of what is plugged in. -/
def resolveInput (ids : List String) (owner : String) (i : String × InputKind × Option String) :
    Except BuildError Input := do
  return ⟨i.1, i.2.1, ← resolveRef? ids owner i.2.2⟩

def resolveBlock (surface : Surface) (ids : List String) (spec : BlockSpec) :
    Except BuildError Block := do
  let inputs ← spec.inputs.mapM (resolveInput ids spec.id)
  let next ← resolveRef? ids spec.id spec.next
  let (kind, output) := resolveKind surface spec
  return {
    id := spec.id, tag := spec.tag, kind, enabled := spec.enabled, shadow := spec.shadow, inputs
    fields := spec.fields, next, mutation := spec.mutation, output := spec.output.or output
    signature := resolveSignature kind spec }

/-- Makes `owner` at place `position` the parent of a block. -/
def adopt (owner : String) (position : BlockRef) (parents : Array (Option BlockRef))
    (child : BlockRef) : Except BuildError (Array (Option BlockRef)) :=
  if child = position then .error (.selfConnection owner)
  else if (parents[child]?).join.isSome then .error (.secondParent owner)
  else .ok (parents.setIfInBounds child (some position))

def childrenOf (b : Block) : List BlockRef :=
  b.targets ++ b.next.toList

/-- Adds a block at the end of the blocks so far, as the parent of the blocks below it. -/
def addBlock (surface : Surface) (ids : List String)
    (acc : Array Block × Array (Option BlockRef)) (spec : BlockSpec) :
    Except BuildError (Array Block × Array (Option BlockRef)) := do
  let b ← resolveBlock surface ids spec
  let parents ← (childrenOf b).foldlM (adopt b.id acc.1.size) acc.2
  return (acc.1.push b, parents)

/-! ## Checks -/

/-- The first id that occurs before, in a list of ids that follow `before`. -/
def firstRepeated (before : List String) : List String → Option String
  | [] => none
  | id :: r => if id ∈ before then some id else firstRepeated (id :: before) r

/-- Whether following parents from `b` comes to an end within `fuel` steps. -/
def endsAbove (ws : Workspace) : Nat → BlockRef → Bool
  | 0, b => (ws.parent? b).isNone
  | fuel + 1, b =>
    match ws.parent? b with
    | none => true
    | some p => ws.endsAbove fuel p

/-- The workspace of the given blocks and variables. -/
def build (surface : Surface) (specs : List BlockSpec) (vars : List VariableModel) :
    Except BuildError Workspace := do
  let ids := specs.map (·.id)
  match firstRepeated [] ids with
  | some id => throw (.duplicateId id)
  | none =>
    let (blocks, parents) ←
      specs.foldlM (addBlock surface ids) (#[], Array.replicate specs.length none)
    let ws : Workspace := { blocks, parents, vars }
    match ws.refs.find? fun b => !ws.endsAbove ws.size b with
    | some b => throw (.cycle (ws.block b).id)
    | none => return ws

end Workspace

end BlockProgram
