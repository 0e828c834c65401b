import BlockProgram.Typing.Result

/-!
# Typing rules

One pass over the live blocks applies the rule of each. A rule joins the types of a block's inputs
with what the block expects; where the two cannot be one type, the pass reports it and goes on.
At the end every variable of unknown type becomes a number or a list.
-/

namespace BlockProgram

/-- The input that a parameter of a host symbol is plugged into. -/
def Parameter.inputOn (q : Parameter) : Option Mutation → String
  | some (.defaultInstance _) => if q.isReceiver then Mutation.instanceInput else q.name
  | _ => q.name

namespace Program

/-! ## Expected types -/

def isDynamic (n : NodeId) : GraphM Bool := do
  return (← TypeGraph.typeOf n) == some TypeName.any

/-- Joins two classes unless one of them has the dynamic type. -/
def unite (a b : NodeId) : UnifyM Unit := do
  if ← isDynamic a then pure ()
  else if ← isDynamic b then pure ()
  else TypeGraph.union a b

/-- Joins two classes as far as possible and says whether nothing stood against it. -/
def uniteSucceeds (a b : NodeId) : TrackM Bool := fun c =>
  match unite a b c.graph with
  | .ok _ g => (true, { c with graph := g })
  | .error _ g => (false, { c with graph := g })

/-- A node for an expected type. Generic and dynamic types expect nothing. -/
def expectedNode (t : TypeName) : GraphM (Option NodeId) :=
  if t = TypeName.generic ∨ t = TypeName.any then pure none
  else if t ∈ [TypeName.array, "T[]", "any[]"] then
    some <$> TypeGraph.addNode (some TypeName.array) true
  else some <$> TypeGraph.ground t

/-- Joins a class with an expected type. -/
def expect (n : NodeId) (t : TypeName) : UnifyM Unit := do
  match ← expectedNode t with
  | some e => unite n e
  | none => pure ()

def inputType (p : Program) (b : BlockRef) (input : String) : TypingM NodeId :=
  p.attachedType p.blockType input b

/-- The node of an input that should have the given type. -/
def expectInput (p : Program) (b : BlockRef) (input : String) (t : TypeName) :
    TypingM NodeId := do
  let target ← p.attach b input (some t)
  let n ← p.typeOfTarget target
  expect n t
  return n

/-- All the given inputs should have one type. -/
def expectInputs (p : Program) (b : BlockRef) (t : TypeName) (inputs : List String) :
    TypingM Unit :=
  inputs.forM fun i => do
    let _ ← p.expectInput b i t

/-! ## Variables -/

/-- Whether one of two types is a supertype of the other. -/
def areRelated (p : Program) (s t : TypeName) : Bool :=
  (p.surface.supertypesOf s).contains t || (p.surface.supertypesOf t).contains s

/-- Whether both types are known, differ, and one is a supertype of the other. -/
def keepsType (p : Program) : Option TypeName → Option TypeName → Bool
  | some s, some t => s != t && p.areRelated s t
  | _, _ => false

/-- Assigns a value to a variable. A value of a sub- or supertype leaves the type of the variable as
it is; any other value must have the type of the variable. -/
def assign (p : Program) (variableNode : NodeId) (value : Target) : TypingM Unit := do
  match ← p.typesOfTarget value with
  | [] => pure ()
  | narrowest :: _ => do
    let current ← TypeGraph.resolvedType variableNode
    let assigned ← TypeGraph.resolvedType narrowest
    if p.keepsType current assigned then pure () else unite variableNode narrowest

/-! ## Lists -/

def lengthInput (b : Block) : String :=
  if b.hasInput "LIST" then "LIST" else "VALUE"

/-- The items of a list have the type of its elements. -/
def typeItems (p : Program) (list : NodeId) (items : List BlockRef) : TypingM Unit := do
  let r ← TypeGraph.find list
  match ((← get).graph.node r).element with
  | none => pure ()
  | some element =>
    items.forM fun i => do
      let n ← p.blockType i
      unite element n

/-! ## Calls -/

/-- The scope that holds the parameters of a user function. -/
def functionScope? (p : Program) (c : Compilation) (name : String) : Option ScopeId := do
  let definition ← p.workspace.functionDefinition? name
  let scope ← c.blockScope.get? definition
  if (c.scope scope).first = some definition then some scope else none

/-- An argument has the type of the parameter it stands for, or else the type it is listed with. -/
def typeArgument (p : Program) (b : BlockRef) (scope : Option ScopeId) (a : FunctionArg) :
    TypingM Unit := do
  let n ← p.inputType b a.id
  let c ← get
  match scope.bind fun s => (c.scope s).declared.get? a.name with
  | some v => unite n (c.binding v).node
  | none => expect n a.type

def typeFunctionCall (p : Program) (b : BlockRef) : TypingM Unit := do
  match (p.block b).signature with
  | none => pure ()
  | some s => do
    let scope := p.functionScope? (← get) s.name
    s.args.forM (p.typeArgument b scope)

/-- The type that a placeholder for a parameter starts with. -/
def placeholderType? (q : Parameter) : Option TypeName :=
  q.checks.head?.filter fun t =>
    t != TypeName.generic && t != TypeName.any && !TypeName.isArray t

/-- Joins a class with the first of several acceptable types that it can have. A generic or dynamic
type accepts it as it is. -/
def acceptFirst (n : NodeId) : List TypeName → TrackM Unit
  | [] => pure ()
  | t :: r => do
    match ← expectedNode t with
    | none => pure ()
    | some e => do
      if ← uniteSucceeds n e then pure () else acceptFirst n r

/-- A generic argument of a method on lists has the type of the elements. -/
def typeGeneric (q : Parameter) (receiver : Option NodeId) (n : NodeId) : TypingM Unit := do
  match receiver.filter fun _ => q.type == TypeName.generic && !q.isReceiver with
  | none => pure ()
  | some r => do
    if ← TypeGraph.isArrayNode r then TypeGraph.linkElement r n else pure ()

/-- Whether a parameter of a call is typed: it has an input that holds no field literal. -/
def isTyped (p : Program) (block : Block) (input : String) : Bool :=
  block.hasInput input &&
    !(block.inputTarget? input).any fun t => p.kind t == .fieldLiteral

/-- Types one parameter of a host call. Keeps the node of the receiver, once it is known. -/
def typeParameter (p : Program) (b : BlockRef) (receiver : Option NodeId) (q : Parameter) :
    TypingM (Option NodeId) := do
  let block := p.block b
  let input := q.inputOn block.mutation
  if p.isTyped block input then do
    let target ← p.attach b input (placeholderType? q)
    let n ← p.typeOfTarget target
    typeGeneric q receiver n
    acceptFirst n q.checks
    return if q.isReceiver then some n else receiver
  else return receiver

def typeHostCall (p : Program) (b : BlockRef) (name : String) : TypingM Unit := do
  match p.surface.symbol? name with
  | none => (p.fail b (.unknownSymbol name) : CompileM Unit)
  | some symbol => do
    let _ ← symbol.parameters.foldlM (p.typeParameter b) none

/-! ## All blocks -/

def typeBlock (p : Program) (b : BlockRef) : TypingM Unit :=
  let block := p.block b
  let variableName := block.variableField?.getD ""
  match block.kind with
  | .arithmetic _ | .modulo | .mathBinary _ | .mathUnary _ =>
    p.expectInputs b TypeName.number (block.valueInputs.map (·.name))
  | .compare op =>
    if op.isEquality then do
      let l ← p.inputType b "A"
      let r ← p.inputType b "B"
      unite l r
    else p.expectInputs b TypeName.number ["A", "B"]
  | .boolOperation _ => p.expectInputs b TypeName.boolean ["A", "B"]
  | .negate => p.expectInputs b TypeName.boolean ["BOOL"]
  | .textLength => p.expectInputs b TypeName.text ["VALUE"]
  | .conditional =>
    p.expectInputs b TypeName.boolean ((block.numberedInputs "IF").map (·.name))
  | .repeatTimes => p.expectInputs b TypeName.number ["TIMES"]
  | .whileLoop => p.expectInputs b TypeName.boolean ["COND"]
  | .forRange =>
    p.expectInputs b TypeName.number (if block.hasInput "FROM" then ["FROM", "TO"] else ["TO"])
  | .forOf => do
    let list ← p.expectInput b "LIST" TypeName.array
    let element ← p.variableType b variableName
    TypeGraph.linkElement list element
  | .variableSet => do
    let n ← p.variableType b variableName
    let value ← p.attach b "VALUE" none
    p.assign n value
  | .variableChange => do
    let n ← p.variableType b variableName
    unite n TypeGraph.numberNode
    p.expectInputs b TypeName.number ["VALUE"]
  | .listIndexGet => do
    p.expectInputs b TypeName.array ["LIST"]
    p.expectInputs b TypeName.number ["INDEX"]
    let _ ← p.blockType b
  | .listIndexSet => do
    let list ← p.expectInput b "LIST" TypeName.array
    p.expectInputs b TypeName.number ["INDEX"]
    let value ← p.inputType b "VALUE"
    TypeGraph.linkElement list value
  | .listLength => p.expectInputs b TypeName.array [lengthInput block]
  | .listCreate => do
    let list ← p.blockType b
    p.typeItems list ((itemTargets block).filter (p.isLive (← get)))
  | .functionDefinition =>
    block.functionName?.forM fun name => do
      let _ ← p.functionType name
  | .functionCall | .functionCallOutput => p.typeFunctionCall b
  | .hostCall name => p.typeHostCall b name
  | _ => pure ()

/-- Applies the rule of a block and reports types that cannot be one. -/
def checkBlock (p : Program) (b : BlockRef) : CompileM Unit := fun c =>
  match p.typeBlock b c with
  | .ok _ c => .ok () c
  | .error (.mismatch m) c => .ok () (p.report b m.message c).2
  | .error (.fault f) c => .error f c

/-- The type that a variable gets when its own is not settled. -/
def defaultType? (isParameter isArray : Bool) : Option TypeName :=
  match isParameter, isArray with
  | true, true => some "any[]"
  | true, false => none
  | false, true => some "number[]"
  | false, false => some TypeName.number

/-- Gives a variable whose type is not settled its default type. -/
def settleVariable (v : BindingId) : TrackM Unit := do
  let x := (← get).binding v
  if TypeName.isOpen (← TypeGraph.resolvedType x.node) then do
    let isArray ← TypeGraph.isArrayNode x.node
    (defaultType? x.isParameter isArray).forM (TypeGraph.setType x.node ·)
  else pure ()

/-- Whether the pass comes to a block: it is live and was visited. -/
def isChecked (p : Program) (c : Compilation) (b : BlockRef) : Bool :=
  p.isLive c b && c.blockScope.contains b

def infer (p : Program) : CompileM Unit := do
  p.workspace.refs.forM fun b => do
    if p.isChecked (← get) b then p.checkBlock b else pure ()
  (List.range (← get).bindings.size).forM fun v => settleVariable v

end Program

end BlockProgram
