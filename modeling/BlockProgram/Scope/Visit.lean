import BlockProgram.Compilation.State
import BlockProgram.Text.Blank

/-!
# Scopes of a program

One walk over the live blocks opens the scopes of a program, binds the variables that blocks declare
for their own inputs, and records which variable each block reads or writes. A variable that is
bound nowhere around a block is bound at the root for the time being.
-/

namespace BlockProgram

def repeatIndex : String := "index"

/-- The start of the fields that rename handler parameters. -/
def handlerFieldLead : String := "HANDLER_"

/-- A variable that a block declares for its own inputs. -/
structure OwnDeclaration where
  name : String
  node : NodeId
  declaration : Declaration := .argument
  isHidden : Bool := false
  isParameter : Bool := false
deriving Repr, DecidableEq, Inhabited

namespace Program

/-! ## Uses -/

/-- The variable that a name means in a scope, bound at the root if there is none. -/
def findOrDeclare (scope : ScopeId) (name : String) : TrackM BindingId := do
  match (← get).find? scope name with
  | some v => return v
  | none => do
    let node ← TypeGraph.addNode none false
    Compilation.declare Compilation.rootScope name node

def addOnce (l : List BindingId) (v : BindingId) : List BindingId :=
  if v ∈ l then l else l ++ [v]

/-- Records that a block in a scope reads or writes a variable. -/
def recordUse (scope : ScopeId) (b : BlockRef) (assigns : Bool) (v : BindingId) (c : Compilation) :
    Compilation :=
  let c := c.updateBinding v fun x =>
    { x with
      references := x.references ++ [b], first := x.first.or (some b)
      isAssigned := x.isAssigned || assigns }
  c.updateScope scope fun s =>
    { s with
      referenced := addOnce s.referenced v
      assigned := if assigns then addOnce s.assigned v else s.assigned }

/-- A block in a scope uses the variable with a name, if it names one. -/
def reference (scope : ScopeId) (b : BlockRef) (assigns : Bool) : Option String → TrackM Unit
  | none => pure ()
  | some name => do
    let v ← findOrDeclare scope name
    modify (recordUse scope b assigns v)

/-! ## Declarations -/

/-- The pieces of a text between commas. -/
def splitCommas (acc : List Char) : List Char → List (List Char)
  | [] => [acc.reverse]
  | c :: r => if c = ',' then acc.reverse :: splitCommas [] r else splitCommas (c :: acc) r

def rawNames (b : Block) : List String :=
  match b.field? "DECLARED_VARIABLES" with
  | none => []
  | some names =>
    (((splitCommas [] names.toList).map Text.trim).filter fun n => !n.isEmpty).map String.ofList

/-- Binds a variable that raw code in a scope declares, unless the scope has it. -/
def declareRaw (scope : ScopeId) (name : String) : TrackM Unit := do
  if ((← get).scope scope).declared.contains name then
    pure ()
  else do
    let node ← TypeGraph.addNode none false
    let v ← Compilation.declare scope name node
    modify (·.updateBinding v ({ · with declared := some .argument }))

/-- What a block itself reads, writes or declares in the scope around it. -/
def visitSelf (p : Program) (scope : ScopeId) (b : BlockRef) : TrackM Unit :=
  let block := p.block b
  match block.kind with
  | .variableGet => reference scope b false block.variableField?
  | .argumentReporter => reference scope b false (block.field? "VALUE")
  | .variableSet | .variableChange => reference scope b true block.variableField?
  | .rawStatement => (rawNames block).forM (declareRaw scope)
  | _ => pure ()

/-- The type of a function parameter: a list of anything, anything, or a given type. -/
def parameterNode (type : TypeName) : GraphM NodeId :=
  if type = TypeName.array then TypeGraph.addNode none true
  else if type = "" then TypeGraph.ground TypeName.any
  else TypeGraph.ground type

def functionParameter (a : FunctionArg) : GraphM OwnDeclaration := do
  return { name := a.name, node := ← parameterNode a.type, isParameter := true }

/-- The name of a handler parameter, which a field may change. -/
def handlerName (b : Block) (h : HandlerParameter) : String :=
  (b.field? (handlerFieldLead ++ h.name)).getD h.name

def handlerParameter (b : Block) (h : HandlerParameter) : GraphM OwnDeclaration := do
  return { name := handlerName b h, node := ← TypeGraph.ground h.type }

/-- The type of a property: given, or to be found out. -/
def propertyNode (type : TypeName) : GraphM NodeId :=
  if type = TypeName.any then TypeGraph.addNode none false else TypeGraph.ground type

/-- The variable that a property of a destructured parameter declares. -/
def propertyVariable (v : String × String) : GraphM OwnDeclaration := do
  return { name := v.1, node := ← propertyNode v.2 }

def handlerOf (p : Program) (qualifiedName : String) : List HandlerParameter :=
  ((p.surface.symbol? qualifiedName).bind (·.handler)).getD []

/-- The variables that a block declares for its inputs because of its kind. -/
def kindDeclarations (p : Program) (b : Block) : GraphM (List OwnDeclaration) :=
  match b.kind with
  | .forRange =>
    b.variableField?.toList.mapM fun name => do
      return { name, node := ← TypeGraph.ground TypeName.number }
  | .forOf =>
    b.variableField?.toList.mapM fun name => do
      return { name, node := ← TypeGraph.addNode none false }
  | .repeatTimes => do
    return [{
      name := repeatIndex, node := ← TypeGraph.ground TypeName.number
      declaration := .implicit, isHidden := true }]
  | .functionDefinition => b.args.mapM functionParameter
  | .hostCall name => (p.handlerOf name).mapM (handlerParameter b)
  | _ => pure []

/-- The variables that a block declares for its inputs because of its mutation. -/
def mutationDeclarations (b : Block) : GraphM (List OwnDeclaration) :=
  ((b.mutation.bind Mutation.declaredVariables?).getD []).mapM propertyVariable

/-- The variables that a block declares for its own inputs. -/
def ownDeclarations (p : Program) (b : Block) : GraphM (List OwnDeclaration) := do
  let byKind ← p.kindDeclarations b
  let byMutation ← mutationDeclarations b
  return byKind ++ byMutation

/-- Binds a variable that block `b` declares. -/
def declareOwn (scope : ScopeId) (b : BlockRef) (d : OwnDeclaration) : TrackM Unit := do
  let v ← Compilation.declare scope d.name d.node
  modify (·.updateBinding v ({ · with
    declared := some d.declaration, isHidden := d.isHidden
    isParameter := d.isParameter, first := some b }))

def place (b : BlockRef) (scope : ScopeId) : TrackM Unit :=
  modify fun c => { c with blockScope := c.blockScope.insert b scope }

/-- The scope for the inputs of a block: one of its own if it declares variables for them. -/
def inputScope (scope : ScopeId) (b : BlockRef) (declared : List OwnDeclaration) :
    TrackM ScopeId :=
  if declared.isEmpty then
    pure scope
  else do
    let own ← Compilation.newScope (some scope) (some b)
    declared.forM (declareOwn own b)
    place b own
    return own

/-! ## The walk -/

/-- Visits the live statements of a chain in a scope. -/
def visitChain (p : Program) (visit : BlockRef → ScopeId → TrackM Unit) (first : BlockRef)
    (scope : ScopeId) : TrackM Unit :=
  (p.workspace.chain (some first)).forM fun b => do
    if p.isLive (← get) b then do
      modify (·.updateScope scope fun s => { s with statements := s.statements ++ [b] })
      visit b scope
    else pure ()

/-- Visits what is plugged into an input: a value in the scope of the inputs, statements in a new
scope below it. -/
def visitInput (p : Program) (visit : BlockRef → ScopeId → TrackM Unit) (scope : ScopeId)
    (i : Input) : TrackM Unit :=
  match i.target, i.kind with
  | none, _ => pure ()
  | some t, .value => visit t scope
  | some t, .statement => do
    let child ← Compilation.newScope (some scope) (some t)
    p.visitChain visit t child

def visitLive (p : Program) (visit : BlockRef → ScopeId → TrackM Unit) (b : BlockRef)
    (scope : ScopeId) : TrackM Unit := do
  place b scope
  p.visitSelf scope b
  let declared ← p.ownDeclarations (p.block b)
  let inner ← inputScope scope b declared
  (p.block b).inputs.forM (p.visitInput visit inner)

/-- Visits a block in a scope, if it is live, and the blocks up to `fuel` levels below it. -/
def visitFrom (p : Program) : Nat → BlockRef → ScopeId → TrackM Unit
  | 0, _, _ => pure ()
  | fuel + 1, b, scope => do
    if p.isLive (← get) b then p.visitLive (p.visitFrom fuel) b scope else pure ()

def visit (p : Program) (b : BlockRef) (scope : ScopeId) : TrackM Unit :=
  p.visitFrom p.workspace.size b scope

/-- Function definitions and event registrations own their bodies. -/
def isContainer (p : Program) (b : BlockRef) : Bool :=
  match p.kind b with
  | .functionDefinition => true
  | .hostCall name => (p.surface.symbol? name).any (·.isEvent)
  | _ => false

/-- The node of a declared variable. -/
def variableNode : Option String → GraphM NodeId
  | none => TypeGraph.addNode none false
  | some t => if t = "" then TypeGraph.addNode none false else TypeGraph.ground t

/-- Binds a variable of the workspace at the root. Members of enums are no variables. -/
def declareVariable (p : Program) (v : VariableModel) : TrackM Unit := do
  let isMember := v.type.any fun t => (p.surface.enum? t).isSome
  if isMember || ((← get).scope Compilation.rootScope).declared.contains v.name then
    pure ()
  else do
    let node ← variableNode v.type
    let _ ← Compilation.declare Compilation.rootScope v.name node

/-- Visits a top block: the statements of the start block and loose statements right in the root,
containers as one block. -/
def visitTop (p : Program) (b : BlockRef) : TrackM Unit :=
  if p.kind b = .onStart then do
    place b Compilation.rootScope
    ((p.block b).statementInputs.filterMap (·.target)).forM fun first =>
      p.visitChain p.visit first Compilation.rootScope
  else if p.isContainer b then p.visit b Compilation.rootScope
  else p.visitChain p.visit b Compilation.rootScope

/-- The live top blocks: start blocks first, then containers, then the others. -/
def visitOrder (p : Program) (c : Compilation) : List BlockRef :=
  let tops := p.workspace.topBlocks.filter (p.isLive c)
  let others := tops.filter (p.kind · ≠ .onStart)
  tops.filter (p.kind · = .onStart) ++ others.filter p.isContainer ++
    others.filter fun b => !p.isContainer b

def visitAll (p : Program) : TrackM Unit := do
  p.workspace.vars.forM p.declareVariable
  (p.visitOrder (← get)).forM p.visitTop

end Program

end BlockProgram
