import BlockProgram.Compilation.State

/-!
# Result types of blocks

Every block has a node of the type graph that stands for what it yields when it is evaluated: the
node of its variable, of its user function, of the elements of the list it reads from, or one of its
own. A block that yields nothing has the node of `void`.

The search goes down into the blocks that a result depends on, and into the bodies of user functions
that are not yet being searched. A level of it either goes down in a tree or starts with a function
that was not in progress, so the square of the number of blocks bounds its depth.
-/

namespace BlockProgram

def returnValueInput : String := "RETURN_VALUE"

def mixedReturns : String := "All function return values must be of the same type"

namespace Program

/-! ## Nodes of a block's own -/

def rememberNode (b : BlockRef) (n : NodeId) : TrackM Unit :=
  modify fun c => { c with blockNodes := c.blockNodes.insert b n }

/-- A new node for a block of unknown type. -/
def ownNode (b : BlockRef) (isArray : Bool) : TrackM NodeId := do
  let n ← TypeGraph.addNode none isArray
  rememberNode b n
  return n

/-- The node of the variable that a name means at a block. -/
def variableType (p : Program) (b : BlockRef) (name : String) : TypingM NodeId := do
  let v ← p.lookup b name
  return ((← get).binding v).node

/-! ## Lists -/

/-- The input that holds the list a generic result comes from, if there is one. -/
def listInput? (p : Program) (block : Block) : Option String :=
  match block.kind with
  | .listIndexGet => some "LIST"
  | .hostCall name =>
    (((p.surface.symbol? name).bind Symbol.receiver?).filter fun r =>
      r.type == TypeName.generic || TypeName.isArray r.type).map (·.name)
  | _ => none

/-- The node for the elements of a list: the recorded one, or a new one linked to the list. -/
def elementNode (list : NodeId) : TypingM NodeId := do
  let r ← TypeGraph.find list
  match ((← get).graph.node r).element with
  | some n => return n
  | none => do
    let n ← TypeGraph.addNode none false
    TypeGraph.linkElement list n
    return n

/-- Remembers the element node of a list as the node of a block that has none by now. -/
def elementOf (b : BlockRef) (list : NodeId) : TypingM NodeId := do
  match (← get).blockNodes.get? b with
  | some n => return n
  | none => do
    let n ← elementNode list
    rememberNode b n
    return n

/-- Links a list to the type of the first of its live items whose type is known. -/
def linkFirstKnown (p : Program) (blockType : BlockRef → TypingM NodeId) (list : NodeId) :
    List BlockRef → TypingM Unit
  | [] => pure ()
  | item :: r => do
    if p.isLive (← get) item then do
      let n ← blockType item
      if (← TypeGraph.resolvedType n).isSome then TypeGraph.linkElement list n
      else p.linkFirstKnown blockType list r
    else p.linkFirstKnown blockType list r

/-- The blocks plugged into the numbered inputs of a list or text block. -/
def itemTargets (block : Block) : List BlockRef :=
  (block.numberedInputs "ADD").filterMap (·.target)

def listLiteralType (p : Program) (blockType : BlockRef → TypingM NodeId) (b : BlockRef) :
    TypingM NodeId := do
  let list ← ownNode b true
  p.linkFirstKnown blockType list (itemTargets (p.block b))
  return list

/-- The type of a block whose result is generic. -/
def genericType (p : Program) (blockType : BlockRef → TypingM NodeId) (b : BlockRef) :
    TypingM NodeId :=
  match (p.listInput? (p.block b)).bind (p.block b).inputTarget? with
  | some t => do
    let list ← blockType t
    elementOf b list
  | none => ownNode b false

/-! ## User functions -/

/-- The live return statements of a definition. -/
def returnsOf (p : Program) (c : Compilation) (definition : BlockRef) : List BlockRef :=
  (p.workspace.descendants definition).filter fun b =>
    p.kind b == .functionReturn && p.isLive c b

/-- Whether a return statement calls the function itself. -/
def returnsOwnCall (p : Program) (name : String) (b : BlockRef) : Bool :=
  ((p.block b).inputTarget? returnValueInput).any fun value =>
    (p.workspace.descendants value).any fun d =>
      p.kind d == .functionCallOutput && (p.block d).functionName? == some name

/-- Runs a step while a function counts as being in progress. -/
def whileInProgress {α : Type} (name : String) (m : TypingM α) : TypingM α := fun c =>
  let leave (c : Compilation) : Compilation := { c with inProgress := c.inProgress.erase name }
  match m { c with inProgress := name :: c.inProgress } with
  | .ok a c => .ok a (leave c)
  | .error e c => .error e (leave c)

/-- Joins two classes if their types allow it, and says whether they did. -/
def unionSucceeds (a b : NodeId) : TrackM Bool := fun c =>
  match TypeGraph.union a b c.graph with
  | .ok _ g => (true, { c with graph := g })
  | .error _ g => (false, { c with graph := g })

/-- Joins a class with others up to the first that does not fit, and says whether all did. -/
def unionAll (first : NodeId) : List NodeId → TrackM Bool
  | [] => return true
  | n :: r => do
    if ← unionSucceeds first n then unionAll first r else return false

/-- The node of a value that comes from a block or a placeholder. -/
def targetType (blockType : BlockRef → TypingM NodeId) : Target → TypingM NodeId
  | .block b => blockType b
  | .placeholder i => do return ((← get).placeholder i).node

/-- The node of what is plugged into an input, or stands in for it. -/
def attachedType (p : Program) (blockType : BlockRef → TypingM NodeId) (input : String)
    (b : BlockRef) : TypingM NodeId := do
  let t ← p.attach b input none
  targetType blockType t

/-- The common type of the values that return statements give; `any` if there is none. -/
def commonType (p : Program) (definition : BlockRef) : List NodeId → TrackM NodeId
  | [] => TypeGraph.ground TypeName.void
  | first :: rest => do
    if ← unionAll first rest then return first
    else do
      p.report definition mixedReturns
      TypeGraph.ground TypeName.any

/-- The type of the values that the given return statements of a definition give. -/
def returnedType (p : Program) (blockType : BlockRef → TypingM NodeId) (definition : BlockRef)
    (returns : List BlockRef) : TypingM NodeId := do
  let withValue := returns.filter fun r => (p.block r).hasInput returnValueInput
  let nodes ← withValue.mapM (p.attachedType blockType returnValueInput)
  p.commonType definition nodes

def rememberFunction (name : String) (n : NodeId) : TrackM Unit :=
  modify fun c => { c with functionNodes := c.functionNodes.insert name n }

/-- The type of a function that is neither remembered nor in progress: `any` if it returns its own
calls, else the type of the values it returns. -/
def newFunctionType (p : Program) (blockType : BlockRef → TypingM NodeId) (name : String)
    (definition : BlockRef) : TypingM NodeId := do
  let returns := p.returnsOf (← get) definition
  if returns.any (p.returnsOwnCall name) then do
    let n ← TypeGraph.ground TypeName.any
    rememberFunction name n
    return n
  else do
    let n ← whileInProgress name (p.returnedType blockType definition returns)
    rememberFunction name n
    return n

/-- The type of what a user function returns. An unknown function may return anything; a function in
progress something yet unknown. -/
def functionTypeWith (p : Program) (blockType : BlockRef → TypingM NodeId) (name : String) :
    TypingM NodeId := do
  let c ← get
  match c.functionNodes.get? name, p.workspace.functionDefinition? name with
  | some n, _ => return n
  | none, none => TypeGraph.ground TypeName.any
  | none, some definition =>
    if name ∈ c.inProgress then TypeGraph.addNode none false
    else p.newFunctionType blockType name definition

/-! ## All blocks -/

/-- The type of a block from the types it may be used as. -/
def outputType (p : Program) (blockType : BlockRef → TypingM NodeId) (b : BlockRef) :
    TypingM NodeId :=
  match (p.block b).output with
  | none => TypeGraph.ground TypeName.void
  | some [] => ownNode b false
  | some (first :: rest) =>
    if first = TypeName.array then
      match rest with
      | list :: _ => TypeGraph.ground list
      | [] =>
        if p.kind b = .listCreate then p.listLiteralType blockType b else ownNode b true
    else if first = TypeName.generic then p.genericType blockType b
    else TypeGraph.ground first

/-- The type of a block that has no node of its own. -/
def newBlockType (p : Program) (blockType : BlockRef → TypingM NodeId) (b : BlockRef) :
    TypingM NodeId :=
  let block := p.block b
  match block.kind with
  | .variableGet => p.variableType b (block.variableField?.getD "")
  | .argumentReporter => p.variableType b ((block.field? "VALUE").getD "")
  | .functionCallOutput => p.functionTypeWith blockType (block.functionName?.getD "")
  | _ => p.outputType blockType b

/-- The type of a block, with at most `fuel` levels of search. -/
def blockTypeFrom (p : Program) : Nat → BlockRef → TypingM NodeId
  | 0, _ => TypeGraph.ground TypeName.void
  | fuel + 1, b => do
    match (← get).blockNodes.get? b with
    | some n => return n
    | none => p.newBlockType (p.blockTypeFrom fuel) b

def blockType (p : Program) (b : BlockRef) : TypingM NodeId :=
  p.blockTypeFrom ((p.workspace.size + 1) * (p.workspace.size + 1)) b

def functionType (p : Program) (name : String) : TypingM NodeId :=
  p.functionTypeWith p.blockType name

def typeOfTarget (p : Program) (t : Target) : TypingM NodeId :=
  targetType p.blockType t

/-- Types without generics or lists among several that a block may be used as. -/
def isNominal (types : List TypeName) : Bool :=
  1 < types.length && types.all fun t => t != TypeName.generic && !TypeName.isArray t

/-- The nodes of all types that a value may be used as, the narrowest first. -/
def typesOfTarget (p : Program) (t : Target) : TypingM (List NodeId) :=
  let declared : List TypeName :=
    match t with
    | .block b => (p.block b).output.getD []
    | .placeholder _ => []
  if isNominal declared then
    declared.mapM fun (t : TypeName) => (TypeGraph.ground t : TypingM NodeId)
  else do
    return [← p.typeOfTarget t]

/-- The settled type behind a node that a typing step finds; none if its types do not fit. -/
def settledType (m : TypingM NodeId) : CompileM (Option TypeName) := fun c =>
  match m c with
  | .ok n c => let r := TypeGraph.resolvedType n c.graph; .ok r.1 { c with graph := r.2 }
  | .error (.mismatch _) c => .ok none c
  | .error (.fault f) c => .error f c

def targetTypeName (p : Program) (t : Target) : CompileM (Option TypeName) :=
  settledType (p.typeOfTarget t)

end Program

end BlockProgram
