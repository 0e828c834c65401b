import BlockProgram.TypeGraph.Element
import BlockProgram.Workspace.Build

/-!
# A compilation in progress

What is known about a program while it is compiled: its type graph, its scopes and the variables
bound in them, what stands in for missing inputs, and the diagnostics so far.

A `Program` is what is compiled and never changes. A `Compilation` is what is known about it.
-/

namespace BlockProgram

/-- A workspace with the host surface it is compiled against. -/
structure Program where
  workspace : Workspace
  surface : Surface
deriving Repr, DecidableEq, Inhabited

/-- A scope, a variable and a placeholder are known by their number. -/
abbrev ScopeId := Nat

abbrev BindingId := Nat

abbrev PlaceholderId := Nat

/-- How a variable is declared without a declaration of its own. -/
inductive Declaration where
  /-- As a parameter of a function, handler or loop, or by raw code. -/
  | argument
  /-- By its first assignment. -/
  | assigned
  /-- As the counter that a loop makes up. -/
  | implicit
deriving Repr, DecidableEq, Inhabited

structure Binding where
  name : String
  node : NodeId
  outputName : Option String := none
  declared : Option Declaration := none
  isAssigned : Bool := false
  isParameter : Bool := false
  first : Option BlockRef := none
  isHidden : Bool := false
  /-- The blocks that read or write the variable. -/
  references : List BlockRef := []
deriving Repr, DecidableEq, Inhabited

structure Scope where
  parent : Option ScopeId := none
  first : Option BlockRef := none
  declared : Table String BindingId := {}
  referenced : List BindingId := []
  assigned : List BindingId := []
  children : List ScopeId := []
  /-- The statements right in the scope, in output order. -/
  statements : List BlockRef := []
deriving Repr, DecidableEq, Inhabited

/-- Stands in for what is missing in an input. -/
structure Placeholder where
  owner : BlockRef
  input : String
  node : NodeId
deriving Repr, DecidableEq, Inhabited

/-- Where the value of an input comes from. -/
inductive Target where
  | block (b : BlockRef)
  | placeholder (i : PlaceholderId)
deriving Repr, DecidableEq, Inhabited

structure Diagnostic where
  block : String
  message : String
deriving Repr, DecidableEq, Inhabited

def locatedMessage (message block : String) : String :=
  message ++ " (block '" ++ block ++ "')"

def Diagnostic.text (d : Diagnostic) : String :=
  locatedMessage d.message d.block

inductive FaultCause where
  | notVisited
  | unknownVariable (name : String)
  | unknownSymbol (name : String)
  | unnamedFunction
deriving Repr, DecidableEq, Inhabited

def FaultCause.message : FaultCause → String
  | .notVisited => "Block was never visited by the scope tracker."
  | .unknownVariable name => "Unknown variable '" ++ name ++ "'."
  | .unknownSymbol name => "Unknown API symbol '" ++ name ++ "'."
  | .unnamedFunction => "Function definition without a name."

/-- A problem with one block that stops the compilation. -/
structure Fault where
  block : String
  cause : FaultCause
deriving Repr, DecidableEq, Inhabited

def Fault.text (f : Fault) : String :=
  locatedMessage f.cause.message f.block

/-- What is known about a program while it is compiled. -/
structure Compilation where
  graph : TypeGraph := .initial
  /-- The first scope is the root. -/
  scopes : Array Scope := #[{}]
  bindings : Array Binding := #[]
  /-- The scope of every block that scope tracking came to. -/
  blockScope : Table BlockRef ScopeId := {}
  /-- The variables to declare right before a statement. -/
  blockDeclarations : Table BlockRef (List BindingId) := {}
  /-- The variables to declare at the top of the program. -/
  rootDeclarations : List BindingId := []
  placeholders : Array Placeholder := #[]
  /-- The nodes made up for blocks, so that every pass sees the same one. -/
  blockNodes : Table BlockRef NodeId := {}
  functionNodes : Table String NodeId := {}
  /-- User functions whose result type is being looked for. -/
  inProgress : List String := []
  diagnostics : List Diagnostic := []
  /-- Blocks switched off for this compilation. -/
  disabled : List BlockRef := []
  /-- Names that no variable may get. -/
  taken : List String := []
deriving Repr, DecidableEq, Inhabited

/-- Steps that always succeed. -/
abbrev TrackM := StateM Compilation

/-- Steps that may stop the compilation. -/
abbrev CompileM := EStateM Fault Compilation

/-- Why a typing rule fails: types that cannot be one, or a fault. -/
inductive TypingError where
  | mismatch (m : Mismatch)
  | fault (f : Fault)
deriving Repr, DecidableEq

/-- Steps of typing rules. -/
abbrev TypingM := EStateM TypingError Compilation

/-- A step on the type graph. -/
instance liftGraph : MonadLift GraphM TrackM where
  monadLift m c := let r := m c.graph; (r.1, { c with graph := r.2 })

/-- A step on the type graph that may meet a mismatch. -/
instance liftUnify : MonadLift UnifyM TypingM where
  monadLift m c :=
    match m c.graph with
    | .ok a g => .ok a { c with graph := g }
    | .error e g => .error (.mismatch e) { c with graph := g }

/-- A fault stops a typing rule. -/
instance liftCompile : MonadLift CompileM TypingM where
  monadLift m c :=
    match m c with
    | .ok a c => .ok a c
    | .error e c => .error (.fault e) c

namespace Compilation

def rootScope : ScopeId := 0

def scope (c : Compilation) (s : ScopeId) : Scope :=
  c.scopes[s]?.getD {}

def binding (c : Compilation) (b : BindingId) : Binding :=
  c.bindings[b]?.getD default

def placeholder (c : Compilation) (i : PlaceholderId) : Placeholder :=
  c.placeholders[i]?.getD default

def updateScope (c : Compilation) (s : ScopeId) (f : Scope → Scope) : Compilation :=
  { c with scopes := c.scopes.modify s f }

def updateBinding (c : Compilation) (b : BindingId) (f : Binding → Binding) : Compilation :=
  { c with bindings := c.bindings.modify b f }

def outputName (c : Compilation) (b : BindingId) : String :=
  (c.binding b).outputName.getD (c.binding b).name

/-! ## Scopes -/

def newScope (parent : Option ScopeId) (first : Option BlockRef) : TrackM ScopeId := fun c =>
  let id := c.scopes.size
  let c := { c with scopes := c.scopes.push { parent, first } }
  match parent with
  | none => (id, c)
  | some p => (id, c.updateScope p fun s => { s with children := s.children ++ [id] })

def declare (scope : ScopeId) (name : String) (node : NodeId) : TrackM BindingId := fun c =>
  let id := c.bindings.size
  let c := { c with bindings := c.bindings.push { name, node } }
  (id, c.updateScope scope fun s => { s with declared := s.declared.insert name id })

/-- The variable with a name in a scope or the nearest scope around it, among the `fuel` nearest. -/
def findFrom (c : Compilation) (name : String) : Nat → ScopeId → Option BindingId
  | 0, _ => none
  | fuel + 1, s =>
    match (c.scope s).declared.get? name with
    | some b => some b
    | none =>
      match (c.scope s).parent with
      | none => none
      | some p => c.findFrom name fuel p

/-- The variable that a name means in a scope. -/
def find? (c : Compilation) (s : ScopeId) (name : String) : Option BindingId :=
  c.findFrom name c.scopes.size s

/-! ## Diagnostics -/

/-- Adds a diagnostic unless it is there already. -/
def addDiagnostic (c : Compilation) (d : Diagnostic) : Compilation :=
  if d ∈ c.diagnostics then c else { c with diagnostics := c.diagnostics ++ [d] }

end Compilation

namespace Program

def block (p : Program) (b : BlockRef) : Block :=
  p.workspace.block b

def kind (p : Program) (b : BlockRef) : BlockKind :=
  p.workspace.kind b

/-- A block is live when it is enabled and neither it nor a block above it is switched off. -/
def isLive (p : Program) (c : Compilation) (b : BlockRef) : Bool :=
  p.workspace.isEnabled b &&
    (b :: p.workspace.ancestors b).all fun a => !c.disabled.contains a

def fail {α : Type} (p : Program) (b : BlockRef) (cause : FaultCause) : CompileM α :=
  throw ⟨(p.block b).id, cause⟩

/-- The variable that a name means at a block. -/
def lookup (p : Program) (b : BlockRef) (name : String) : CompileM BindingId := do
  let c ← get
  match c.blockScope.get? b with
  | none => p.fail b .notVisited
  | some s =>
    match c.find? s name with
    | none => p.fail b (.unknownVariable name)
    | some v => pure v

def report (p : Program) (b : BlockRef) (message : String) : TrackM Unit :=
  modify (·.addDiagnostic ⟨(p.block b).id, message⟩)

/-! ## Inputs -/

/-- A node for a placeholder, of the given type if there is one. -/
def placeholderNode : Option TypeName → GraphM NodeId
  | some t => TypeGraph.ground t
  | none => TypeGraph.addNode none false

/-- The placeholder of an input, made with a node of the given type when it is first asked for. -/
def placeholderFor (b : BlockRef) (input : String) (type : Option TypeName) :
    TrackM PlaceholderId := do
  match (← get).placeholders.findIdx? fun h => h.owner == b && h.input == input with
  | some i => return i
  | none => do
    let node ← placeholderNode type
    modifyGet fun c =>
      (c.placeholders.size, { c with placeholders := c.placeholders.push ⟨b, input, node⟩ })

/-- The live block that is plugged into an input. -/
def liveTarget? (p : Program) (c : Compilation) (b : BlockRef) (input : String) :
    Option BlockRef :=
  ((p.block b).inputTarget? input).filter (p.isLive c)

/-- The live block that is plugged into an input, or the placeholder that stands in for it. -/
def attach (p : Program) (b : BlockRef) (input : String) (type : Option TypeName) :
    TrackM Target := do
  match p.liveTarget? (← get) b input with
  | some t => return .block t
  | none => return .placeholder (← placeholderFor b input type)

end Program

end BlockProgram
