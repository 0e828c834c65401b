import BlockProgram.Code.LineMap
import BlockProgram.Compile.EnumDeclaration
import BlockProgram.Compile.TopBlocks
import BlockProgram.Scope.Naming

/-!
# Compiling a program

`Program.compile` goes through four stages: it selects the top blocks, finds scopes, types the
program, and writes it out. A fault ends it in the stage where it arises.
-/

namespace BlockProgram

inductive Stage where
  | selecting
  | tracking
  | typing
  | writing
deriving Repr, DecidableEq, Inhabited

namespace Stage

def all : List Stage := [selecting, tracking, typing, writing]

def number : Stage → Nat
  | selecting => 1
  | tracking => 2
  | typing => 3
  | writing => 4

def label : Stage → String
  | selecting => "Selecting top blocks"
  | tracking => "Tracking scopes"
  | typing => "Inferring types"
  | writing => "Compiling blocks"

end Stage

/-- A fault and the stage in which it arose. -/
structure Failure where
  stage : Stage
  fault : Fault
deriving Repr, DecidableEq, Inhabited

structure CompileOptions where
  /-- Formats the source; none if it cannot. -/
  formatter : Option (String → Option String) := none
  emitFormatted : Bool := false

/-- The formatted source, if it is wanted and can be had. -/
def CompileOptions.format (o : CompileOptions) (source : String) : Option String :=
  if o.emitFormatted then o.formatter.bind (· source) else none

structure Output where
  source : String := ""
  map : List SourceEntry := []
  lines : List LineEntry := []
  diagnostics : List Diagnostic := []
  /-- The ids of the top blocks that were switched off, in order. -/
  disabled : List String := []
  /-- How many blocks of each type the program has, by type. -/
  stats : List (String × Nat) := []
  formatted : Option String := none
deriving Repr, DecidableEq, Inhabited

/-- The stages that a compilation came to. -/
def Stage.reached (result : Except Failure Output) : List Stage :=
  match result with
  | .ok _ => Stage.all
  | .error f => Stage.all.filter fun s => decide (s.number ≤ f.stage.number)

namespace Program

/-! ## Names that are taken -/

/-- The identifiers of the user functions. -/
def functionIdentifiers (p : Program) : List String :=
  (p.workspace.refs.filter (p.kind · = .functionDefinition)).filterMap fun b =>
    (p.block b).functionName?.map functionIdentifier

/-- The names that no variable may get: those of user functions, and of the namespaces, enums and
kinds of the host. -/
def takenNames (p : Program) : List String :=
  p.functionIdentifiers ++ p.surface.namespaces ++ p.surface.enums.map (·.name) ++
    p.surface.kinds.map (·.name)

/-! ## Writing -/

/-- Asks for a blank line before the first of several statements. -/
def separateFirst : List Code → List Code
  | [] => []
  | c :: r => c.separated true :: r

def emitRootDeclarations : TrackM (List Code) := do
  let c ← get
  let shown := c.rootDeclarations.filter fun v => !(c.binding v).isHidden
  return separateFirst (← shown.mapM emitDeclaration)

def hostDeclarations (p : Program) : List Code :=
  (p.surface.enums.filterMap (·.declaration? p.workspace.vars)) ++
    p.surface.kinds.filterMap (·.declaration? p.workspace.vars)

/-- The code of a top block. -/
def emitTopLines (p : Program) (b : BlockRef) : TopRole → CompileM (List Code)
  | .looseChain => p.emitChain p.emitter (some b)
  | .start | .container => emitLink p.emitter b

/-- The code of a top block, set off from what comes before it. -/
def emitTop (p : Program) (top : BlockRef × TopRole) : CompileM (List Code) := do
  return separateFirst (← p.emitTopLines top.1 top.2)

def emitProgram (p : Program) (tops : List (BlockRef × TopRole)) : CompileM (List Code) := do
  let declarations ← emitRootDeclarations
  let code ← tops.mapM p.emitTop
  return p.hostDeclarations ++ declarations ++ code.flatten

/-! ## The stages together -/

/-- How many live blocks of each type there are, shadow blocks aside. -/
def stats (p : Program) (c : Compilation) : List (String × Nat) :=
  let counted := p.workspace.refs.filter fun b => !(p.block b).shadow && p.isLive c b
  let tags := counted.map fun b => (p.block b).tag
  (Sorted.texts tags).eraseDups.map fun t => (t, tags.count t)

def output (p : Program) (options : CompileOptions) (s : Selection) (c : Compilation)
    (code : List Code) : Output :=
  let written := Code.layOut code
  { source := written.text
    map := written.map
    lines := LineMap.ofEntries written.text written.map
    diagnostics := c.diagnostics
    disabled := Sorted.texts (s.disabled.map fun b => (p.block b).id)
    stats := p.stats c
    formatted := options.format written.text }

/-- What is known about a program once its top blocks are selected. -/
def start (p : Program) (s : Selection) : Compilation :=
  { disabled := s.disabled, taken := p.takenNames }

def compile (p : Program) (options : CompileOptions) : Except Failure Output :=
  let s := p.selectTops
  match p.infer (p.track (p.start s)).2 with
  | .error f _ => .error ⟨.typing, f⟩
  | .ok _ c =>
    match p.emitProgram (p.tops s) c with
    | .error f _ => .error ⟨.writing, f⟩
    | .ok code c => .ok (p.output options s c code)

end Program

end BlockProgram
