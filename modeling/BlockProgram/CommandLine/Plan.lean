import BlockProgram.CommandLine.Options
import BlockProgram.Compile.Document
import BlockProgram.Text.Tidy

/-!
# What the command does

`plan` says, from the options and the files, which lines are reported, what is printed and written,
in order, and how the command ends. It reads the host surface and the workspace first and writes
last, so the files may be taken as they are at the start.
-/

namespace BlockProgram.CommandLine

/-- A visible step of the command. -/
inductive Action where
  | report (line : String)
  | print (text : String)
  | write (path text : String)
deriving Repr, DecidableEq, Inhabited

inductive Error where
  | notFound (path : String)
  | document (e : DocumentError)
  | failed (f : Fault)
  | notWritable (path : String)
deriving Repr, DecidableEq

def Error.message : Error → String
  | .notFound path => "Input file not found: '" ++ path ++ "'."
  | .document .notJson => "Invalid JSON."
  | .document (.rejected e) => e.message
  | .failed f => "Compilation failed: " ++ f.text
  | .notWritable path => "Cannot write '" ++ path ++ "'."

/-- What the command does and how it ends. -/
structure Plan where
  actions : List Action
  error : Option Error := none
deriving Repr, DecidableEq

/-! ## Progress -/

def barWidth : Nat := 14

/-- A bar that is filled up to step `step` of `total`, rounded to the nearest mark. -/
def bar (step total : Nat) : String :=
  let filled := min barWidth ((step * barWidth + total / 2) / total)
  "[" ++ String.ofList (List.replicate filled '=' ++ List.replicate (barWidth - filled) '-') ++ "]"

def progressLine (total step : Nat) (label : String) : String :=
  "[Compile] " ++ label ++ "... (" ++ toString step ++ "/" ++ toString total ++ ") " ++
    bar step total

namespace Options

/-- The number of steps: two documents are read, the program is compiled, and up to two files are
written. -/
def total (o : Options) : Nat :=
  2 + Stage.all.length + o.output.toList.length + o.sourceMap.toList.length

def progress (o : Options) (step : Nat) (label : String) : Action :=
  .report (progressLine o.total step label)

/-! ## Reading -/

def readFile (files : String → Option String) (path : String) : Except Error String :=
  match files path with
  | some text => .ok text
  | none => .error (.notFound path)

/-- The host surface, the empty one if none is given. -/
def readSurface (o : Options) (files : String → Option String) : Except Error Surface :=
  match o.surface with
  | none => .ok {}
  | some path => do
    let text ← readFile files path
    (Document.surfaceOfText text).mapError .document

/-- The program to compile. -/
def readProgram (o : Options) (files : String → Option String) (surface : Surface) :
    Except Error Program := do
  let text ← readFile files o.input
  let workspace ← (Document.workspaceOfText surface text).mapError .document
  return { workspace, surface }

def compileOptions (o : Options) : CompileOptions :=
  { formatter := if o.tidy then some (fun s => some (Text.tidy s)) else none
    emitFormatted := o.tidy }

/-! ## Results -/

/-- A count, right-aligned in six columns, and what is counted. -/
def statLine (s : String × Nat) : String :=
  let count := toString s.2
  String.ofList (List.replicate (6 - count.length) ' ') ++ count ++ "  " ++ s.1

/-- Diagnostics and statistics, as far as they are asked for. -/
def remarks (o : Options) (out : Output) : List Action :=
  (if o.showDiagnostics then
    out.diagnostics.map fun d => .report ("warning: " ++ d.text) else []) ++
  (if o.showStats then out.stats.map fun s => .report (statLine s) else [])

/-- The program text that is delivered. -/
def deliveredText (out : Output) : String :=
  out.formatted.getD out.source

/-- Writes the program text to its file, or prints it. -/
def deliver (o : Options) (out : Output) : List Action :=
  match o.output with
  | some path =>
    [o.progress (Stage.all.length + 3) "Writing TypeScript", .write path (deliveredText out)]
  | none => [.print (deliveredText out)]

def deliverMap (o : Options) (out : Output) : List Action :=
  match o.sourceMap with
  | some path =>
    [o.progress o.total "Writing source map", .write path (out.mapJson.pretty 0)]
  | none => []

end Options

/-! ## The whole command -/

def planProgram (o : Options) (p : Program) : Plan :=
  let result := p.compile o.compileOptions
  let stages := (Stage.reached result).map fun s => o.progress (2 + s.number) s.label
  match result with
  | .error f => ⟨stages, some (.failed f.fault)⟩
  | .ok out => ⟨stages ++ o.remarks out ++ o.deliver out ++ o.deliverMap out, none⟩

def Plan.after (a : Action) (p : Plan) : Plan :=
  { p with actions := a :: p.actions }

/-- Reads the workspace and goes on. -/
def planWorkspace (o : Options) (files : String → Option String) (surface : Surface) : Plan :=
  .after (o.progress 2 "Loading workspace")
    (match o.readProgram files surface with
    | .error e => ⟨[], some e⟩
    | .ok p => planProgram o p)

/-- What the command does with the given files. -/
def plan (o : Options) (files : String → Option String) : Plan :=
  .after (o.progress 1 "Loading API surface")
    (match o.readSurface files with
    | .error e => ⟨[], some e⟩
    | .ok surface => planWorkspace o files surface)

end BlockProgram.CommandLine
