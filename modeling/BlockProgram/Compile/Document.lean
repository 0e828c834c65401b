import BlockProgram.Compile.Output
import BlockProgram.Document.Workspace
import BlockProgram.Json.Reader
import BlockProgram.Json.Writer

/-!
# From documents to documents

Compiles a workspace document against a host surface document, both as text, and writes the maps of
the output as a document.
-/

namespace BlockProgram

inductive DocumentError where
  | notJson
  | rejected (e : LoadError)
deriving Repr, DecidableEq

namespace Document

def parse (text : String) : Except DocumentError Json :=
  match Json.read text with
  | some v => .ok v
  | none => .error .notJson

def surfaceOfText (text : String) : Except DocumentError Surface := do
  let v ← parse text
  (readSurface v).mapError .rejected

def workspaceOfText (surface : Surface) (text : String) : Except DocumentError Workspace := do
  let v ← parse text
  (readWorkspace surface v).mapError .rejected

/-- The host surface in a text, the empty one if the text is blank. -/
def surfaceOrEmpty (text : String) : Except DocumentError Surface :=
  if Text.trimmed text = "" then .ok {} else surfaceOfText text

def program (workspace surface : String) : Except DocumentError Program := do
  let surface ← surfaceOrEmpty surface
  let workspace ← workspaceOfText surface workspace
  return { workspace, surface }

def compile (workspace surface : String) : Except DocumentError (Except Failure Output) := do
  return (← program workspace surface).compile {}

end Document

namespace Output

def sourceEntryJson (e : SourceEntry) : Json :=
  .object [("startOffset", .int e.start), ("length", .int e.length), ("blockId", .str e.id)]

def lineEntryJson (e : LineEntry) : Json :=
  .object [("startLine", .int e.first), ("endLine", .int e.last), ("blockId", .str e.id)]

def diagnosticJson (d : Diagnostic) : Json :=
  .object [("blockId", .str d.block), ("message", .str d.message)]

/-- The document with both source maps and the diagnostics. -/
def mapJson (o : Output) : Json :=
  .object
    [("sourceMap", .arr (o.map.map sourceEntryJson)),
     ("lineMap", .arr (o.lines.map lineEntryJson)),
     ("diagnostics", .arr (o.diagnostics.map diagnosticJson))]

end Output

end BlockProgram
