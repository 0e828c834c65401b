import BlockProgram.CommandLine.Plan

/-!
# The command

Runs a plan on real files: reads the documents that the options name, reports to the error stream
and prints to the output.
-/

namespace BlockProgram.CommandLine

def contentOf (path : String) : IO (Option String) :=
  try some <$> IO.FS.readFile path catch _ => pure none

/-- The content of the files that the options name. -/
def inputs (o : Options) : IO (List (String × Option String)) :=
  (o.input :: o.surface.toList).mapM fun path => do return (path, ← contentOf path)

def perform : Action → IO Unit
  | .report line => IO.eprintln line
  | .print text => IO.print text
  | .write path text => IO.FS.writeFile path text

/-- Does what a plan says and gives the exit status. -/
def execute (p : Plan) : IO UInt32 := do
  p.actions.forM perform
  match p.error with
  | none => return 0
  | some e => do
    IO.eprintln ("Error: " ++ e.message)
    return 1

def usage : String :=
  "Usage: INPUT [OUTPUT] [--api FILE] [--source-map FILE] [--diagnostics] [--stats] " ++
    "[--trim-formatter]"

def runFiles (o : Options) : IO UInt32 := do
  let files ← inputs o
  execute (plan o fun path => (files.lookup path).join)

end BlockProgram.CommandLine

def main (args : List String) : IO UInt32 :=
  match BlockProgram.CommandLine.Options.parse args with
  | some o => BlockProgram.CommandLine.runFiles o
  | none => do
    IO.eprintln BlockProgram.CommandLine.usage
    return 2
