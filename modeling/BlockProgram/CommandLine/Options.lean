/-!
# Command line options

`INPUT [OUTPUT]` with the options `--api FILE` and `--source-map FILE` and the flags
`--diagnostics`, `--stats` and `--trim-formatter`, each at most once and in any order. `--` ends the
options. The value of an option is the next argument or stands after `=`.
-/

namespace BlockProgram.CommandLine

structure Options where
  input : String
  output : Option String := none
  surface : Option String := none
  sourceMap : Option String := none
  showDiagnostics : Bool := false
  showStats : Bool := false
  tidy : Bool := false
deriving Repr, DecidableEq, Inhabited

structure Arguments where
  paths : List String := []
  surface : Option String := none
  sourceMap : Option String := none
  showDiagnostics : Bool := false
  showStats : Bool := false
  tidy : Bool := false
deriving Repr, DecidableEq, Inhabited

namespace Arguments

def addPath (a : Arguments) (path : String) : Option Arguments :=
  if path = "" then none else some { a with paths := a.paths ++ [path] }

def setValue (a : Arguments) (name value : String) : Option Arguments :=
  if value = "" then none
  else if name = "--api" then
    if a.surface.isSome then none else some { a with surface := some value }
  else if name = "--source-map" then
    if a.sourceMap.isSome then none else some { a with sourceMap := some value }
  else none

def setFlag (a : Arguments) (name : String) : Option Arguments :=
  if name = "--diagnostics" then
    if a.showDiagnostics then none else some { a with showDiagnostics := true }
  else if name = "--stats" then
    if a.showStats then none else some { a with showStats := true }
  else if name = "--trim-formatter" then
    if a.tidy then none else some { a with tidy := true }
  else none

def takesValue (name : String) : Bool :=
  name == "--api" || name == "--source-map"

/-- Whether an argument is an option; a lone dash is not. -/
def isOption (arg : String) : Bool :=
  arg.toList.head? == some '-' && arg != "-"

/-- Splits an option from the value behind its first `=`. -/
def splitValue (arg : String) : Option (String × String) :=
  let cs := arg.toList
  match cs.dropWhile (· ≠ '=') with
  | [] => none
  | _ :: value => some (String.ofList (cs.takeWhile (· ≠ '=')), String.ofList value)

def addOption (a : Arguments) (arg : String) : Option Arguments :=
  match splitValue arg with
  | some (name, value) => a.setValue name value
  | none => a.setFlag arg

/-- Reads arguments; `pending` is an option that waits for its value. -/
def readFrom (a : Arguments) (pending : Option String) : List String → Option Arguments
  | [] => if pending.isSome then none else some a
  | arg :: r =>
    match pending with
    | some name =>
      if isOption arg then none else (a.setValue name arg).bind (readFrom · none r)
    | none =>
      if arg = "--" then r.foldlM addPath a
      else if takesValue arg then readFrom a (some arg) r
      else if isOption arg then (a.addOption arg).bind (readFrom · none r)
      else (a.addPath arg).bind (readFrom · none r)

/-- The options that arguments give; they name one or two paths. -/
def options (a : Arguments) : Option Options :=
  match a.paths with
  | [input] => some (build a input none)
  | [input, output] => some (build a input (some output))
  | _ => none
where
  build (a : Arguments) (input : String) (output : Option String) : Options :=
    { input, output, surface := a.surface, sourceMap := a.sourceMap
      showDiagnostics := a.showDiagnostics, showStats := a.showStats, tidy := a.tidy }

end Arguments

/-- Reads the arguments of the command; none if they are no use of it. -/
def Options.parse (args : List String) : Option Options :=
  (Arguments.readFrom {} none args).bind Arguments.options

end BlockProgram.CommandLine
