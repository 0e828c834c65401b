import BlockProgram.CommandLine.Plan
import BlockProgram.Table

/-!
# Running the command in a directory

A directory is a table of files by their paths, and the command is run in it: what it prints, what
it reports, and the files it leaves behind. A directory exists as long as it holds a file; a file is
written only into one that exists.
-/

namespace BlockProgram.CommandLine

/-- The parts of a path, from the outermost directory to the file. -/
abbrev Path := List String

structure Directory where
  files : Table Path String := {}
deriving Repr, DecidableEq, Inhabited

/-- The pieces of a text between slashes. -/
def splitSlashes (acc : List Char) : List Char → List String
  | [] => [String.ofList acc.reverse]
  | c :: r =>
    if c = '/' then String.ofList acc.reverse :: splitSlashes [] r else splitSlashes (c :: acc) r

/-- Whether a text can be a path at all: it holds no zero character, has at most 4095 bytes, and
each of its pieces has at most 255. -/
def isPath (text : String) : Bool :=
  text.toList.all (· != Char.ofNat 0) && text.utf8ByteSize ≤ 4095 &&
    (splitSlashes [] text.toList).all (·.utf8ByteSize ≤ 255)

namespace Directory

def hasDirectory (d : Directory) (path : Path) : Bool :=
  path.isEmpty || d.files.keys.any fun f => path.isPrefixOf f && path != f

/-- Follows the pieces of a path from an existing directory on. -/
def follow (d : Directory) (here : Path) : List String → Option Path
  | [] => some here
  | piece :: r =>
    if !d.hasDirectory here then none
    else if piece = "" ∨ piece = "." then d.follow here r
    else if piece = ".." then if here.isEmpty then none else d.follow here.dropLast r
    else d.follow (here ++ [piece]) r

/-- The place that a path names, none if it leads outside or is no path. -/
def locate (d : Directory) (path : String) : Option Path :=
  if path.toList.head? = some '/' || !isPath path then none
  else d.follow [] (splitSlashes [] path.toList)

def read? (d : Directory) (path : String) : Option String :=
  (d.locate path).bind d.files.get?

/-- Replaces the content of a file or makes a new one. -/
def write? (d : Directory) (path text : String) : Option Directory :=
  match d.locate path with
  | none => none
  | some f => if d.hasDirectory f then none else some ⟨d.files.insert f text⟩

def ofFiles (files : List (String × String)) : Directory :=
  ⟨Table.ofList (files.map fun f =>
    ((splitSlashes [] f.1.toList).filter fun piece => piece != "" && piece != ".", f.2))⟩

end Directory

structure Run where
  directory : Directory
  printed : String := ""
  /-- What was reported, each line with its end. -/
  reported : String := ""
  error : Option Error := none
deriving Repr, DecidableEq

namespace Run

/-- Does one step; an error if it cannot be done. -/
def step (r : Run) : Action → Except Error Run
  | .report line => .ok { r with reported := r.reported ++ line ++ "\n" }
  | .print text => .ok { r with printed := r.printed ++ text }
  | .write path text =>
    match r.directory.write? path text with
    | some d => .ok { r with directory := d }
    | none => .error (.notWritable path)

/-- Does steps one after another up to the first that cannot be done. -/
def steps (r : Run) (final : Option Error) : List Action → Run
  | [] => { r with error := final }
  | a :: rest =>
    match r.step a with
    | .ok r => r.steps final rest
    | .error e => { r with error := some e }

end Run

def run (o : Options) (d : Directory) : Run :=
  let p := plan o d.read?
  Run.steps { directory := d } p.error p.actions

end BlockProgram.CommandLine
