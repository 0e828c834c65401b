import BlockProgram.Json.Value
import BlockProgram.Number.Shortest
import BlockProgram.Text.Quoted

/-!
# Writing JSON

`compact` writes a value without any blank. `pretty` puts each item and field on a line of its own,
two blanks further in than what it belongs to; empty lists and objects stay on one line.
-/

namespace BlockProgram.Json

open Text (quoted)

mutual

def compact : Json → String
  | .null => "null"
  | .bool b => if b then "true" else "false"
  | .int n => toString n
  | .float x => Shortest.text x
  | .str s => quoted s
  | .arr items => "[" ++ ",".intercalate (compactItems items) ++ "]"
  | .obj fields => "\x7b" ++ ",".intercalate (compactFields fields) ++ "\x7d"

def compactItems : List Json → List String
  | [] => []
  | v :: r => compact v :: compactItems r

def compactFields : List (String × Json) → List String
  | [] => []
  | (k, v) :: r => (quoted k ++ ":" ++ compact v) :: compactFields r

end

/-- A line break and the blanks of nesting level `depth`. -/
def newLine (depth : Nat) : String :=
  String.ofList ('\n' :: List.replicate (2 * depth) ' ')

/-- Parts on lines of their own between two brackets at level `depth`. -/
def enclose (opening closing : String) (depth : Nat) (parts : List String) : String :=
  if parts.isEmpty then opening ++ closing
  else
    opening ++ newLine (depth + 1) ++ ("," ++ newLine (depth + 1)).intercalate parts ++
      newLine depth ++ closing

mutual

/-- A value over several lines, itself at level `depth`. -/
def pretty (depth : Nat) : Json → String
  | .arr items => enclose "[" "]" depth (prettyItems (depth + 1) items)
  | .obj fields => enclose "\x7b" "\x7d" depth (prettyFields (depth + 1) fields)
  | .null => "null"
  | .bool b => if b then "true" else "false"
  | .int n => toString n
  | .float x => Shortest.text x
  | .str s => quoted s

def prettyItems (depth : Nat) : List Json → List String
  | [] => []
  | v :: r => pretty depth v :: prettyItems depth r

def prettyFields (depth : Nat) : List (String × Json) → List String
  | [] => []
  | (k, v) :: r => (quoted k ++ ": " ++ pretty depth v) :: prettyFields depth r

end

end BlockProgram.Json
