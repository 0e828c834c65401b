import BlockProgram.Text.Blank

/-!
# Identifiers of the generated program

`identifier` turns a display name into an identifier. `fresh` picks the first of `x`, `x2`, `x3`, …
that is not taken yet.
-/

namespace BlockProgram.Text

/-- Words that no variable may be called. -/
def reservedWords : List String :=
  ["abstract", "any", "as", "async", "await", "boolean", "break", "case", "catch", "class",
   "const", "constructor", "continue", "debugger", "declare", "default", "delete", "do", "else",
   "enum", "export", "extends", "false", "finally", "for", "from", "function", "get", "if",
   "implements", "import", "in", "instanceof", "interface", "let", "module", "namespace", "new",
   "null", "number", "of", "package", "private", "protected", "public", "require", "return",
   "set", "static", "string", "super", "switch", "symbol", "this", "throw", "true", "try",
   "type", "typeof", "undefined", "var", "void", "while", "with", "yield", "Math", "Array"]

/-- ASCII letters and digits, `_` and `$`. -/
def isNameChar (c : Char) : Bool :=
  c.isAlphanum || c == '_' || c == '$'

/-- Writes one `_` for each run of characters that cannot stand in an identifier; `inRun` says that
the `_` of the current run is already written. -/
def squash (inRun : Bool) : List Char → List Char
  | [] => []
  | c :: r =>
    if isNameChar c then c :: squash false r
    else if inRun then squash true r
    else '_' :: squash true r

/-- Makes an identifier of characters that may stand in one: it is not empty and does not start
with a digit. -/
def guardStart : List Char → List Char
  | [] => ['_']
  | c :: r => if c.isDigit then '_' :: c :: r else c :: r

def identifier (name : String) : String :=
  String.ofList (guardStart (squash false (trim name.toList)))

/-- The first of `base` with the numbers `k`, `k + 1`, … that is not taken, within `fuel` tries.
Each number that is passed over belongs to a taken name, so a counter of 32 bits that starts at 2
gives the same name unless some `2 ^ 31` names are taken. -/
def freshFrom (taken : List String) (base : String) : Nat → Nat → String
  | 0, k => base ++ toString k
  | fuel + 1, k =>
    let candidate := base ++ toString k
    if taken.contains candidate then freshFrom taken base fuel (k + 1) else candidate

/-- `base` itself if it is free, else the first free of `base2`, `base3`, …. One of as many
candidates as there are taken names is free. -/
def fresh (taken : List String) (base : String) : String :=
  if taken.contains base then freshFrom taken base taken.length 2 else base

end BlockProgram.Text
