import BlockProgram.Text.Blank

/-!
# Tidy text

`tidy` removes trailing blanks from every line, blank lines at both ends of the text, and all but
the first of neighbouring blank lines. Every line of the result ends with `\n`.
-/

namespace BlockProgram.Text

/-- Keeps an empty line only after a non-empty one; `afterEmpty` says that an empty line, or the
start of the text, stands right before. -/
def collapse (afterEmpty : Bool) : List (List Char) → List (List Char)
  | [] => []
  | l :: ls =>
    if l.isEmpty then
      if afterEmpty then collapse true ls else l :: collapse true ls
    else l :: collapse false ls

/-- The lines of tidy text. -/
def tidyLines (cs : List Char) : List (List Char) :=
  ((collapse true ((lines cs).map trimRight)).reverse.dropWhile List.isEmpty).reverse

/-- Lines as text, each with its `\n`. -/
def unlines (ls : List (List Char)) : List Char :=
  ls.flatMap fun l => l ++ ['\n']

/-- A text without trailing blanks and without needless blank lines. -/
def tidy (s : String) : String :=
  String.ofList (unlines (tidyLines s.toList))

end BlockProgram.Text
