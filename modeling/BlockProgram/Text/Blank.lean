/-!
# Blank characters, trimming and lines

A character is blank when it has the Unicode property White_Space. Trimming drops blank characters
from one or both ends. A text is cut into lines at `\n`; a `\r` right before the cut goes with it,
and a last line without `\n` is kept as it stands.
-/

namespace BlockProgram.Text

/-- The characters with the Unicode property White_Space. -/
def isBlank (c : Char) : Bool :=
  let n := c.toNat
  (9 ≤ n && n ≤ 13) || n == 0x20 || n == 0x85 || n == 0xA0 || n == 0x1680 ||
    (0x2000 ≤ n && n ≤ 0x200A) || n == 0x2028 || n == 0x2029 || n == 0x202F || n == 0x205F ||
    n == 0x3000

def trimRight (cs : List Char) : List Char :=
  (cs.reverse.dropWhile isBlank).reverse

def trim (cs : List Char) : List Char :=
  trimRight (cs.dropWhile isBlank)

/-- A line read backwards, without the `\r` that stood before its end. -/
def dropReturn : List Char → List Char
  | '\r' :: r => r
  | r => r

/-- Lines of a text whose current line, read so far, is `acc` backwards. -/
def linesFrom (acc : List Char) : List Char → List (List Char)
  | [] => if acc.isEmpty then [] else [acc.reverse]
  | c :: r =>
    if c = '\n' then (dropReturn acc).reverse :: linesFrom [] r else linesFrom (c :: acc) r

def lines (cs : List Char) : List (List Char) :=
  linesFrom [] cs

def trimmed (s : String) : String :=
  String.ofList (trim s.toList)

end BlockProgram.Text
