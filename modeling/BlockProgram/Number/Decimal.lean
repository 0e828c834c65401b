import BlockProgram.Number.Binary64

/-!
# Reading decimal numbers

A number is an optional sign and either one of the words `inf`, `infinity`, `nan` in any case, or
decimal digits with at most one point and at least one digit, then an optional exponent. The value
is the binary64 number nearest to what is written.
-/

namespace BlockProgram.Decimal

def digitsValue (cs : List Char) : Nat :=
  cs.foldl (fun n c => 10 * n + (c.toNat - '0'.toNat)) 0

/-- A leading sign, and what follows it. -/
def readSign : List Char → Bool × List Char
  | '-' :: r => (true, r)
  | '+' :: r => (false, r)
  | r => (false, r)

/-- The integer that the whole text is: an optional sign and decimal digits. -/
def integer? (text : String) : Option (Bool × Nat) :=
  let (negative, cs) := readSign text.toList
  if cs.isEmpty || !cs.all Char.isDigit then none else some (negative, digitsValue cs)

/-- The value of an exponent that is the whole rest of the text; no text is exponent zero. -/
def readExponent : List Char → Option Int
  | [] => some 0
  | c :: r =>
    if c = 'e' ∨ c = 'E' then
      let (negative, digits) := readSign r
      if digits.isEmpty || !digits.all Char.isDigit then none
      else
        let n : Int := digitsValue digits
        some (if negative then -n else n)
    else none

/-- The digits after a point, if one comes next. -/
def splitFraction : List Char → List Char × List Char
  | '.' :: r => (r.takeWhile Char.isDigit, r.dropWhile Char.isDigit)
  | r => ([], r)

/-- Reads an unsigned decimal number that is the whole text. -/
def readUnsigned (negative : Bool) (cs : List Char) : Option Binary64 := do
  let whole := cs.takeWhile Char.isDigit
  let (fraction, rest) := splitFraction (cs.dropWhile Char.isDigit)
  if whole.isEmpty && fraction.isEmpty then none
  else
    let e ← readExponent rest
    return Binary64.ofDecimal negative (digitsValue (whole ++ fraction)) (e - fraction.length)

def read (text : String) : Option Binary64 :=
  let (negative, cs) := readSign text.toList
  let word := cs.map Char.toLower
  if word = ['i', 'n', 'f'] ∨ word = ['i', 'n', 'f', 'i', 'n', 'i', 't', 'y'] then
    some (.infinite negative)
  else if word = ['n', 'a', 'n'] then some .nan
  else readUnsigned negative cs

end BlockProgram.Decimal
