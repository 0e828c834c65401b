import BlockProgram.Number.Decimal

/-!
# Number literals of the generated program

A value that lies within 1e-9 of an integer is written as that integer, kept within 64 bits.
Any other value is written with six places, ties to even, without trailing zeros.
-/

namespace BlockProgram.NumberLiteral

/-- How near to an integer a value counts as that integer. -/
def tolerance : Binary64 :=
  .ofDecimal false 1 (-9)

/-- The distance `num / den` is less than the tolerance. -/
def isNear (num den : Nat) : Bool :=
  match tolerance with
  | .finite _ m e => num * Binary64.magnitudeDen e < Binary64.magnitudeNum m e * den
  | _ => false

/-- The integer `± n`, kept within the range of 64-bit integers. -/
def clamp (negative : Bool) (n : Nat) : Int :=
  if negative then -((min n (Nat.pow 2 63) : Nat) : Int)
  else ((min n (Nat.pow 2 63 - 1) : Nat) : Int)

def sixDigits (n : Nat) : List Char :=
  let ds := Nat.toDigits 10 n
  List.replicate (6 - ds.length) '0' ++ ds

/-- A number of millionths without the zeros, and the point, that say nothing. -/
def millionths (n : Nat) : List Char :=
  let fraction := (sixDigits (n % 1000000)).reverse.dropWhile (· == '0')
  let whole := Nat.toDigits 10 (n / 1000000)
  if fraction.isEmpty then whole else whole ++ '.' :: fraction.reverse

def text : Binary64 → String
  | .nan => "NaN"
  | .infinite negative => if negative then "-inf" else "inf"
  | .finite negative m e =>
    let num := Binary64.magnitudeNum m e
    let den := Binary64.magnitudeDen e
    let nearest := (2 * num + den) / (2 * den)
    if isNear (max num (nearest * den) - min num (nearest * den)) den then
      toString (clamp negative nearest)
    else
      let sign := if negative then ['-'] else []
      String.ofList (sign ++ millionths (Binary64.roundHalfEven (num * 1000000) den))

def isLiteralChar (c : Char) : Bool :=
  c.isDigit || c == '.' || c == '-' || c == '+' || c == 'e' || c == 'E'

/-- Text made of digits, points, signs and exponent marks that reads as a number. -/
def isLiteral (s : String) : Bool :=
  match s.toList with
  | [] => false
  | c :: r =>
    (c.isDigit || c == '-' || c == '.') &&
      (c :: r).all isLiteralChar &&
      (Decimal.read s).isSome

end BlockProgram.NumberLiteral
