import BlockProgram.Json.Value
import BlockProgram.Number.Decimal

/-!
# Numbers in JSON text

An integer that fits 64 bits, with or without sign, stays an integer; `-0` does not count as one.
Any other number is a fraction: as many leading digits as fit 64 bits are a significand, which is
rounded to binary64 and then scaled by a power of ten, each step rounding once. A fraction that
leaves the range of binary64 is refused.
-/

namespace BlockProgram.Json

def maxSignificand : Nat := 18446744073709551615

/-- The greatest exponent that is kept exactly. -/
def maxExponentMark : Nat := 2147483647

/-- Takes leading digits into a significand while it fits; the rest of the digits is left. -/
def fillSignificand (n : Nat) : List Char → Nat × List Char
  | [] => (n, [])
  | c :: r =>
    let n' := 10 * n + (c.toNat - '0'.toNat)
    if n' ≤ maxSignificand then fillSignificand n' r else (n, c :: r)

/-- The power of ten that scaling uses, rounded to binary64. -/
def powerOfTen (k : Nat) : Binary64 :=
  .ofDecimal false 1 k

/-- Divides by `10 ^ k`, in steps of at most `10 ^ 308`. -/
def scaleDown (x : Binary64) : Nat → Nat → Binary64
  | 0, _ => x
  | fuel + 1, k =>
    if k ≤ 308 then x.div (powerOfTen k)
    else if x = .zero false then x
    else scaleDown (x.div (powerOfTen 308)) fuel (k - 308)

/-- A significand times a power of ten, unless that is too large. -/
def scale (significand : Nat) (e : Int) : Option Binary64 :=
  let x := Binary64.ofNat significand
  if e < 0 then
    -- from here on down every value is zero
    let k := min (-e).toNat 2000
    some (scaleDown x 8 k)
  else if 308 < e then if x = .zero false then some x else none
  else
    match x.mul (powerOfTen e.toNat) with
    | .finite s m f => some (.finite s m f)
    | _ => none

def signed (negative : Bool) (x : Binary64) : Binary64 :=
  if negative then x.neg else x

/-- A fraction from its digits before and after the point and its exponent. Digits before the point
that no longer fit count into the exponent, such digits after it are dropped. -/
def fraction (negative : Bool) (whole part : List Char) (e : Int) : Option Binary64 :=
  let (n, left) := fillSignificand 0 whole
  let (n, left') := fillSignificand n part
  let used := part.length - left'.length
  let e10 : Int := e + left.length - used
  (scale n e10).map (signed negative)

/-- Exponent digits; beyond 31 bits only the sign of the exponent matters. -/
def exponentValue (negative : Bool) (digits : List Char) : Int :=
  let n := min (Decimal.digitsValue digits) (maxExponentMark + 1)
  if negative then -(n : Int) else n

/-- The exponent that is the rest of a number. -/
def exponentMark : List Char → Option Int
  | [] => some 0
  | c :: r =>
    if c = 'e' ∨ c = 'E' then
      let (negative, digits) := Decimal.readSign r
      if digits.isEmpty || !digits.all Char.isDigit then none
      else some (exponentValue negative digits)
    else none

/-- An integer from its digits, if it fits. -/
def integer? (negative : Bool) (whole : List Char) : Option Int :=
  let n := Decimal.digitsValue whole
  if negative then
    if 0 < n ∧ n ≤ 9223372036854775808 then some (-(n : Int)) else none
  else if n ≤ maxSignificand then some n else none

def readNumber (word : List Char) : Option Json := do
  let (negative, cs) :=
    match word with
    | '-' :: r => (true, r)
    | r => (false, r)
  let whole := cs.takeWhile Char.isDigit
  let rest := cs.dropWhile Char.isDigit
  if whole.isEmpty || (1 < whole.length && whole.head? == some '0') then none
  else if rest.isEmpty then
    match integer? negative whole with
    | some n => some (.int n)
    | none => (fraction negative whole [] 0).map .float
  else
    match rest with
    | '.' :: r =>
      let part := r.takeWhile Char.isDigit
      if part.isEmpty then none
      else
        let e ← exponentMark (r.dropWhile Char.isDigit)
        (fraction negative whole part e).map .float
    | r =>
      let e ← exponentMark r
      (fraction negative whole [] e).map .float

end BlockProgram.Json
