/-!
# Binary64 numbers

A finite value is `± mantissa · 2 ^ exponent` with `mantissa < 2 ^ 53` and `exponent ≥ -1074`. Its
mantissa is at least `2 ^ 52` unless the exponent is the least one, so every value has one form.

`ofRatio` rounds an exact quotient to the nearest value, a tie to the even mantissa. Reading a
decimal, products and quotients are all that one rounding of an exact result.
-/

namespace BlockProgram

inductive Binary64 where
  | nan
  | infinite (negative : Bool)
  | finite (negative : Bool) (mantissa : Nat) (exponent : Int)
deriving Repr, DecidableEq, Inhabited

namespace Binary64

def minExponent : Int := -1074

def maxExponent : Int := 971

def zero (negative : Bool) : Binary64 :=
  .finite negative 0 minExponent

/-- `2 ^ e`, and one for negative `e`. -/
def twoPow (e : Int) : Nat :=
  Nat.pow 2 e.toNat

/-- The quotient rounded to the nearest integer, a tie to the even one. -/
def roundHalfEven (num den : Nat) : Nat :=
  let q := num / den
  let r := num % den
  if den < 2 * r ∨ (2 * r = den ∧ q % 2 = 1) then q + 1 else q

/-- `⌊log₂ (num / den)⌋` for positive `num` and `den`. -/
def floorLog2 (num den : Nat) : Int :=
  let l : Int := (num.log2 : Int) - den.log2
  if den * twoPow l ≤ num * twoPow (-l) then l else l - 1

/-- The value nearest to `num / den`, with `den` positive. -/
def ofRatio (negative : Bool) (num den : Nat) : Binary64 :=
  if num = 0 then zero negative
  else
    let e := max (floorLog2 num den - 52) minExponent
    let m := roundHalfEven (num * twoPow (-e)) (den * twoPow e)
    let (m, e) := if m = Nat.pow 2 53 then (Nat.pow 2 52, e + 1) else (m, e)
    if maxExponent < e then .infinite negative else .finite negative m e

def ofNat (n : Nat) : Binary64 :=
  ofRatio false n 1

/-- The value nearest to `± m · 10 ^ e`. Beyond `10 ^ 400` and below `2 ^ -1100` the answer is known
without computing the power. -/
def ofDecimal (negative : Bool) (m : Nat) (e : Int) : Binary64 :=
  if m = 0 then zero negative
  else if 400 < e then .infinite negative
  else if 0 ≤ e then ofRatio negative (m * Nat.pow 10 e.toNat) 1
  else if m.log2 + 1101 ≤ 3 * (-e).toNat then zero negative
  else ofRatio negative m (Nat.pow 10 (-e).toNat)

/-- The numerator of a finite value's magnitude over `magnitudeDen`. -/
def magnitudeNum (m : Nat) (e : Int) : Nat :=
  m * twoPow e

def magnitudeDen (e : Int) : Nat :=
  twoPow (-e)

/-- The rounded product of two finite values. -/
def mul : Binary64 → Binary64 → Binary64
  | .finite s m e, .finite t n f =>
    ofRatio (s != t) (magnitudeNum m e * magnitudeNum n f) (magnitudeDen e * magnitudeDen f)
  | _, _ => .nan

/-- The rounded quotient of two finite values, the divisor not zero. -/
def div : Binary64 → Binary64 → Binary64
  | .finite s m e, .finite t n f =>
    ofRatio (s != t) (magnitudeNum m e * magnitudeDen f) (magnitudeDen e * magnitudeNum n f)
  | _, _ => .nan

def neg : Binary64 → Binary64
  | .nan => .nan
  | .infinite s => .infinite (!s)
  | .finite s m e => .finite (!s) m e

end Binary64

end BlockProgram
