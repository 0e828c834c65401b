import BlockProgram.Number.Binary64

/-!
# Shortest decimal text

`shortest` gives the fewest decimal digits that read back as a given value, and among these the
digits nearest to it. `text` writes them: positionally from 1e-5 up to 1e16, with a fraction in any
case, and with an exponent outside.
-/

namespace BlockProgram.Shortest

/-- `⌊log₁₀ (num / den)⌋` for positive `num` and `den`. -/
def floorLog10 (num den : Nat) : Int :=
  if den ≤ num then ((Nat.toDigits 10 (num / den)).length : Int) - 1
  else -((Nat.toDigits 10 ((den + num - 1) / num - 1)).length : Int)

/-- The numbers that read as `mantissa · 2 ^ exponent`, from `low` to `high` in units of
`2 ^ (exponent - 2)`, the ends counting when `closed`. -/
structure Interval where
  low : Nat
  high : Nat
  closed : Bool

def interval (m : Nat) (e : Int) : Interval :=
  { low := if m = Nat.pow 2 52 ∧ e ≠ Binary64.minExponent then 4 * m - 1 else 4 * m - 2
    high := 4 * m + 2
    closed := m % 2 = 0 }

/-- The interval holds `num / den`, in its own unit. -/
def Interval.holds (i : Interval) (num den : Nat) : Bool :=
  if i.closed then i.low * den ≤ num && num ≤ i.high * den
  else i.low * den < num && num < i.high * den

/-- The best multiple of `10 ^ k` that reads as the value, if one of the two next to it does. -/
def onGrid (m : Nat) (e k : Int) : Option Nat :=
  -- a candidate `c · 10 ^ k` is `c · scaleNum / scaleDen` units of `2 ^ (e - 2)`
  let scaleNum := Nat.pow 10 k.toNat * Binary64.twoPow (2 - e)
  let scaleDen := Nat.pow 10 (-k).toNat * Binary64.twoPow (e - 2)
  let i := interval m e
  let below := 4 * m * scaleDen / scaleNum
  let above := below + 1
  let fits (c : Nat) : Bool := i.holds (c * scaleNum) scaleDen
  let down := 4 * m * scaleDen - below * scaleNum
  let up := above * scaleNum - 4 * m * scaleDen
  if fits below && fits above then
    some (if down < up ∨ (down = up ∧ below % 2 = 0) then below else above)
  else if fits below then some below
  else if fits above then some above
  else none

/-- Tries grids of `n`, `n + 1`, … digits, `fuel` of them. -/
def search (m : Nat) (e top : Int) : Nat → Nat → Nat × Int
  | 0, _ => (m, 0)
  | fuel + 1, n =>
    let k := top - n + 1
    match onGrid m e k with
    | some c => (c, k)
    | none => search m e top fuel (n + 1)

/-- The digits of the shortest decimal of a positive value, and the exponent of the last one.
Seventeen digits always suffice. -/
def shortest (m : Nat) (e : Int) : Nat × Int :=
  search m e (floorLog10 (Binary64.magnitudeNum m e) (Binary64.magnitudeDen e)) 17 1

/-- Drops the zeros at the end of the digits and counts them into the exponent. -/
def stripZeros : List Char → Int → List Char × Int
  | [], k => ([], k)
  | c :: r, k => if c = '0' then stripZeros r (k + 1) else ((c :: r).reverse, k)

/-- The digits `ds`, the last of which counts `10 ^ k`, as text. -/
def layout (ds : List Char) (k : Int) : List Char :=
  let top := k + ds.length - 1
  if -5 ≤ top ∧ top < 16 then
    if 0 ≤ k then ds ++ List.replicate k.toNat '0' ++ ['.', '0']
    else if top < 0 then ['0', '.'] ++ List.replicate (-top - 1).toNat '0' ++ ds
    else ds.take (top + 1).toNat ++ '.' :: ds.drop (top + 1).toNat
  else
    let fraction := ds.drop 1
    let mark := if top < 0 then ['e', '-'] else ['e', '+']
    ds.take 1 ++ (if fraction.isEmpty then [] else '.' :: fraction) ++ mark ++
      Nat.toDigits 10 top.natAbs

def text : Binary64 → String
  | .nan => "null"
  | .infinite _ => "null"
  | .finite negative m e =>
    let sign := if negative then ['-'] else []
    if m = 0 then String.ofList (sign ++ ['0', '.', '0'])
    else
      let (n, k) := shortest m e
      let (ds, k) := stripZeros (Nat.toDigits 10 n).reverse k
      String.ofList (sign ++ layout ds k)

end BlockProgram.Shortest
