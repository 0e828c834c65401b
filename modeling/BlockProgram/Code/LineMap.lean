import BlockProgram.Code.Layout

/-!
# Lines of source map entries

The line range of each entry of a source map, lines counted from zero. The line of an offset is
searched for among the offsets at which the lines start.
-/

namespace BlockProgram

/-- The lines `first`, …, `last` were made from block `id`. -/
structure LineEntry where
  first : Nat
  last : Nat
  id : String
deriving Repr, DecidableEq, Inhabited

namespace LineMap

/-- The byte offsets right after the `\n`s of a text that begins at offset `start`. -/
def startsAfter (start : Nat) : List Char → List Nat
  | [] => []
  | c :: r =>
    let next := start + c.utf8Size
    if c = '\n' then next :: startsAfter next r else startsAfter next r

/-- The byte offsets at which the lines of a text start. -/
def lineStarts (source : String) : List Nat :=
  0 :: startsAfter 0 source.toList

/-- How a search in a sorted array ends: at the number, or where it would have to be inserted. -/
inductive SearchResult where
  | found (index : Nat)
  | missing (index : Nat)
deriving Repr, DecidableEq

/-- Searches for a number from index `lo` to index `hi`, halving the range at most `fuel` times. -/
def searchFrom (a : Array Nat) (x : Nat) : Nat → Nat → Nat → SearchResult
  | 0, lo, _ => .missing lo
  | fuel + 1, lo, hi =>
    if hi ≤ lo then .missing lo
    else
      let mid := (lo + hi) / 2
      let y := a[mid]?.getD 0
      if y = x then .found mid
      else if y < x then searchFrom a x fuel (mid + 1) hi
      else searchFrom a x fuel lo mid

def search (a : Array Nat) (x : Nat) : SearchResult :=
  searchFrom a x a.size 0 a.size

/-- The line that holds a byte offset: the one that starts there, or else the last one that starts
before it. -/
def lineOf (starts : Array Nat) (offset : Nat) : Nat :=
  match search starts offset with
  | .found line => line
  | .missing next => next - 1

/-- Offsets are words of 64 bits. -/
def offsetLimit : Nat := 18446744073709551616

/-- The last byte of an entry, or where it stands if it is empty. The sum is one of words: if it
does not fit, it goes on from zero. -/
def lastOffset (e : SourceEntry) : Nat :=
  max e.start ((e.start + (e.length - 1)) % offsetLimit)

def ofEntries (source : String) (entries : List SourceEntry) : List LineEntry :=
  let starts := (lineStarts source).toArray
  entries.map fun e => ⟨lineOf starts e.start, lineOf starts (lastOffset e), e.id⟩

end LineMap

end BlockProgram
