/-!
# Insertion-ordered tables

A finite map that remembers the order in which its keys came. Writing a key that is present keeps
its place; erasing closes the gap.
-/

namespace BlockProgram

/-- A finite map in insertion order. -/
structure Table (κ ν : Type) where
  entries : List (κ × ν) := []
deriving Repr, DecidableEq, Inhabited

namespace Table

variable {κ ν : Type} [DecidableEq κ]

def empty : Table κ ν := {}

def get? (t : Table κ ν) (key : κ) : Option ν :=
  t.entries.lookup key

def contains (t : Table κ ν) (key : κ) : Bool :=
  (t.get? key).isSome

/-- Replaces the value of the first entry for `key`, or adds one at the end. -/
def insertEntry (key : κ) (value : ν) : List (κ × ν) → List (κ × ν)
  | [] => [(key, value)]
  | e :: r => if e.1 = key then (key, value) :: r else e :: insertEntry key value r

def insert (t : Table κ ν) (key : κ) (value : ν) : Table κ ν :=
  ⟨insertEntry key value t.entries⟩

def erase (t : Table κ ν) (key : κ) : Table κ ν :=
  ⟨t.entries.filter fun e => e.1 ≠ key⟩

/-- Applies the entries of a list one after another. -/
def ofList (l : List (κ × ν)) : Table κ ν :=
  l.foldl (fun t e => t.insert e.1 e.2) empty

omit [DecidableEq κ] in
def keys (t : Table κ ν) : List κ :=
  t.entries.map Prod.fst

omit [DecidableEq κ] in
def values (t : Table κ ν) : List ν :=
  t.entries.map Prod.snd

end Table

end BlockProgram
