import BlockProgram.Host.Symbol
import BlockProgram.Sorted
import BlockProgram.Table

/-!
# Host surfaces

The host as a program sees it: symbols by qualified name and by the block type that stands for
them, the declared supertypes of host types, and the enums and kinds that a program extends.
-/

namespace BlockProgram

/-- An enum whose members are variables of the program. -/
structure EnumInfo where
  name : String
  isBitmask : Bool := false
  isHash : Bool := false
deriving Repr, DecidableEq, Inhabited

/-- A namespace of constants, those of the program's variables made by a function of the host. -/
structure KindInfo where
  name : String
  createFunction : String
  initialMembers : List String := []
deriving Repr, DecidableEq, Inhabited

structure Surface where
  symbols : Table String Symbol := {}
  /-- The qualified name of the symbol that a block type stands for. -/
  byBlockType : Table String String := {}
  supertypes : Table TypeName (List TypeName) := {}
  enums : List EnumInfo := []
  kinds : List KindInfo := []
deriving Repr, DecidableEq, Inhabited

namespace Surface

/-- Registers what a block type stands for, if the symbol has one. -/
def indexBlockType (t : Table String String) (s : Symbol) : Table String String :=
  match s.blockType with
  | some b => t.insert b s.qualifiedName
  | none => t

def addSymbol (s : Surface) (symbol : Symbol) : Surface :=
  let symbol := symbol.completed
  { s with
    symbols := s.symbols.insert symbol.qualifiedName symbol
    byBlockType := indexBlockType s.byBlockType symbol }

def symbol? (s : Surface) (qualifiedName : String) : Option Symbol :=
  s.symbols.get? qualifiedName

def symbolForBlock? (s : Surface) (blockType : String) : Option Symbol :=
  (s.byBlockType.get? blockType).bind s.symbol?

/-- The namespaces of the symbols, in order and without repetition. -/
def namespaces (s : Surface) : List String :=
  (Sorted.texts ((s.symbols.values.map (·.nameSpace)).filter (· ≠ ""))).eraseDups

def enum? (s : Surface) (name : String) : Option EnumInfo :=
  s.enums.find? (·.name == name)

/-! ## Supertypes -/

def parents (s : Surface) (t : TypeName) : List TypeName :=
  (s.supertypes.get? t).getD []

/-- Adds the types that are not `t` and not found yet to what is found, and lists them. -/
def discover (t : TypeName) (found : List TypeName) : List TypeName → List TypeName × List TypeName
  | [] => (found, [])
  | p :: r =>
    if p = t ∨ p ∈ found then discover t found r
    else
      let (found, new) := discover t (found ++ [p]) r
      (found, p :: new)

/-- Takes types off a queue and adds their supertypes, to the queue and to what is found. -/
def climb (s : Surface) (t : TypeName) : Nat → List TypeName → List TypeName → List TypeName
  | 0, _, found => found
  | _ + 1, [], found => found
  | fuel + 1, c :: queue, found =>
    let (found, new) := discover t found (s.parents c)
    s.climb t fuel (queue ++ new) found

/-- The supertypes of a type, the nearest first and without the type itself. Every type that enters
the queue is `t` or stands in the table once at least. -/
def supertypesOf (s : Surface) (t : TypeName) : List TypeName :=
  s.climb t (s.supertypes.values.flatten.length + 1) [t] []

/-! ## Output shapes -/

/-- The types a block for the symbol may be used as; none for a statement. A list type is written
as the marker and the type, a generic result as a type variable. -/
def outputShape (s : Surface) (symbol : Symbol) : Option (List TypeName) :=
  let r := symbol.result
  if r = TypeName.void then none
  else if r = TypeName.generic ∨ r = TypeName.any then some [TypeName.generic]
  else if r ∈ [TypeName.array, "any[]", "T[]"] then some [TypeName.array]
  else if TypeName.isArray r then some [TypeName.array, r]
  else some (r :: s.supertypesOf r)

end Surface

end BlockProgram
