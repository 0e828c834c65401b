/-!
# Type names

A type is known by its text: a primitive, a host type, the bare marker `Array` for a list of
anything, or a list type `T[]`. Two names unify when they are equal or when one of them is the
marker and the other a list; an unknown type unifies with everything.
-/

namespace BlockProgram

abbrev TypeName := String

/-- Two types that cannot be one. -/
structure Mismatch where
  left : TypeName
  right : TypeName
deriving Repr, DecidableEq

def Mismatch.message (m : Mismatch) : String :=
  "cannot mix " ++ m.left ++ " with " ++ m.right

namespace TypeName

def number : TypeName := "number"

def text : TypeName := "string"

def boolean : TypeName := "boolean"

def void : TypeName := "void"

def any : TypeName := "any"

/-- The marker for a list of anything. -/
def array : TypeName := "Array"

/-- A type variable of the host surface. -/
def generic : TypeName := "T"

def listOf (t : TypeName) : TypeName :=
  t ++ "[]"

/-- The item type of a list type; the marker has none. -/
def element? (t : TypeName) : Option TypeName :=
  match t.toList.reverse with
  | ']' :: '[' :: r => some (String.ofList r.reverse)
  | _ => none

/-- List types and the marker. -/
def isArray (t : TypeName) : Bool :=
  t == array || (element? t).isSome

/-- The type that is not settled: unknown, or the marker. -/
def isOpen : Option TypeName → Bool
  | none => true
  | some t => t == array

/-- The common type of two, if they have one. -/
def unify : Option TypeName → Option TypeName → Except Mismatch (Option TypeName)
  | none, t => .ok t
  | t, none => .ok t
  | some a, some b =>
    if a = array ∧ isArray b then .ok (some b)
    else if b = array ∧ isArray a then .ok (some a)
    else if a = b then .ok (some a)
    else .error ⟨a, b⟩

/-- What stands in a hole of the given type. -/
def defaultLiteral : Option TypeName → String
  | none => "null"
  | some t =>
    if t = number then "0"
    else if t = boolean then "false"
    else if t = text then "\"\""
    else if t = array then "[0]"
    else if isArray t then "[]"
    else "null"

end TypeName

end BlockProgram
