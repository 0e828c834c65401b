import BlockProgram.Code.Node
import BlockProgram.Digest
import BlockProgram.Host.Surface
import BlockProgram.Sorted
import BlockProgram.Workspace.Basic

/-!
# Enums and kinds of a program

A program adds members to the enums and kinds of the host. A member of an enum is a variable whose
name is its value followed by its name, `3Left`. The declaration lists the members by value and
leaves out values that follow from the line before.
-/

namespace BlockProgram

structure EnumMember where
  value : Int
  name : String
deriving Repr, DecidableEq, Inhabited

namespace EnumMember

/-- Whether a value fits in 64 bits with a sign. -/
def fits (value : Int) : Bool :=
  decide (-9223372036854775808 ≤ value) && decide (value ≤ 9223372036854775807)

/-- The value that the whole text is, with a sign or without. -/
def value? (text : String) : Option Int := do
  let (negative, size) ← Decimal.integer? text
  let value : Int := if negative then -(size : Int) else size
  if fits value then some value else none

/-- The number of characters in front of a name: digits, and a minus sign in the first place. -/
def valueLength (encoded : String) : Nat :=
  (encoded.toList.zipIdx.takeWhile fun (c, i) => c.isDigit || (i == 0 && c == '-')).length

/-- Reads a value and the name behind it. The characters of a value are single bytes, so that the
name starts at the byte with their number. -/
def decode (encoded : String) : Option EnumMember := do
  let nameStart ← encoded.pos? ⟨valueLength encoded⟩
  let value ← value? (encoded.sliceTo nameStart).copy
  let name := (encoded.sliceFrom nameStart).copy
  if name.isEmpty then none else some ⟨value, name⟩

/-- By value, then by name. -/
def precedes (a b : EnumMember) : Bool :=
  if a.value = b.value then decide (a.name ≤ b.name) else decide (a.value < b.value)

def isPowerOfTwo (value : Int) : Bool :=
  decide (0 < value) && Nat.pow 2 value.toNat.log2 == value.toNat

/-- The line of a member; `previous` is the value in the line before. Values have 64 bits and
ascend. Only after the largest one has `previous + 1` no 64 bits, and there the next value can only
be the largest again: whichever word stands for the sum, it is not that value. -/
def line (info : EnumInfo) (previous : Option Int) (m : EnumMember) : String :=
  if info.isHash then m.name ++ " = " ++ toString (Digest.hash16 m.name) ++ ","
  else if info.isBitmask && isPowerOfTwo m.value then
    m.name ++ " = 1 << " ++ toString m.value.toNat.log2 ++ ","
  else if !info.isBitmask && previous == some (m.value - 1) then m.name ++ ","
  else m.name ++ " = " ++ toString m.value ++ ","

def linesFrom (info : EnumInfo) (previous : Option Int) : List EnumMember → List String
  | [] => []
  | m :: r => line info previous m :: linesFrom info (some m.value) r

def lines (info : EnumInfo) (members : List EnumMember) : List String :=
  linesFrom info none (Sorted.sort precedes members)

end EnumMember

namespace EnumInfo

/-- The members that a program adds to an enum. -/
def members (info : EnumInfo) (vars : List VariableModel) : List EnumMember :=
  (vars.filter (·.type == some info.name)).filterMap fun v => EnumMember.decode v.name

def declaration (info : EnumInfo) (members : List EnumMember) : Code :=
  .ofParts
    [.ofText ("enum " ++ info.name ++ " "),
     .braces ((EnumMember.lines info members).map Code.ofText)]

/-- The declaration of an enum that a program adds to, none if it adds nothing. -/
def declaration? (info : EnumInfo) (vars : List VariableModel) : Option Code :=
  let members := info.members vars
  if members.isEmpty then none else some (info.declaration members)

end EnumInfo

namespace KindInfo

/-- The members that a program adds to a kind, each once. -/
def members (kind : KindInfo) (vars : List VariableModel) : List String :=
  (((vars.filter (·.type == some kind.name)).map (·.name)).filter fun name =>
    !kind.initialMembers.contains name).eraseDups

def memberLine (kind : KindInfo) (name : String) : Code :=
  .statement [.ofText ("export const " ++ name ++ " = " ++ kind.createFunction ++ "()")]

/-- The namespace with the members that a program adds. -/
def declaration (kind : KindInfo) (members : List String) : Code :=
  .ofParts [.ofText ("namespace " ++ kind.name ++ " "), .braces (members.map kind.memberLine)]

/-- The namespace of a kind that a program adds to, none if it adds nothing. -/
def declaration? (kind : KindInfo) (vars : List VariableModel) : Option Code :=
  let members := kind.members vars
  if members.isEmpty then none else some (kind.declaration members)

end KindInfo

end BlockProgram
