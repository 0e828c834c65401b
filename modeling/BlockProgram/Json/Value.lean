import BlockProgram.Number.Binary64

/-!
# JSON values

Integers and fractions are told apart. The fields of an object are in the order of their keys, each
key once.
-/

namespace BlockProgram

inductive Json where
  | null
  | bool (value : Bool)
  | int (value : Int)
  | float (value : Binary64)
  | str (value : String)
  | arr (items : List Json)
  | obj (fields : List (String × Json))
deriving Repr, Inhabited

namespace Json

/-- Puts a field at its place in the order of the keys, in place of an equal key. -/
def insertField (key : String) (value : Json) : List (String × Json) → List (String × Json)
  | [] => [(key, value)]
  | e :: r =>
    if key < e.1 then (key, value) :: e :: r
    else if key = e.1 then (key, value) :: r
    else e :: insertField key value r

/-- The object with the given fields; of equal keys the last one counts. -/
def object (fields : List (String × Json)) : Json :=
  .obj (fields.foldl (fun acc e => insertField e.1 e.2 acc) [])

def get? (key : String) : Json → Option Json
  | .obj fields => fields.lookup key
  | _ => none

def asString? : Json → Option String
  | .str s => some s
  | _ => none

def asBool? : Json → Option Bool
  | .bool b => some b
  | _ => none

/-- A non-negative integer that was written as one. -/
def asNat? : Json → Option Nat
  | .int n => if 0 ≤ n then some n.toNat else none
  | _ => none

def asArray? : Json → Option (List Json)
  | .arr items => some items
  | _ => none

def asObject? : Json → Option (List (String × Json))
  | .obj fields => some fields
  | _ => none

def string? (v : Json) (key : String) : Option String :=
  (v.get? key).bind asString?

def bool? (v : Json) (key : String) : Option Bool :=
  (v.get? key).bind asBool?

def isSet (v : Json) (key : String) : Bool :=
  (v.bool? key).getD false

/-- The items of the list in field `key`; none if there is no list. -/
def items (v : Json) (key : String) : List Json :=
  ((v.get? key).bind asArray?).getD []

end Json

end BlockProgram
