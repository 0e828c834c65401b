import BlockProgram.Json.Value
import BlockProgram.Table

/-!
# Mutations

A mutation changes the shape of a host call block: further arguments, a handler parameter taken
apart into properties, or a receiver that is shown only on demand.
-/

namespace BlockProgram

/-- How the shape of a block was changed. -/
inductive Mutation where
  /-- Up to `count` further arguments. -/
  | rest (count : Nat)
  /-- The handler parameter is an object pattern with these properties and their types. -/
  | destructuring (properties : List (String × String))
  /-- The receiver is an input of its own, or the default instance. -/
  | defaultInstance (isShown : Bool)
deriving Repr, DecidableEq, Inhabited

inductive MutationError where
  | missingKind
  | missingPropertyName
  | unknownKind (kind : String)
deriving Repr, DecidableEq

def MutationError.message : MutationError → String
  | .missingKind => "Mutation is missing 'kind'."
  | .missingPropertyName => "Destructured property is missing 'name'."
  | .unknownKind kind => "Unknown mutation kind '" ++ kind ++ "'."

namespace Mutation

/-- The input of the further argument with number `index`. -/
def restInput (index : Nat) : String :=
  "REST" ++ toString index

/-- The input of a shown receiver. -/
def instanceInput : String := "__instance__"

/-- The variables that a mutation declares, with their types. -/
def declaredVariables? : Mutation → Option (List (String × String))
  | .destructuring properties => some (Table.ofList properties).entries
  | _ => none

/-- A property with its type, `any` if none is given. -/
def readProperty (v : Json) : Except MutationError (String × String) :=
  match v.string? "name" with
  | some name => .ok (name, (v.string? "type").getD "any")
  | none => .error .missingPropertyName

def ofJson (v : Json) : Except MutationError Mutation :=
  match v.string? "kind" with
  | none => .error .missingKind
  | some kind =>
    if kind = "rest" then .ok (.rest (((v.get? "count").bind Json.asNat?).getD 0))
    else if kind = "destructuring" then do
      return .destructuring (← (v.items "properties").mapM readProperty)
    else if kind = "defaultInstance" then .ok (.defaultInstance (v.isSet "showInstance"))
    else .error (.unknownKind kind)

def toJson : Mutation → Json
  | .rest count => .object [("kind", .str "rest"), ("count", .int count)]
  | .destructuring properties =>
    let items := properties.map fun p => Json.object [("name", .str p.1), ("type", .str p.2)]
    .object [("kind", .str "destructuring"), ("properties", .arr items)]
  | .defaultInstance isShown =>
    .object [("kind", .str "defaultInstance"), ("showInstance", .bool isShown)]

end Mutation

end BlockProgram
