import BlockProgram.Document.Surface
import BlockProgram.Json.Writer

/-!
# Reading workspaces

A workspace document is an object with the list `blocks` and, if there are any, the list
`variables`. Field values that are not text are kept as compact JSON.
-/

namespace BlockProgram.Document

def fieldText : Option Json → String
  | some (.str s) => s
  | some .null | none => ""
  | some v => v.compact

def readField (block : String) (v : Json) : Except LoadError Field := do
  let name ← require (.fieldWithoutName block) (v.string? "name")
  return ⟨name, fieldText (v.get? "value")⟩

def readInputKind (input block kind : String) : Except LoadError InputKind :=
  if kind = "value" then .ok .value
  else if kind = "statement" then .ok .statement
  else .error (.unknownInputKind input block kind)

def readInput (block : String) (v : Json) :
    Except LoadError (String × InputKind × Option String) := do
  let name ← require (.inputWithoutName block) (v.string? "name")
  let kind ← readInputKind name block ((v.string? "kind").getD "value")
  return (name, kind, v.string? "block")

def readArgument (block : String) (v : Json) : Except LoadError FunctionArg := do
  let id ← require (.argumentWithoutId block) (v.string? "id")
  return ⟨id, (v.string? "name").getD id, (v.string? "type").getD ""⟩

/-- A mutation, if there is one; a mutation that is `null` is refused as well. -/
def readMutation (block : String) : Option Json → Except LoadError (Option Mutation)
  | none => .ok none
  | some v =>
    match Mutation.ofJson v with
    | .ok m => .ok (some m)
    | .error e => .error (.badMutation block e)

def readBlock (v : Json) : Except LoadError BlockSpec := do
  let id ← require .blockWithoutId (v.string? "id")
  let tag ← require (.blockWithoutType id) (v.string? "type")
  let fields ← (v.items "fields").mapM (readField id)
  let inputs ← (v.items "inputs").mapM (readInput id)
  let arguments ← (v.items "arguments").mapM (readArgument id)
  let mutation ← readMutation id (v.get? "mutation")
  return {
    id, tag, enabled := (v.bool? "enabled").getD true, shadow := v.isSet "shadow", fields, inputs
    next := v.string? "next", mutation
    output := ((v.get? "output").bind Json.asArray?).map strings, arguments }

def readVariable (v : Json) : Except LoadError VariableModel := do
  let name ← require .variableWithoutName (v.string? "name")
  return ⟨name, v.string? "type"⟩

def readWorkspace (surface : Surface) (v : Json) : Except LoadError Workspace := do
  let blocks ← require .noBlocks ((v.get? "blocks").bind Json.asArray?)
  let specs ← blocks.mapM readBlock
  let vars ← (v.items "variables").mapM readVariable
  match Workspace.build surface specs vars with
  | .ok ws => return ws
  | .error e => throw (.notAForest e)

end BlockProgram.Document
