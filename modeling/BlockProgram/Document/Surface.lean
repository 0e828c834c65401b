import BlockProgram.Document.Error
import BlockProgram.Json.Value

/-!
# Reading host surfaces

A surface document is an object with the lists `symbols`, `enums` and `kinds` and the object
`supertypes`, each of which may be missing.
-/

namespace BlockProgram.Document

/-- The value, or the error that it is missing. -/
def require {α : Type} (e : LoadError) : Option α → Except LoadError α
  | some a => .ok a
  | none => .error e

def strings (items : List Json) : List String :=
  items.filterMap Json.asString?

def readParameter (symbol : String) (v : Json) : Except LoadError Parameter := do
  let name ← require (.parameterWithoutName symbol) (v.string? "name")
  return {
    name, type := (v.string? "type").getD "any", isOptional := v.isSet "optional"
    isReceiver := v.isSet "isReceiver", accepted := strings (v.items "check") }

def readHandlerParameter (v : Json) : HandlerParameter :=
  ⟨(v.string? "name").getD "arg", (v.string? "type").getD "any"⟩

def readSymbol (v : Json) : Except LoadError Symbol := do
  let name ← require .symbolWithoutName (v.string? "name")
  let symbol : Symbol := {
    nameSpace := (v.string? "namespace").getD "", name, result := (v.string? "retType").getD "void"
    blockType := v.string? "blockId" }
  let parameters ← (v.items "parameters").mapM (readParameter symbol.qualifiedName)
  let attributes := (v.get? "attributes").getD .null
  return { symbol with
    parameters
    handler := ((v.get? "handler").bind Json.asArray?).map (·.map readHandlerParameter)
    isExtensionMethod := attributes.isSet "isExtensionMethod"
    isImageLiteral := attributes.isSet "imageLiteral"
    isAfterOnStart := attributes.isSet "afterOnStart"
    allowsMultiple := attributes.isSet "allowMultiple"
    isHandlerStatement := attributes.isSet "handlerStatement"
    aliasFor := attributes.string? "alias"
    defaultInstance := attributes.string? "defaultInstance" }

def readSupertypes (v : Json) : List TypeName :=
  strings (v.asArray?.getD [])

def readEnum (v : Json) : Except LoadError EnumInfo := do
  let name ← require .enumWithoutName (v.string? "name")
  return { name, isBitmask := v.isSet "isBitmask", isHash := v.isSet "isHash" }

def readKind (v : Json) : Except LoadError KindInfo := do
  let name ← require .kindWithoutName (v.string? "name")
  return {
    name, createFunction := (v.string? "createFunctionName").getD (name ++ ".create")
    initialMembers := strings (v.items "initialMembers") }

def readSurface (v : Json) : Except LoadError Surface := do
  let symbols ← (v.items "symbols").mapM readSymbol
  let supertypes := ((v.get? "supertypes").bind Json.asObject?).getD []
  let enums ← (v.items "enums").mapM readEnum
  let kinds ← (v.items "kinds").mapM readKind
  let surface := symbols.foldl Surface.addSymbol {}
  return { surface with
    supertypes := Table.ofList (supertypes.map fun e => (e.1, readSupertypes e.2)), enums, kinds }

end BlockProgram.Document
