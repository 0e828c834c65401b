import BlockProgram.TypeName

/-!
# Host symbols

What a program may call: functions, methods and properties of the host, with their parameters and,
for event registrations and the like, the parameters of the handler that comes last.
-/

namespace BlockProgram

structure Parameter where
  name : String
  type : TypeName
  isOptional : Bool := false
  /-- The value that a method is called on. -/
  isReceiver : Bool := false
  /-- Acceptable types, the preferred one first; none means just `type`. -/
  accepted : List TypeName := []
deriving Repr, DecidableEq, Inhabited

/-- The acceptable types of a parameter, the preferred one first. -/
def Parameter.checks (p : Parameter) : List TypeName :=
  if p.accepted.isEmpty then [p.type] else p.accepted

structure HandlerParameter where
  name : String
  type : TypeName
deriving Repr, DecidableEq, Inhabited

structure Symbol where
  nameSpace : String
  name : String
  parameters : List Parameter := []
  result : TypeName
  /-- Present when the last argument is a handler. -/
  handler : Option (List HandlerParameter) := none
  /-- The block type that stands for the symbol. -/
  blockType : Option String := none
  /-- Called on its first parameter. -/
  isExtensionMethod : Bool := false
  /-- Written as a literal between backquotes. -/
  isImageLiteral : Bool := false
  /-- The qualified name of the symbol that is called instead. -/
  aliasFor : Option String := none
  /-- The receiver that is used when none is shown. -/
  defaultInstance : Option String := none
  isAfterOnStart : Bool := false
  allowsMultiple : Bool := false
  /-- Takes a handler but stands among statements. -/
  isHandlerStatement : Bool := false
deriving Repr, DecidableEq, Inhabited

namespace Symbol

def qualifiedName (s : Symbol) : String :=
  if s.nameSpace = "" then s.name else s.nameSpace ++ "." ++ s.name

def receiver? (s : Symbol) : Option Parameter :=
  s.parameters.find? (·.isReceiver)

def hasHandler (s : Symbol) : Bool :=
  s.handler.isSome

/-- Event registrations stand at the top of a program. -/
def isEvent (s : Symbol) : Bool :=
  s.hasHandler && !s.isHandlerStatement

/-- Marks the first parameter of an extension method as its receiver if no parameter is marked. -/
def completed (s : Symbol) : Symbol :=
  if s.isExtensionMethod && s.receiver?.isNone then
    match s.parameters with
    | [] => s
    | p :: r => { s with parameters := { p with isReceiver := true } :: r }
  else s

end Symbol

end BlockProgram
