import BlockProgram.Emit.Input
import BlockProgram.Scope.Visit

/-!
# Code for uses of the host

* function                ↦ `space.name(a, b)`
* method                  ↦ `receiver.name(a, b)`
* property, by its mark   ↦ `receiver.name`, `receiver.name = a`, `receiver.name += a`
* registration            ↦ `space.name(a, function (x) { … })`
* image literal           ↦ the qualified name and the text of the literal in backquotes

A symbol with an alias is written as its alias.
-/

namespace BlockProgram

namespace Program

/-! ## Mutations -/

def emitOptionalInput (p : Program) (e : Emitter) (b : BlockRef) (input : String) :
    CompileM (Option Code) :=
  if (p.block b).hasInput input then some <$> p.emitInput e b input else pure none

/-- A property of an object pattern with the variable it is bound to. -/
def emitProperty (p : Program) (b : BlockRef) (property : String) : CompileM String := do
  let name ← p.variableName b property
  return if name = property then name else property ++ ": " ++ name

def commaList (items : List String) : String :=
  String.intercalate ", " items

/-- The code that a mutation adds to its block, if it adds any. -/
def emitMutation (p : Program) (e : Emitter) (b : BlockRef) : Mutation → CompileM (Option Code)
  | .rest count => do
    let inputs := ((List.range count).map Mutation.restInput).filter (p.block b).hasInput
    let args ← p.emitInputs e b inputs
    return if args.isEmpty then none else some (.commaSeparated args)
  | .destructuring properties => do
    let parts ← properties.mapM fun q => p.emitProperty b q.1
    return if parts.isEmpty then none
      else some (.ofText ("\x7b " ++ commaList parts ++ " \x7d"))
  | .defaultInstance isShown =>
    if isShown then p.emitOptionalInput e b Mutation.instanceInput else pure none

def emitRest (p : Program) (e : Emitter) (b : BlockRef) : CompileM (List Code) :=
  match (p.block b).mutation with
  | some (.rest count) => do return (← p.emitMutation e b (.rest count)).toList
  | _ => pure []

/-! ## Arguments -/

/-- The receiver of a block whose receiver is shown on demand. -/
def emitInstance (p : Program) (e : Emitter) (b : BlockRef) (symbol : Symbol) (input : String)
    (isShown : Bool) : CompileM Code := do
  match ← p.emitMutation e b (.defaultInstance isShown), symbol.defaultInstance with
  | some code, _ => return code
  | none, some name => return .ofText name
  | none, none => p.emitInput e b input

def emitReceiver (p : Program) (e : Emitter) (b : BlockRef) (symbol : Symbol) (input : String) :
    CompileM Code :=
  match (p.block b).mutation with
  | some (.defaultInstance isShown) => p.emitInstance e b symbol input isShown
  | _ => p.emitInput e b input

/-- The receiver and the arguments of a call. A missing optional argument ends them; any other
missing argument is a default literal. -/
def emitArguments (p : Program) (e : Emitter) (b : BlockRef) (symbol : Symbol) :
    List Parameter → CompileM (Option Code × List Code)
  | [] => return (none, [])
  | q :: r => do
    let block := p.block b
    let input := q.inputOn block.mutation
    if q.isReceiver then do
      let receiver ← p.emitReceiver e b symbol input
      let (later, args) ← p.emitArguments e b symbol r
      return (later.or (some receiver), args)
    else if block.hasInput input then do
      let arg ← p.emitInput e b input
      let (receiver, args) ← p.emitArguments e b symbol r
      return (receiver, arg :: args)
    else if q.isOptional then return (none, [])
    else do
      let arg := Code.ofText (TypeName.defaultLiteral q.checks.head?)
      let (receiver, args) ← p.emitArguments e b symbol r
      return (receiver, arg :: args)

/-! ## Handlers -/

/-- The parameters of a handler, or the object pattern in their place. -/
def handlerPattern (p : Program) (e : Emitter) (b : BlockRef) (names : List String) :
    CompileM String :=
  match (p.block b).mutation with
  | some (.destructuring properties) => do
    let pattern ← p.emitMutation e b (.destructuring properties)
    return (pattern.map Code.source).getD (commaList names)
  | _ => return commaList names

def emitHandler (p : Program) (e : Emitter) (b : BlockRef) (parameters : List HandlerParameter) :
    CompileM Code := do
  let block := p.block b
  let names ← parameters.mapM fun h => p.variableName b (handlerName block h)
  let pattern ← p.handlerPattern e b names
  let body ← p.emitBody e block.body?
  return .ofParts [.ofText ("function (" ++ pattern ++ ") "), body]

/-- The handler argument of a call, if its symbol takes one. -/
def emitHandlers (p : Program) (e : Emitter) (b : BlockRef) (symbol : Symbol) :
    CompileM (List Code) :=
  symbol.handler.toList.mapM (p.emitHandler e b)

/-! ## Calls -/

/-- Splits the name of a property from the mark that says how it is used. -/
def splitMark (name : String) : String × Option String :=
  let cs := name.toList
  match cs.dropWhile (· ≠ '@') with
  | [] => (name, none)
  | _ :: mark => (String.ofList (cs.takeWhile (· ≠ '@')), some (String.ofList mark))

/-- What is called or accessed. -/
def calleeCode (callee : Symbol) (name : String) : Option Code → Code
  | some receiver => receiver.followedBy ("." ++ name)
  | none => .ofText (if callee.nameSpace = "" then name else callee.nameSpace ++ "." ++ name)

/-- Uses what is called or accessed as the mark of its name says. -/
def useCode (mark : Option String) (target : Code) (args : List Code) : Code :=
  if mark = some "get" then target
  else if mark = some "set" then .infixed target "=" (args.head?.getD (.ofText "null"))
  else if mark = some "change" then .infixed target "+=" (args.head?.getD (.ofText "0"))
  else .ofParts [target, .ofText "(", .commaSeparated args, .ofText ")"]

/-- The symbol that a use of a symbol is written with. -/
def calleeOf (p : Program) (symbol : Symbol) : Symbol :=
  (symbol.aliasFor.bind p.surface.symbol?).getD symbol

def imageLiteral (callee : Symbol) (block : Block) : Code :=
  .ofText (callee.qualifiedName ++ "`" ++ (block.fields.head?.map (·.value)).getD "" ++ "`")

def emitUse (p : Program) (e : Emitter) (b : BlockRef) (symbol : Symbol) : CompileM Code := do
  let (receiver, args) ← p.emitArguments e b symbol symbol.parameters
  let rest ← p.emitRest e b
  let handlers ← p.emitHandlers e b symbol
  let callee := p.calleeOf symbol
  let (name, mark) := splitMark callee.name
  return useCode mark (calleeCode callee name receiver) (args ++ rest ++ handlers)

def emitHostCall (p : Program) (e : Emitter) (b : BlockRef) (name : String) : CompileM Code :=
  match p.surface.symbol? name with
  | none => p.fail b (.unknownSymbol name)
  | some symbol =>
    if symbol.isImageLiteral then return imageLiteral (p.calleeOf symbol) (p.block b)
    else p.emitUse e b symbol

end Program

end BlockProgram
