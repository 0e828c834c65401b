import BlockProgram.Digest
import BlockProgram.Emit.Statement
import BlockProgram.Sorted

/-!
# Top blocks of a program

A program has one start block, one loose chain of statements, and any number of containers: function
definitions and event registrations. Top blocks that repeat an earlier one are switched off, and so
are reporters that nothing uses. Two registrations repeat each other when their structural keys
agree: the same block type, fields and value inputs, whatever their handlers do.
-/

namespace BlockProgram

inductive TopRole where
  | start
  | looseChain
  | container
deriving Repr, DecidableEq, Inhabited

/-- The top blocks that make up the program and those that are switched off. -/
structure Selection where
  /-- The keys of the start block and the containers so far. -/
  keys : List String := []
  start : Option BlockRef := none
  looseChain : Option BlockRef := none
  containers : List BlockRef := []
  disabled : List BlockRef := []
deriving Repr, DecidableEq, Inhabited

namespace Program

/-! ## Roles -/

/-- The role of a top block; a reporter has none. -/
def role? (p : Program) (b : BlockRef) : Option TopRole :=
  if p.kind b = .onStart then some .start
  else if p.isContainer b then some .container
  else if (p.block b).hasOutput then none
  else some .looseChain

def symbolOf? (p : Program) (b : BlockRef) : Option Symbol :=
  match p.kind b with
  | .hostCall name => p.surface.symbol? name
  | _ => none

/-- Whether a registration may be repeated. -/
def allowsMultiple (p : Program) (b : BlockRef) : Bool :=
  (p.symbolOf? b).any (·.allowsMultiple)

def isAfterOnStart (p : Program) (b : BlockRef) : Bool :=
  (p.symbolOf? b).any (·.isAfterOnStart)

/-! ## Structural keys -/

def fieldKey (f : Field) : String :=
  " " ++ f.name ++ "=" ++ f.value

/-- The part of a key for a value input, given the key of what is plugged into it. -/
def inputKey (p : Program) (keyOf : BlockRef → String) (i : Input) : String :=
  " " ++ i.name ++ ":(" ++ ((i.target.filter p.workspace.isEnabled).map keyOf).getD "" ++ ")"

/-- The key of a block, given the keys of the blocks below it. -/
def keyStep (p : Program) (keyOf : BlockRef → String) (b : BlockRef) : String :=
  let block := p.block b
  if block.kind = .functionDefinition then "function " ++ block.functionName?.getD ""
  else if block.kind = .onStart then Workspace.onStartTag
  else
    block.tag ++ String.join (block.fields.map fieldKey) ++
      String.join (block.valueInputs.map (p.inputKey keyOf))

/-- The key of a block down to `fuel` levels. -/
def structuralKeyFrom (p : Program) : Nat → BlockRef → String
  | 0, _ => ""
  | fuel + 1, b => p.keyStep (p.structuralKeyFrom fuel) b

def structuralKey (p : Program) (b : BlockRef) : String :=
  p.structuralKeyFrom p.workspace.size b

/-! ## Selection -/

/-- Keeps a start block or a container. -/
def keep (s : Selection) (b : BlockRef) : TopRole → Selection
  | .start => { s with start := some b }
  | .looseChain => { s with looseChain := some b }
  | .container => { s with containers := s.containers ++ [b] }

def switchOff (s : Selection) (b : BlockRef) : Selection :=
  { s with disabled := s.disabled ++ [b] }

/-- Keeps a start block or a container unless one with its key is kept already. -/
def keepByKey (p : Program) (s : Selection) (b : BlockRef) (role : TopRole) : Selection :=
  let key := p.structuralKey b
  if p.allowsMultiple b then keep s b role
  else if key ∈ s.keys then switchOff s b
  else keep { s with keys := key :: s.keys } b role

/-- Decides about one top block. -/
def consider (p : Program) (s : Selection) (b : BlockRef) : Selection :=
  match p.role? b with
  | none => switchOff s b
  | some .looseChain => if s.looseChain.isNone then keep s b .looseChain else switchOff s b
  | some role => p.keepByKey s b role

/-- Decides about all enabled top blocks, in document order. -/
def selectTops (p : Program) : Selection :=
  (p.workspace.topBlocks.filter p.workspace.isEnabled).foldl p.consider {}

/-! ## Order -/

/-- Whether one container may stand before another: by the hashes of their keys, then those that
come after the start last, then in document order. -/
def precedes (p : Program) (hash : String → Nat) (a b : BlockRef) : Bool :=
  let ha := hash (p.structuralKey a)
  let hb := hash (p.structuralKey b)
  if ha = hb then
    if p.isAfterOnStart a = p.isAfterOnStart b then decide (a ≤ b) else p.isAfterOnStart b
  else decide (ha < hb)

/-- The blocks of a selection with their roles, in output order: the start, the loose chain, the
containers. -/
def arrange (p : Program) (hash : String → Nat) (s : Selection) : List (BlockRef × TopRole) :=
  s.start.toList.map (·, .start) ++ s.looseChain.toList.map (·, .looseChain) ++
    (Sorted.sort (p.precedes hash) s.containers).map (·, .container)

def tops (p : Program) (s : Selection) : List (BlockRef × TopRole) :=
  p.arrange Digest.hash16 s

end Program

end BlockProgram
