import BlockProgram.Block.Basic

/-!
# Workspaces

A workspace is a forest of blocks in document order with the variables of the program. A block is
the parent of the blocks plugged into its inputs and of the statement that follows it.

Walks along parents, along followers and down a tree visit no block twice, so the number of blocks
bounds them all.
-/

namespace BlockProgram

/-- A variable of the program, with its type if it has a declared one. -/
structure VariableModel where
  name : String
  type : Option String := none
deriving Repr, DecidableEq, Inhabited

structure Workspace where
  blocks : Array Block := #[]
  parents : Array (Option BlockRef) := #[]
  vars : List VariableModel := []
deriving Repr, DecidableEq, Inhabited

namespace Workspace

def size (ws : Workspace) : Nat :=
  ws.blocks.size

def block (ws : Workspace) (b : BlockRef) : Block :=
  ws.blocks[b]?.getD default

def kind (ws : Workspace) (b : BlockRef) : BlockKind :=
  (ws.block b).kind

def parent? (ws : Workspace) (b : BlockRef) : Option BlockRef :=
  (ws.parents[b]?).join

/-- All blocks in document order. -/
def refs (ws : Workspace) : List BlockRef :=
  List.range ws.size

def ref? (ws : Workspace) (id : String) : Option BlockRef :=
  ws.refs.find? fun b => (ws.block b).id == id

/-- Blocks without a parent, in document order. -/
def topBlocks (ws : Workspace) : List BlockRef :=
  ws.refs.filter fun b => (ws.parent? b).isNone

/-! ## Upwards -/

/-- Parent, parent's parent and so on, at most `fuel` of them. -/
def ancestorsFrom (ws : Workspace) : Nat → BlockRef → List BlockRef
  | 0, _ => []
  | fuel + 1, b =>
    match ws.parent? b with
    | none => []
    | some p => p :: ws.ancestorsFrom fuel p

def ancestors (ws : Workspace) (b : BlockRef) : List BlockRef :=
  ws.ancestorsFrom ws.size b

/-- Whether the blocks that surround `b`, among its `fuel` nearest ancestors, are enabled. A parent
surrounds its child unless the child is the statement that follows it. -/
def surroundingsEnabled (ws : Workspace) : Nat → BlockRef → Bool
  | 0, _ => true
  | fuel + 1, b =>
    match ws.parent? b with
    | none => true
    | some p =>
      ((ws.block p).next == some b || (ws.block p).enabled) && ws.surroundingsEnabled fuel p

/-- A block is enabled when it and all blocks that surround it are. -/
def isEnabled (ws : Workspace) (b : BlockRef) : Bool :=
  (ws.block b).enabled && ws.surroundingsEnabled ws.size b

/-! ## Downwards -/

/-- A statement and its followers, at most `fuel` of them. -/
def chainFrom (ws : Workspace) : Nat → Option BlockRef → List BlockRef
  | 0, _ => []
  | _, none => []
  | fuel + 1, some b => b :: ws.chainFrom fuel (ws.block b).next

def chain (ws : Workspace) (first : Option BlockRef) : List BlockRef :=
  ws.chainFrom ws.size first

/-- The blocks right below a block: those in its inputs, then its follower. -/
def children (ws : Workspace) (b : BlockRef) : List BlockRef :=
  (ws.block b).targets ++ (ws.block b).next.toList

/-- Takes blocks off a stack and puts their children on it, for at most `fuel` blocks. -/
def walk (ws : Workspace) : Nat → List BlockRef → List BlockRef
  | 0, _ => []
  | _, [] => []
  | fuel + 1, b :: stack => b :: ws.walk fuel (ws.children b ++ stack)

/-- A block and all blocks below it, its followers included, parents before children. -/
def descendants (ws : Workspace) (b : BlockRef) : List BlockRef :=
  ws.walk ws.size [b]

/-- A block and all blocks below its inputs, without its followers. -/
def subtree (ws : Workspace) (b : BlockRef) : List BlockRef :=
  b :: (ws.block b).targets.flatMap ws.descendants

/-! ## User functions -/

/-- The first definition of a user function. -/
def functionDefinition? (ws : Workspace) (name : String) : Option BlockRef :=
  ws.refs.find? fun b =>
    ws.kind b == .functionDefinition && (ws.block b).functionName? == some name

end Workspace

end BlockProgram
