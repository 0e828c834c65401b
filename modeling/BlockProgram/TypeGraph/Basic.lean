import BlockProgram.TypeName

/-!
# The type graph

Every value of a program has a node. Nodes that must have one type form a class: each node links
to another node of its class, and the root of the class carries its type. A root also records
the class of its elements and the class of the list it is an element of.

`root` finds the root of a class, `compress` links every node on the way straight to it.

Operations that always succeed are state transformers on graphs (`GraphM`); those that may meet two
types that cannot be one also carry that mismatch (`UnifyM`), together with the graph as it then is.
-/

namespace BlockProgram

/-- A node is known by its place in the graph. -/
abbrev NodeId := Nat

/-- One node. `type`, `container`, `element` and `isArray` speak for the class while the node is
its root. -/
structure Node where
  link : Option NodeId := none
  type : Option TypeName := none
  container : Option NodeId := none
  element : Option NodeId := none
  isArray : Bool := false
deriving Repr, DecidableEq, Inhabited

structure TypeGraph where
  nodes : Array Node
deriving Repr, DecidableEq, Inhabited

/-- Operations on a type graph that always succeed. -/
abbrev GraphM := StateM TypeGraph

/-- Operations on a type graph that may meet a mismatch. -/
abbrev UnifyM := EStateM Mismatch TypeGraph

/-- A step that always succeeds, among steps that may fail. -/
instance liftState {ε σ : Type} : MonadLift (StateM σ) (EStateM ε σ) where
  monadLift m s := let r := m s; .ok r.1 r.2

namespace TypeGraph

def size (g : TypeGraph) : Nat :=
  g.nodes.size

def node (g : TypeGraph) (i : NodeId) : Node :=
  g.nodes[i]?.getD {}

def update (g : TypeGraph) (i : NodeId) (f : Node → Node) : TypeGraph :=
  ⟨g.nodes.modify i f⟩

/-! ## Classes -/

/-- Follows at most `fuel` links. -/
def rootFrom (g : TypeGraph) : Nat → NodeId → NodeId
  | 0, i => i
  | fuel + 1, i =>
    match (g.node i).link with
    | none => i
    | some j => g.rootFrom fuel j

/-- The root of a node's class. Links never form a ring, so there are fewer than there are nodes. -/
def root (g : TypeGraph) (i : NodeId) : NodeId :=
  g.rootFrom g.size i

/-- Links the first `fuel` nodes on the way from `i` to `r`. -/
def compressFrom (r : NodeId) : Nat → TypeGraph → NodeId → TypeGraph
  | 0, g, _ => g
  | fuel + 1, g, i =>
    match (g.node i).link with
    | none => g
    | some j => compressFrom r fuel (g.update i ({ · with link := some r })) j

/-- Links every node on the way from `i` to its root straight to the root. -/
def compress (g : TypeGraph) (i : NodeId) : TypeGraph :=
  compressFrom (g.root i) g.size g i

/-- The root of a node's class; the way to it is compressed. -/
def find (i : NodeId) : GraphM NodeId :=
  fun g => (g.root i, g.compress i)

/-! ## New nodes and types -/

/-- Adds a node in a class of its own. -/
def addNode (type : Option TypeName) (isArray : Bool) : GraphM NodeId :=
  fun g => (g.size, ⟨g.nodes.push { type, isArray }⟩)

/-- The nodes that stand for the four primitive types. -/
def numberNode : NodeId := 0

def textNode : NodeId := 1

def booleanNode : NodeId := 2

def voidNode : NodeId := 3

/-- The graph that holds the primitive types. -/
def initial : TypeGraph :=
  ⟨#[{ type := some TypeName.number }, { type := some TypeName.text },
     { type := some TypeName.boolean }, { type := some TypeName.void }]⟩

/-- A node for a known type: the shared one of a primitive type, else a new one. -/
def ground (t : TypeName) : GraphM NodeId :=
  if t = TypeName.number then pure numberNode
  else if t = TypeName.text then pure textNode
  else if t = TypeName.boolean then pure booleanNode
  else if t = TypeName.void then pure voidNode
  else addNode (some t) (TypeName.isArray t)

/-- The type that a node's class carries. -/
def typeOf (i : NodeId) : GraphM (Option TypeName) := do
  let r ← find i
  return ((← get).node r).type

def isArrayNode (i : NodeId) : GraphM Bool := do
  let r ← find i
  let n := (← get).node r
  return n.isArray || n.type.any TypeName.isArray

def setType (i : NodeId) (t : TypeName) : GraphM Unit := do
  let r ← find i
  modify (·.update r ({ · with type := some t }))

end TypeGraph

end BlockProgram
