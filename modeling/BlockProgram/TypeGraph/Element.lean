import BlockProgram.TypeGraph.Union

/-!
# Lists and their elements

`linkElement` records that one class is the element class of another. `resolve` reads these records
in both directions: an element of a `T[]` has type `T`, and a list of `T` has type `T[]`. What it
finds out is kept in the graph.
-/

namespace BlockProgram.TypeGraph

/-! ## Recording -/

/-- Makes `c` an element class of root `p`: joined with the known one, or recorded if the type of
`p` is open. -/
def recordElement (p c : NodeId) : UnifyM Unit := do
  let g ← get
  match (g.node p).element with
  | some known => union known c
  | none =>
    if TypeName.isOpen (g.node p).type then set (g.update p ({ · with element := some c }))
    else pure ()

/-- Makes `p` a list class of root `c`: joined with the known one, or recorded if `c` has no
type. -/
def recordContainer (p c : NodeId) : UnifyM Unit := do
  let g ← get
  match (g.node c).container with
  | some known => union known p
  | none =>
    if (g.node c).type.isNone then set (g.update c ({ · with container := some p }))
    else pure ()

/-- Remembers that root `p` is a list if its type says so. -/
def markArray (p : NodeId) : UnifyM Unit := do
  let g ← get
  if (g.node p).type.any TypeName.isArray then set (g.update p ({ · with isArray := true }))
  else pure ()

/-- Records that `element` is the element class of `container`. -/
def linkElement (container element : NodeId) : UnifyM Unit := do
  let p ← find container
  let c ← find element
  if p = c then
    pure ()
  else
    recordElement p c
    let p ← find p
    let c ← find c
    recordContainer p c
    let p ← find p
    markArray p

/-! ## Resolving -/

/-- The item type that the list at `i` gives its elements. -/
def elementTypeAt (g : TypeGraph) (i : NodeId) : Option TypeName :=
  (g.node i).type.bind TypeName.element?

/-- The list type that the element at `i` gives its list. -/
def listTypeAt (g : TypeGraph) (i : NodeId) : Option TypeName :=
  ((g.node i).type.filter (· ≠ TypeName.array)).map TypeName.listOf

/-- Resolves a recorded class and reads a type off it. -/
def resolveRecorded (resolve : List NodeId → NodeId → GraphM (NodeId × List NodeId))
    (readType : TypeGraph → NodeId → Option TypeName) (visited : List NodeId) :
    Option NodeId → GraphM (Option TypeName × List NodeId)
  | none => pure (none, visited)
  | some i => do
    let (r, visited) ← resolve visited i
    return (readType (← get) r, visited)

/-- Settles the type of root `t`, of open type, from its list, or else from its elements. -/
def settle (resolve : List NodeId → NodeId → GraphM (NodeId × List NodeId))
    (visited : List NodeId) (t : NodeId) : GraphM (List NodeId) := do
  let (type, visited) ←
    resolveRecorded resolve elementTypeAt visited ((← get).node t).container
  match type with
  | some type => do
    modify (·.update t ({ · with type := some type }))
    return visited
  | none => do
    let (type, visited) ← resolveRecorded resolve listTypeAt visited ((← get).node t).element
    match type with
    | some type => do
      modify (·.update t ({ · with type := some type, isArray := true }))
      return visited
    | none => return visited

/-- Settles the type of the class of `i` if it is open. Classes in `visited` are taken as they are.
Returns the root and the classes visited by then. -/
def resolveFrom : Nat → List NodeId → NodeId → GraphM (NodeId × List NodeId)
  | 0, visited, i => do return (← find i, visited)
  | fuel + 1, visited, i => do
    let t ← find i
    if t ∈ visited then
      return (t, visited)
    else if TypeName.isOpen ((← get).node t).type then
      return (t, ← settle (resolveFrom fuel) (t :: visited) t)
    else
      return (t, t :: visited)

/-- The root of a class, its type settled as far as lists and elements tell. Each level of the
search visits a new class. -/
def resolve (i : NodeId) : GraphM NodeId := do
  let n := (← get).size
  return (← resolveFrom (n + 1) [] i).1

def resolvedType (i : NodeId) : GraphM (Option TypeName) := do
  let r ← resolve i
  return ((← get).node r).type

end BlockProgram.TypeGraph
