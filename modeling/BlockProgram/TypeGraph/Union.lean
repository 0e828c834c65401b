import BlockProgram.TypeGraph.Basic

/-!
# Joining classes

`union p q` makes the classes of `p` and `q` one. If both are lists with known elements the element
classes are joined too, and if both are elements of lists, so are those lists. Before anything
changes, `checkUnion` walks over all pairs of classes that would be joined and compares their types.
-/

namespace BlockProgram.TypeGraph

/-- The common type of two classes, given by their roots. -/
def unifyRoots (a b : NodeId) : UnifyM (Option TypeName) := fun g =>
  match TypeName.unify (g.node a).type (g.node b).type with
  | .ok t => .ok t g
  | .error e => .error e g

/-! ## Checking -/

/-- Pairs of roots that a check has compared. -/
abbrev Pairs := List (NodeId × NodeId)

/-- Checks two classes if both are recorded. -/
def checkBoth (check : Pairs → NodeId → NodeId → UnifyM Pairs) (seen : Pairs) :
    Option NodeId → Option NodeId → UnifyM Pairs
  | some x, some y => check seen x y
  | _, _ => pure seen

/-- Compares the types of all pairs of classes that joining `p` and `q` would join, except the pairs
in `seen`, and returns the pairs seen by then. Each level of the walk sees a new pair. -/
def checkUnion : Nat → Pairs → NodeId → NodeId → UnifyM Pairs
  | 0, seen, _, _ => pure seen
  | fuel + 1, seen, p, q => do
    let a ← find p
    let b ← find q
    if a = b ∨ (a, b) ∈ seen then
      pure seen
    else
      let _ ← unifyRoots a b
      let g ← get
      let seen ← checkBoth (checkUnion fuel) ((a, b) :: seen) (g.node a).element (g.node b).element
      let g ← get
      checkBoth (checkUnion fuel) seen (g.node a).container (g.node b).container

/-! ## Merging -/

/-- Brings the element class of `a` to that of `b`: joined by `join` if both have one. -/
def mergeElements (join : NodeId → NodeId → UnifyM Unit) (a b : NodeId) : UnifyM Unit := do
  let g ← get
  match (g.node a).element, (g.node b).element with
  | some x, some y => do
    set (g.update a ({ · with element := none }))
    join x y
  | some x, none => set (g.update b ({ · with element := some x }))
  | none, _ => pure ()

/-- Brings the list class of `a` to that of `b`: joined by `join` if both have one. -/
def mergeContainers (join : NodeId → NodeId → UnifyM Unit) (a b : NodeId) : UnifyM Unit := do
  let g ← get
  match (g.node a).container, (g.node b).container with
  | some x, some y => do
    set (g.update a ({ · with container := none }))
    join x y
  | some x, none => set (g.update b ({ · with container := some x }))
  | none, _ => pure ()

/-- Links root `a` to root `b`, which takes the common type. -/
def linkRoots (a b : NodeId) : UnifyM Unit := do
  let t ← unifyRoots a b
  let g ← get
  let isArray := (g.node a).isArray || (g.node b).isArray
  set <| (g.update a ({ · with link := some b, type := none })).update b
    ({ · with type := t, isArray := isArray })

/-- Joins the classes of `p` and `q`: first their elements, then their lists, then themselves. Along
nested joins the number of roots, of known lists and of known elements falls lexicographically. -/
def merge : Nat → NodeId → NodeId → UnifyM Unit
  | 0, _, _ => pure ()
  | fuel + 1, p, q => do
    let a ← find p
    let b ← find q
    if a = b then
      pure ()
    else
      let _ ← unifyRoots a b
      mergeElements (merge fuel) a b
      mergeContainers (merge fuel) a b
      let a ← find a
      let b ← find b
      if a = b then pure () else linkRoots a b

def union (p q : NodeId) : UnifyM Unit := do
  let n := (← get).size
  let _ ← checkUnion (n * n + 1) [] p q
  merge ((n + 1) * (n + 1) * (n + 1)) p q

end BlockProgram.TypeGraph
