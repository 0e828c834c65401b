import BlockProgram.Proofs.TypeGraph.Atomicity

/-!
# The operations of a type graph against a clock

The operations of a type graph count down a bound and stop when it is used up, so they always end,
and one cannot tell from the outside whether they ended by themselves. Here the same recursions run
against a clock: each level and each round takes one tick, and a recursion that has not ended when
the clock runs out yields nothing (`none`). A recursion that would go on for ever yields nothing for
any clock.

`Ends m m' g` says that run in `g`, the recursion `m` does end, with the value and the graph that
the bounded operation `m'` gives; `EndsUnify` says the same of operations that may meet a mismatch,
and of the mismatch.
-/

namespace BlockProgram.TypeGraph

/-- Recursions on a type graph that may run out of time. -/
abbrev SearchM := StateT TypeGraph Option

/-- Recursions on a type graph that may run out of time, and that may meet a mismatch. -/
abbrev SearchUnifyM := ExceptT Mismatch SearchM

/-- What a step that may fail yields, and the graph in which it ends. -/
def outcome {α : Type} : EStateM.Result Mismatch TypeGraph α → Except Mismatch α × TypeGraph
  | .ok a h => (.ok a, h)
  | .error e h => (.error e, h)

namespace Clocked

/-- A step without any recursion. -/
def step {α : Type} (m : UnifyM α) : SearchUnifyM α :=
  fun g => some (outcome (m g))

def timeout {α : Type} : SearchUnifyM α :=
  fun _ => none

/-! ## Finding roots -/

/-- Follows links as long as there are any. -/
def root : Nat → TypeGraph → NodeId → Option NodeId
  | 0, _, _ => none
  | clock + 1, g, i =>
    match (g.node i).link with
    | none => some i
    | some j => root clock g j

/-- Links every node on the way from `i` to `r`. -/
def compress (r : NodeId) : Nat → TypeGraph → NodeId → Option TypeGraph
  | 0, _, _ => none
  | clock + 1, g, i =>
    match (g.node i).link with
    | none => some g
    | some j => compress r clock (g.update i ({ · with link := some r })) j

def find (clock : Nat) (i : NodeId) : SearchM NodeId := fun g => do
  let r ← root clock g i
  return (r, ← compress r clock g i)

/-! ## Joining classes -/

def checkBoth (check : Pairs → NodeId → NodeId → SearchUnifyM Pairs) (seen : Pairs) :
    Option NodeId → Option NodeId → SearchUnifyM Pairs
  | some x, some y => check seen x y
  | _, _ => pure seen

/-- Compares the types of all pairs of classes that joining `p` and `q` would join, except the pairs
in `seen`. -/
def checkUnion : Nat → Pairs → NodeId → NodeId → SearchUnifyM Pairs
  | 0, _, _, _ => timeout
  | clock + 1, seen, p, q => do
    let a ← find clock p
    let b ← find clock q
    if a = b || seen.contains (a, b) then
      pure seen
    else
      let _ ← step (unifyRoots a b)
      let g ← get
      let seen ← checkBoth (checkUnion clock) ((a, b) :: seen) (g.node a).element (g.node b).element
      let g ← get
      checkBoth (checkUnion clock) seen (g.node a).container (g.node b).container

def mergeElements (join : NodeId → NodeId → SearchUnifyM Unit) (a b : NodeId) :
    SearchUnifyM Unit := do
  let g ← get
  match (g.node a).element, (g.node b).element with
  | some x, some y => do
    set (g.update a ({ · with element := none }))
    join x y
  | some x, none => set (g.update b ({ · with element := some x }))
  | none, _ => pure ()

def mergeContainers (join : NodeId → NodeId → SearchUnifyM Unit) (a b : NodeId) :
    SearchUnifyM Unit := do
  let g ← get
  match (g.node a).container, (g.node b).container with
  | some x, some y => do
    set (g.update a ({ · with container := none }))
    join x y
  | some x, none => set (g.update b ({ · with container := some x }))
  | none, _ => pure ()

def linkFound (clock : Nat) (a b : NodeId) : SearchUnifyM Unit := do
  let a ← find clock a
  let b ← find clock b
  if a = b then pure () else step (linkRoots a b)

/-- Joins the classes of `p` and `q`: first their elements, then their lists, then themselves. -/
def merge : Nat → NodeId → NodeId → SearchUnifyM Unit
  | 0, _, _ => timeout
  | clock + 1, p, q => do
    let a ← find clock p
    let b ← find clock q
    if a = b then
      pure ()
    else
      let _ ← step (unifyRoots a b)
      mergeElements (merge clock) a b
      mergeContainers (merge clock) a b
      linkFound clock a b

def union (clock : Nat) (p q : NodeId) : SearchUnifyM Unit := do
  let _ ← checkUnion clock [] p q
  merge clock p q

/-! ## Lists and elements -/

def recordElement (clock : Nat) (p c : NodeId) : SearchUnifyM Unit := do
  let g ← get
  match (g.node p).element with
  | some known => union clock known c
  | none =>
    if TypeName.isOpen (g.node p).type then set (g.update p ({ · with element := some c }))
    else pure ()

def recordContainer (clock : Nat) (p c : NodeId) : SearchUnifyM Unit := do
  let g ← get
  match (g.node c).container with
  | some known => union clock known p
  | none =>
    if (g.node c).type.isNone then set (g.update c ({ · with container := some p }))
    else pure ()

def linkElement (clock : Nat) (container element : NodeId) : SearchUnifyM Unit := do
  let p ← find clock container
  let c ← find clock element
  if p = c then
    pure ()
  else
    recordElement clock p c
    let p ← find clock p
    let c ← find clock c
    recordContainer clock p c
    let p ← find clock p
    step (markArray p)

def resolveRecorded (resolve : List NodeId → NodeId → SearchM (NodeId × List NodeId))
    (readType : TypeGraph → NodeId → Option TypeName) (visited : List NodeId) :
    Option NodeId → SearchM (Option TypeName × List NodeId)
  | none => pure (none, visited)
  | some i => do
    let (r, visited) ← resolve visited i
    return (readType (← get) r, visited)

def settle (resolve : List NodeId → NodeId → SearchM (NodeId × List NodeId))
    (visited : List NodeId) (t : NodeId) : SearchM (List NodeId) := do
  let (type, visited) ← resolveRecorded resolve elementTypeAt visited ((← get).node t).container
  match type with
  | some type => do
    modify (·.update t ({ · with type := some type }))
    return visited
  | none => do
    let (type, visited) ← resolveRecorded resolve listTypeAt visited ((← get).node t).element
    match type with
    | some type => do
      modify (·.update t ({ · with type := some type, isArray := true }))
      return visited
    | none => return visited

/-- Settles the type of the class of `i` if it is open and not in `visited`. -/
def resolveFrom : Nat → List NodeId → NodeId → SearchM (NodeId × List NodeId)
  | 0, _, _ => fun _ => none
  | clock + 1, visited, i => do
    let t ← find clock i
    if t ∈ visited then
      return (t, visited)
    else if TypeName.isOpen ((← get).node t).type then
      return (t, ← settle (resolveFrom clock) (t :: visited) t)
    else
      return (t, t :: visited)

def resolve (clock : Nat) (i : NodeId) : SearchM NodeId := do
  return (← resolveFrom clock [] i).1

/-! ## Types -/

def typeOf (clock : Nat) (i : NodeId) : SearchM (Option TypeName) := do
  let r ← find clock i
  return ((← get).node r).type

def isArrayNode (clock : Nat) (i : NodeId) : SearchM Bool := do
  let r ← find clock i
  let n := (← get).node r
  return n.isArray || n.type.any TypeName.isArray

def setType (clock : Nat) (i : NodeId) (t : TypeName) : SearchM Unit := do
  let r ← find clock i
  modify (·.update r ({ · with type := some t }))

end Clocked

/-! ## Recursions that end -/

section Ends

variable {α β : Type} {g : TypeGraph}

/-- Run in `g`, recursion `m` ends as `m'` does. -/
def Ends (m : SearchM α) (m' : GraphM α) (g : TypeGraph) : Prop :=
  m g = some (m' g)

/-- Run in `g`, recursion `m` ends as `m'` does, and fails as it does. -/
def EndsUnify (m : SearchUnifyM α) (m' : UnifyM α) (g : TypeGraph) : Prop :=
  m g = some (outcome (m' g))

theorem Ends.pure (a : α) : Ends (Pure.pure a) (Pure.pure a) g :=
  rfl

theorem Ends.bind {m : SearchM α} {m' : GraphM α} {f : α → SearchM β} {f' : α → GraphM β}
    (h : Ends m m' g) (hf : Ends (f (m' g).1) (f' (m' g).1) (m' g).2) :
    Ends (m >>= f) (m' >>= f') g := by
  show (m g).bind (fun r => f r.1 r.2) = some ((m' >>= f') g)
  rw [h]
  exact hf

theorem Ends.bind_get {f : TypeGraph → SearchM β} {f' : TypeGraph → GraphM β}
    (h : Ends (f g) (f' g) g) : Ends (get >>= f) (get >>= f') g :=
  h

/-- The bounded operation may look at the graph for a bound. -/
theorem Ends.of_get {m : SearchM α} {f' : TypeGraph → GraphM α} (h : Ends m (f' g) g) :
    Ends m (get >>= f') g :=
  h

theorem EndsUnify.pure (a : α) : EndsUnify (Pure.pure a) (Pure.pure a) g :=
  rfl

theorem EndsUnify.step (m : UnifyM α) : EndsUnify (Clocked.step m) m g :=
  rfl

theorem EndsUnify.of_set (k : TypeGraph) : EndsUnify (set k) (set k) g :=
  rfl

theorem EndsUnify.bind {m : SearchUnifyM α} {m' : UnifyM α} {f : α → SearchUnifyM β}
    {f' : α → UnifyM β} (h : EndsUnify m m' g)
    (hf : ∀ a k, m' g = .ok a k → EndsUnify (f a) (f' a) k) :
    EndsUnify (m >>= f) (m' >>= f') g := by
  show (m g).bind (fun r => ExceptT.bindCont f r.1 r.2) = some (outcome ((m' >>= f') g))
  rw [h]
  cases hr : m' g with
  | ok a k =>
    rw [run_bind_of_ok hr]
    exact hf a k hr
  | error e k =>
    rw [run_bind_of_error hr]
    rfl

theorem EndsUnify.bind_get {f : TypeGraph → SearchUnifyM β} {f' : TypeGraph → UnifyM β}
    (h : EndsUnify (f g) (f' g) g) : EndsUnify (get >>= f) (get >>= f') g :=
  h

theorem EndsUnify.of_get {m : SearchUnifyM α} {f' : TypeGraph → UnifyM α}
    (h : EndsUnify m (f' g) g) : EndsUnify m (get >>= f') g :=
  h

theorem EndsUnify.bind_set {f : PUnit → SearchUnifyM β} {f' : PUnit → UnifyM β} (k : TypeGraph)
    (h : EndsUnify (f ⟨⟩) (f' ⟨⟩) k) : EndsUnify (set k >>= f) (set k >>= f') g :=
  h

theorem EndsUnify.bind_lift {m : SearchM α} {m' : GraphM α} {f : α → SearchUnifyM β}
    {f' : α → UnifyM β} (h : Ends m m' g) (hf : EndsUnify (f (m' g).1) (f' (m' g).1) (m' g).2) :
    EndsUnify (liftM m >>= f) (liftM m' >>= f') g := by
  show ((m g).bind fun r => some (Except.ok r.1, r.2)).bind
    (fun r => ExceptT.bindCont f r.1 r.2) = some (outcome ((liftM m' >>= f') g))
  rw [h]
  exact hf

end Ends

end BlockProgram.TypeGraph
