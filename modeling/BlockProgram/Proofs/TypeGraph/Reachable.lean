import BlockProgram.Proofs.TypeGraph.Typed

/-!
# Graphs in use

`Reachable` graphs come from the initial one by any sequence of operations on nodes that exist,
whether these succeed or fail. All of them are well-formed (`Reachable.wellFormed`).
-/

namespace BlockProgram.TypeGraph

inductive Operation where
  | addNode (type : Option TypeName) (isArray : Bool)
  | ground (t : TypeName)
  | find (i : NodeId)
  | typeOf (i : NodeId)
  | union (p q : NodeId)
  | linkElement (container element : NodeId)
  | resolve (i : NodeId)

/-- The graph in which a step ends, whether it fails or not. -/
def finalGraph {α : Type} : EStateM.Result Mismatch TypeGraph α → TypeGraph
  | .ok _ h => h
  | .error _ h => h

namespace Operation

def nodes : Operation → List NodeId
  | addNode _ _ | ground _ => []
  | find i | typeOf i | resolve i => [i]
  | union p q => [p, q]
  | linkElement l e => [l, e]

/-- The graph after an operation. -/
def apply : Operation → TypeGraph → TypeGraph
  | addNode type isArray, g => (TypeGraph.addNode type isArray g).2
  | ground t, g => (TypeGraph.ground t g).2
  | find i, g => (TypeGraph.find i g).2
  | typeOf i, g => (TypeGraph.typeOf i g).2
  | union p q, g => finalGraph (TypeGraph.union p q g)
  | linkElement l e, g => finalGraph (TypeGraph.linkElement l e g)
  | resolve i, g => (TypeGraph.resolve i g).2

end Operation

/-- The graphs that come from the initial one by operations on nodes that exist. -/
inductive Reachable : TypeGraph → Prop where
  | initial : Reachable initial
  | step {g : TypeGraph} (op : Operation) (hg : Reachable g) (hop : ∀ i ∈ op.nodes, i < g.size) :
      Reachable (op.apply g)

variable {g : TypeGraph}

/-- Operations one after another, if each is about nodes that exist by then. -/
def Operation.run? : List Operation → TypeGraph → Option TypeGraph
  | [], g => some g
  | op :: ops, g => if op.nodes.all (· < g.size) then run? ops (op.apply g) else none

theorem Reachable.of_run {h : TypeGraph} (ops : List Operation) (hg : Reachable g)
    (hrun : Operation.run? ops g = some h) : Reachable h := by
  induction ops generalizing g with
  | nil =>
    cases hrun
    exact hg
  | cons op ops ih =>
    unfold Operation.run? at hrun
    split at hrun
    · next hop => exact ih (hg.step op (by simpa using hop)) hrun
    · cases hrun

theorem changes_finalGraph {α : Type} {m : UnifyM α} {Q : α → TypeGraph → Prop}
    (hm : Moves Changes m g Q) : Changes g (finalGraph (m g)) := by
  cases hr : m g with
  | ok a h => exact (hm.of_ok hr).1
  | error e h => exact hm.of_error hr

theorem Operation.changes (op : Operation) (hg : g.WellFormed) (hop : ∀ i ∈ op.nodes, i < g.size) :
    Changes g (op.apply g) := by
  cases op with
  | addNode type isArray => exact (Change.push g type isArray).single
  | ground t => exact changes_ground t
  | find i => exact (Change.compress g i).single
  | typeOf i => exact (Change.compress g i).single
  | union p q =>
    exact changes_finalGraph (moves_union hg p q (hop p (by simp [nodes]))
      (hop q (by simp [nodes])))
  | linkElement l e =>
    exact changes_finalGraph
      (moves_linkElement hg l e (hop l (by simp [nodes])) (hop e (by simp [nodes])))
  | resolve i => exact (runs_resolve hg i).1.changes

theorem initial_wellFormed : initial.WellFormed := by
  have hnode : ∀ i, (initial.node i).link = none ∧ (initial.node i).element = none ∧
      (initial.node i).container = none := by
    intro i
    match i with
    | 0 | 1 | 2 | 3 => exact ⟨rfl, rfl, rfl⟩
    | n + 4 =>
      rw [node_eq_default initial (n + 4) (by simp [initial, size])]
      exact ⟨rfl, rfl, rfl⟩
  refine ⟨?_, ?_, ?_, fun _ => 0, ?_⟩
  · intro i j h
    rw [(hnode i).1] at h
    cases h
  · intro i j h
    rw [(hnode i).2.1] at h
    cases h
  · intro i j h
    rw [(hnode i).2.2] at h
    cases h
  · intro i j h
    rw [(hnode i).1] at h
    cases h

theorem Reachable.wellFormed (hg : Reachable g) : g.WellFormed := by
  induction hg with
  | initial => exact initial_wellFormed
  | step op _ hop ih => exact (op.changes ih hop).wellFormed ih

end BlockProgram.TypeGraph
