import BlockProgram.Proofs.Compilation.Access
import BlockProgram.Proofs.Compilation.Consistent
import BlockProgram.Scope.Naming

/-!
# What scope tracking does

Scope tracking is a sequence of small steps (`ScopeStep`): new nodes, a new scope below another, a
new variable in a scope, a variable that moves from the root to an inner scope, notes about scopes
and variables. So an invariant of these steps is one of tracking.
-/

namespace BlockProgram

open Compilation

/-- Moves the variable with a name from the root to another scope. -/
def Compilation.moveTo (c : Compilation) (name : String) (v : BindingId) (s : ScopeId) :
    Compilation :=
  (c.updateScope rootScope fun x => { x with declared := x.declared.erase name }).updateScope s
    fun x => { x with declared := x.declared.insert name v }

theorem Compilation.scope_moveTo (c : Compilation) (name : String) (v : BindingId) {s : ScopeId}
    (hs : s < c.scopes.size) (hroot : s ≠ rootScope) (x : ScopeId) :
    (c.moveTo name v s).scope x =
      if x = s then { c.scope s with declared := (c.scope s).declared.insert name v }
      else if x = rootScope then
        { c.scope rootScope with declared := (c.scope rootScope).declared.erase name }
      else c.scope x := by
  unfold moveTo
  split
  · next hx =>
    subst hx
    rw [scope_updateScope_self, scope_updateScope_ne c hroot]
    rw [size_updateScope]
    exact hs
  · next hx =>
    rw [scope_updateScope_ne _ hx]
    split
    · next hx =>
      subst hx
      exact scope_updateScope_self c (lt_of_le_of_lt (Nat.zero_le _) hs) _
    · next hx => exact scope_updateScope_ne c hx _

/-- A move changes nothing of a scope but what it declares. -/
theorem Compilation.scope_field_moveTo {α : Type} (read : Scope → α)
    (hread : ∀ x declared, read { x with declared } = read x) (c : Compilation) (name : String)
    (v : BindingId) (s x : ScopeId) : read ((c.moveTo name v s).scope x) = read (c.scope x) := by
  unfold moveTo
  rw [scope_field _ read s, scope_field c read rootScope]
  · exact fun _ => hread _ _
  · exact fun _ => hread _ _

/-- What a name means in a scope itself, after a move. -/
theorem Compilation.get?_moveTo (c : Compilation) (name : String) (v : BindingId) {s : ScopeId}
    (hs : s < c.scopes.size) (hroot : s ≠ rootScope) (x : ScopeId) (n : String) :
    ((c.moveTo name v s).scope x).declared.get? n = if n = name ∧ x = s then some v
      else if n = name ∧ x = rootScope then none
      else (c.scope x).declared.get? n := by
  rw [scope_moveTo c name v hs hroot]
  by_cases hn : n = name
  · simp only [hn, true_and]
    split
    · exact Table.get?_insert_self _ _ _
    · split
      · rw [Table.get?_erase, if_pos rfl]
      · rfl
  · simp only [hn, false_and, if_false]
    split
    · next h => rw [h, Table.get?_insert_ne _ _ hn]
    · split
      · next h => rw [h, Table.get?_erase, if_neg hn]
      · rfl

/-- One small step of scope tracking. -/
inductive ScopeStep : Compilation → Compilation → Prop where
  | graph (c : Compilation) (g : TypeGraph) (hg : TypeGraph.Changes c.graph g) :
      ScopeStep c { c with graph := g }
  | place (c : Compilation) (b : BlockRef) (s : ScopeId) (hs : s < c.scopes.size) :
      ScopeStep c { c with blockScope := c.blockScope.insert b s }
  | newScope (c : Compilation) (parent : ScopeId) (first : Option BlockRef)
      (hp : parent < c.scopes.size) : ScopeStep c (newScope (some parent) first c).2
  | declare (c : Compilation) (s : ScopeId) (name : String) (node : NodeId)
      (hs : s < c.scopes.size) (hn : node < c.graph.size) : ScopeStep c (declare s name node c).2
  /-- A note about a variable. -/
  | binding (c : Compilation) (v : BindingId) (f : Binding → Binding)
      (hname : ∀ x, (f x).name = x.name) (hnode : ∀ x, (f x).node = x.node) :
      ScopeStep c (c.updateBinding v f)
  /-- A note about a scope. -/
  | scope (c : Compilation) (s : ScopeId) (f : Scope → Scope)
      (hparent : ∀ x, (f x).parent = x.parent) (hchildren : ∀ x, (f x).children = x.children)
      (hdeclared : ∀ x, (f x).declared = x.declared) : ScopeStep c (c.updateScope s f)
  | move (c : Compilation) (name : String) (v : BindingId) (s : ScopeId) (hs : s < c.scopes.size)
      (hroot : s ≠ rootScope) (hv : (c.scope rootScope).declared.get? name = some v)
      (hfree : (c.scope s).declared.get? name = none) : ScopeStep c (c.moveTo name v s)
  | sites (c : Compilation) (atRoot : List BindingId) (before : Table BlockRef (List BindingId)) :
      ScopeStep c { c with rootDeclarations := atRoot, blockDeclarations := before }

def ScopeSteps : Compilation → Compilation → Prop :=
  Relation.ReflTransGen ScopeStep

instance scopeStepsRefl : Std.Refl ScopeSteps :=
  ⟨fun _ => .refl⟩

instance scopeStepsTrans : IsTrans Compilation ScopeSteps :=
  ⟨fun _ _ _ => Relation.ReflTransGen.trans⟩

theorem ScopeStep.single {c c' : Compilation} (h : ScopeStep c c') : ScopeSteps c c' :=
  .single h

/-- An invariant of the steps is one of their sequences. -/
theorem ScopeSteps.invariant {J : Compilation → Prop} {c c' : Compilation}
    (hJ : ∀ d d', ScopeStep d d' → J d → J d') (h : ScopeSteps c c') (hc : J c) : J c' := by
  induction h with
  | refl => exact hc
  | tail _ hlast ih => exact hJ _ _ hlast ih

variable {p : Program} {c c' : Compilation}

/-! ## What every step keeps -/

theorem ScopeStep.size_le (h : ScopeStep c c') : c.scopes.size ≤ c'.scopes.size := by
  cases h with
  | newScope parent first hp => rw [size_newScope]; exact Nat.le_succ _
  | declare s name node hs hn => rw [size_declare]
  | scope s f hparent hchildren hdeclared => rw [size_updateScope]
  | move name v s hs hroot hv hfree =>
    unfold moveTo
    rw [size_updateScope, size_updateScope]
  | graph | place | binding | sites => exact le_rfl

theorem ScopeSteps.size_le (h : ScopeSteps c c') : c.scopes.size ≤ c'.scopes.size :=
  h.invariant (J := fun d => c.scopes.size ≤ d.scopes.size)
    (fun _ _ hstep hd => le_trans hd hstep.size_le) le_rfl

theorem ScopeStep.consistent (h : ScopeStep c c') (hc : Consistent p c) : Consistent p c' := by
  cases h with
  | graph g hg => exact hc.of_extends (hg.wellFormed hc.graph) (hg.extends hc.graph)
  | declare s name node hs hn =>
    refine { hc with binding_lt := ?_ }
    intro v
    rw [binding_declare]
    split
    · exact hn
    · exact hc.binding_lt v
  | binding v f hname hnode =>
    refine { hc with binding_lt := ?_ }
    intro x
    rw [binding_field c Binding.node v f hnode x]
    exact hc.binding_lt x
  | place | newScope | scope | move | sites => exact { hc with }

theorem ScopeSteps.consistent (h : ScopeSteps c c') (hc : Consistent p c) : Consistent p c' :=
  h.invariant (fun _ _ hstep => hstep.consistent) hc

theorem ScopeSteps.inProgress_eq (h : ScopeSteps c c') : c'.inProgress = c.inProgress := by
  refine h.invariant (J := fun d => d.inProgress = c.inProgress) ?_ rfl
  intro d d' hstep hd
  cases hstep <;> exact hd

theorem ScopeSteps.taken_eq (h : ScopeSteps c c') : c'.taken = c.taken := by
  refine h.invariant (J := fun d => d.taken = c.taken) ?_ rfl
  intro d d' hstep hd
  cases hstep <;> exact hd

end BlockProgram
