import BlockProgram.Compilation.State
import Mathlib.Tactic.SplitIfs

/-!
# Reading a compilation after a change

What scopes and variables look like after one of them is changed, opened or declared.
-/

namespace BlockProgram.Compilation

variable (c : Compilation) {s : ScopeId} {v : BindingId}

/-! ## Scopes -/

@[simp]
theorem size_updateScope (s : ScopeId) (f : Scope → Scope) :
    (c.updateScope s f).scopes.size = c.scopes.size := by
  simp [updateScope]

theorem scope_eq_default (hs : c.scopes.size ≤ s) : c.scope s = {} := by
  simp [scope, hs]

theorem scope_updateScope_self (hs : s < c.scopes.size) (f : Scope → Scope) :
    (c.updateScope s f).scope s = f (c.scope s) := by
  unfold scope updateScope
  rw [Array.getElem?_modify, if_pos rfl, Array.getElem?_eq_getElem hs]
  rfl

theorem scope_updateScope_ne {x : ScopeId} (h : x ≠ s) (f : Scope → Scope) :
    (c.updateScope s f).scope x = c.scope x := by
  simp [scope, updateScope, Array.getElem?_modify, Ne.symm h]

/-- What a change of scopes keeps can still be read. -/
theorem scope_field {α : Type} (read : Scope → α) (s : ScopeId) (f : Scope → Scope)
    (hf : ∀ x, read (f x) = read x) (x : ScopeId) :
    read ((c.updateScope s f).scope x) = read (c.scope x) := by
  by_cases hx : x = s
  · subst hx
    rcases Nat.lt_or_ge x c.scopes.size with hlt | hge
    · rw [scope_updateScope_self c hlt, hf]
    · rw [scope_eq_default c hge, scope_eq_default]
      rw [size_updateScope]
      exact hge
  · rw [scope_updateScope_ne c hx]

/-! ## Variables -/

@[simp]
theorem size_updateBinding (v : BindingId) (f : Binding → Binding) :
    (c.updateBinding v f).bindings.size = c.bindings.size := by
  simp [updateBinding]

theorem binding_eq_default (hv : c.bindings.size ≤ v) : c.binding v = default := by
  simp [binding, hv]

theorem binding_updateBinding_self (hv : v < c.bindings.size) (f : Binding → Binding) :
    (c.updateBinding v f).binding v = f (c.binding v) := by
  unfold binding updateBinding
  rw [Array.getElem?_modify, if_pos rfl, Array.getElem?_eq_getElem hv]
  rfl

theorem binding_updateBinding_ne {x : BindingId} (h : x ≠ v) (f : Binding → Binding) :
    (c.updateBinding v f).binding x = c.binding x := by
  simp [binding, updateBinding, Array.getElem?_modify, Ne.symm h]

/-- What a change of variables keeps can still be read. -/
theorem binding_field {α : Type} (read : Binding → α) (v : BindingId) (f : Binding → Binding)
    (hf : ∀ x, read (f x) = read x) (x : BindingId) :
    read ((c.updateBinding v f).binding x) = read (c.binding x) := by
  by_cases hx : x = v
  · subst hx
    rcases Nat.lt_or_ge x c.bindings.size with hlt | hge
    · rw [binding_updateBinding_self c hlt, hf]
    · rw [binding_eq_default c hge, binding_eq_default]
      rw [size_updateBinding]
      exact hge
  · rw [binding_updateBinding_ne c hx]

/-! ## New scopes -/

theorem size_newScope (parent : ScopeId) (first : Option BlockRef) :
    (newScope (some parent) first c).2.scopes.size = c.scopes.size + 1 := by
  simp [newScope]

theorem scope_newScope {parent : ScopeId} (hp : parent < c.scopes.size) (first : Option BlockRef)
    (s : ScopeId) :
    (newScope (some parent) first c).2.scope s =
      if s = c.scopes.size then { parent := some parent, first }
      else if s = parent then
        { c.scope parent with children := (c.scope parent).children ++ [c.scopes.size] }
      else c.scope s := by
  have hpush : ∀ x, ({ c with scopes := c.scopes.push { parent := some parent, first } } :
      Compilation).scope x = if x = c.scopes.size then { parent := some parent, first }
        else c.scope x := by
    intro x
    unfold scope
    rw [Array.getElem?_push]
    split_ifs
    · rfl
    · rfl
  show ((_ : Compilation).updateScope parent _).scope s = _
  by_cases hs : s = parent
  · subst hs
    rw [scope_updateScope_self, hpush, if_neg (Nat.ne_of_lt hp), if_neg (Nat.ne_of_lt hp),
      if_pos rfl]
    rw [Array.size_push]
    exact Nat.lt_succ_of_lt hp
  · rw [scope_updateScope_ne _ hs, hpush, if_neg hs]

/-! ## New variables -/

theorem size_declare (s : ScopeId) (name : String) (node : NodeId) :
    (declare s name node c).2.scopes.size = c.scopes.size := by
  simp [declare]

theorem bindings_size_declare (s : ScopeId) (name : String) (node : NodeId) :
    (declare s name node c).2.bindings.size = c.bindings.size + 1 := by
  simp [declare, updateScope]

theorem binding_declare (s : ScopeId) (name : String) (node : NodeId) (v : BindingId) :
    (declare s name node c).2.binding v =
      if v = c.bindings.size then { name, node } else c.binding v := by
  show ((c.bindings.push { name, node })[v]?).getD default = _
  rw [Array.getElem?_push]
  split_ifs
  · rfl
  · rfl

/-- A new variable changes nothing of a scope but what it declares. -/
theorem scope_field_declare {α : Type} (read : Scope → α)
    (hread : ∀ x declared, read { x with declared } = read x) (s : ScopeId) (name : String)
    (node : NodeId) (x : ScopeId) : read ((declare s name node c).2.scope x) = read (c.scope x) :=
  scope_field { c with bindings := c.bindings.push { name, node } } read s _ (fun _ => hread _ _) x

theorem scope_declare (hs : s < c.scopes.size) (name : String) (node : NodeId) (x : ScopeId) :
    (declare s name node c).2.scope x = if x = s then
        { c.scope s with declared := (c.scope s).declared.insert name c.bindings.size }
      else c.scope x := by
  show ((_ : Compilation).updateScope s _).scope x = _
  split_ifs with hx
  · subst hx
    exact scope_updateScope_self _ hs _
  · exact scope_updateScope_ne _ hx _

end BlockProgram.Compilation
