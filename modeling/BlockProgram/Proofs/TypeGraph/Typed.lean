import BlockProgram.Proofs.TypeGraph.Operations

/-!
# Nodes with types

The first four nodes carry the primitive types for good (`HasPrimitives`). With them, every new node
has the type it was made for, and what is read off a node is the type of its class.
-/

namespace BlockProgram.TypeGraph

variable {g h : TypeGraph} {i : NodeId}

/-- The shared nodes of the primitive types. -/
structure HasPrimitives (g : TypeGraph) : Prop where
  number : g.typeAt numberNode = some .number
  text : g.typeAt textNode = some .text
  boolean : g.typeAt booleanNode = some .boolean
  void : g.typeAt voidNode = some .void

theorem HasPrimitives.extends (hp : HasPrimitives g) (he : Extends g h) :
    HasPrimitives h where
  number := he.type_eq _ _ hp.number (by decide)
  text := he.type_eq _ _ hp.text (by decide)
  boolean := he.type_eq _ _ hp.boolean (by decide)
  void := he.type_eq _ _ hp.void (by decide)

theorem initial_hasPrimitives : HasPrimitives initial :=
  ⟨rfl, rfl, rfl, rfl⟩

theorem lt_size_of_typeAt {t : TypeName} (h : g.typeAt i = some t) : i < g.size := by
  rcases lt_or_ge i g.size with hi | hi
  · exact hi
  · unfold typeAt at h
    rw [root_of_size_le g i hi, node_eq_default g i hi] at h
    cases h

/-! ## Definite types -/

theorem isOpen_eq_false_iff {t : Option TypeName} :
    TypeName.isOpen t = false ↔ ∃ u, t = some u ∧ u ≠ .array := by
  cases t <;> simp [TypeName.isOpen]

theorem Extends.isOpen_eq_false (he : Extends g h)
    (hi : TypeName.isOpen (g.typeAt i) = false) : TypeName.isOpen (h.typeAt i) = false := by
  obtain ⟨t, ht, hne⟩ := isOpen_eq_false_iff.mp hi
  exact isOpen_eq_false_iff.mpr ⟨t, he.type_eq i t ht hne, hne⟩

/-- The type of a node is settled, or known to be that of a list. -/
def Definite (g : TypeGraph) (i : NodeId) : Prop :=
  TypeName.isOpen (g.typeAt i) = false ∨ g.isListAt i = true

theorem Definite.extends (hi : g.Definite i) (he : Extends g h) : h.Definite i :=
  hi.imp he.isOpen_eq_false (he.isListAt_eq i)

/-! ## New nodes -/

/-- A new node is the root of its class. -/
theorem node_root_push (type : Option TypeName) (isArray : Bool) :
    (g.push { type, isArray }).node ((g.push { type, isArray }).root g.size) =
      { type, isArray } := by
  have hnode : (g.push { type, isArray }).node g.size = { type, isArray } := by
    rw [node_push, if_pos rfl]
  have hroot : (g.push { type, isArray }).root g.size = g.size := by
    apply root_of_isRoot
    unfold IsRoot
    rw [hnode]
  rw [hroot, hnode]

theorem runs_addNode (type : Option TypeName) (isArray : Bool) :
    Runs Changes (addNode type isArray) g (fun n h => n < h.size ∧ h.typeAt n = type) := by
  refine ⟨(Change.push g type isArray).single, ?_, ?_⟩
  · show g.size < (g.push { type, isArray }).size
    rw [size_push]
    exact Nat.lt_succ_self _
  · exact congrArg Node.type (node_root_push type isArray)

theorem isListAt_addNode (type : Option TypeName) (isArray : Bool) :
    (addNode type isArray g).2.isListAt (addNode type isArray g).1 = isArray :=
  congrArg Node.isArray (node_root_push type isArray)

theorem changes_ground (t : TypeName) : Changes g (ground t g).2 := by
  unfold ground
  split
  · exact Std.Refl.refl g
  · split
    · exact Std.Refl.refl g
    · split
      · exact Std.Refl.refl g
      · split
        · exact Std.Refl.refl g
        · exact (Change.push g (some t) (TypeName.isArray t)).single

theorem runs_ground (hp : HasPrimitives g) (t : TypeName) :
    Runs Changes (ground t) g (fun n h => n < h.size ∧ h.typeAt n = some t) := by
  have hshared : ∀ n, g.typeAt n = some t →
      Runs Changes (pure n) g (fun n h => n < h.size ∧ h.typeAt n = some t) :=
    fun n hn => .pure n ⟨lt_size_of_typeAt hn, hn⟩
  unfold ground
  split
  · next ht => exact hshared _ (ht ▸ hp.number)
  · split
    · next ht => exact hshared _ (ht ▸ hp.text)
    · split
      · next ht => exact hshared _ (ht ▸ hp.boolean)
      · split
        · next ht => exact hshared _ (ht ▸ hp.void)
        · exact runs_addNode (some t) (TypeName.isArray t)

/-! ## Reading types -/

theorem runs_typeOf (hg : g.WellFormed) (i : NodeId) :
    Runs Compressions (typeOf i) g (fun t h => t = g.typeAt i ∧ SameClasses g h) := by
  unfold typeOf
  refine .bind (runs_find hg i) ?_
  rintro r h _ ⟨rfl, hs⟩
  refine .bind_get ?_
  refine .pure _ ⟨?_, hs⟩
  exact hs.type_eq _

theorem runs_isArrayNode (hg : g.WellFormed) (i : NodeId) :
    Runs Compressions (isArrayNode i) g (fun a h =>
      a = (g.isListAt i || (g.typeAt i).any TypeName.isArray) ∧ SameClasses g h) := by
  unfold isArrayNode
  refine .bind (runs_find hg i) ?_
  rintro r h _ ⟨rfl, hs⟩
  refine .bind_get ?_
  refine .pure _ ⟨?_, hs⟩
  rw [hs.isArray_eq, hs.type_eq]
  rfl

/-- Giving a class of open type a type keeps all that is known. -/
theorem runs_setType (hg : g.WellFormed) (i : NodeId) (hi : i < g.size) (t : TypeName)
    (ho : TypeName.isOpen (g.typeAt i) = true) :
    Runs Changes (setType i t) g (fun _ h => h.typeAt i = some t) := by
  unfold setType
  refine .bind ((runs_find hg i).mono fun _ hc => hc.changes) ?_
  rintro r h hc ⟨rfl, hs⟩
  refine Runs.of_modify _ (Change.settle h (g.root i) t ?_ ?_).single ?_
  · exact (hs.isRoot_iff hg (hc.wellFormed hg) _).mpr (isRoot_root hg i)
  · rw [hs.type_eq]
    exact ho
  · have hroot : (h.update (g.root i) ({ · with type := some t })).root i = g.root i := by
      rw [root_update h (g.root i) i ({ · with type := some t }) (fun _ => rfl), hs.root_eq]
    unfold typeAt
    rw [hroot, node_update_self]
    rw [hs.size_eq]
    exact root_lt hg i hi

end BlockProgram.TypeGraph
