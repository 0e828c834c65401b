import BlockProgram.Proofs.TypeGraph.Atomicity

/-!
# What is known stays known

Operations follow one another (`Leads`), and some of them fail. Whatever comes later, two nodes that
are in one class stay together and a settled type stays (`knowledge_kept`). In particular the four
primitive types never become one.
-/

namespace BlockProgram.TypeGraph

open List

/-- One operation on nodes that exist. -/
def Step (g h : TypeGraph) : Prop :=
  ∃ op : Operation, (∀ i ∈ op.nodes, i < g.size) ∧ h = op.apply g

def Leads : TypeGraph → TypeGraph → Prop :=
  Relation.ReflTransGen Step

variable {g h : TypeGraph}

theorem Step.changes (hs : Step g h) (hg : g.WellFormed) : Changes g h := by
  obtain ⟨op, hop, rfl⟩ := hs
  exact op.changes hg hop

theorem Leads.changes (hl : Leads g h) (hg : g.WellFormed) : Changes g h := by
  induction hl with
  | refl => exact Std.Refl.refl g
  | tail _ hlast ih => exact ih.trans (hlast.changes (ih.wellFormed hg))

theorem Leads.reachable (hl : Leads g h) (hg : Reachable g) : Reachable h := by
  induction hl with
  | refl => exact hg
  | tail _ hlast ih =>
    obtain ⟨op, hop, rfl⟩ := hlast
    exact ih.step op hop

theorem Reachable.hasPrimitives (hg : Reachable g) : HasPrimitives g := by
  induction hg with
  | initial => exact initial_hasPrimitives
  | step op hg hop ih => exact ih.extends ((op.changes hg.wellFormed hop).extends hg.wellFormed)

theorem typeOf_eq (hg : g.WellFormed) (i : NodeId) : (typeOf i g).1 = g.typeAt i :=
  (runs_typeOf hg i).2.1

theorem root_ne_of_typeAt_ne {i j : NodeId} (h : g.typeAt i ≠ g.typeAt j) : g.root i ≠ g.root j :=
  fun hr => h (typeAt_congr hr)

/-- The primitive types are in four classes. -/
theorem HasPrimitives.roots_nodup (hp : HasPrimitives g) :
    ([numberNode, textNode, booleanNode, voidNode].map g.root).Nodup := by
  have hne : ∀ {i j : NodeId} {s t : TypeName}, g.typeAt i = some s → g.typeAt j = some t →
      s ≠ t → g.root i ≠ g.root j := by
    intro i j s t hi hj hst
    refine root_ne_of_typeAt_ne ?_
    rw [hi, hj]
    exact fun h => hst (Option.some.inj h)
  simp only [map_cons, map_nil, nodup_cons, mem_cons, not_mem_nil,
    or_false,
    not_or, not_false_eq_true, nodup_nil, and_true]
  exact ⟨⟨hne hp.number hp.text (by decide), hne hp.number hp.boolean (by decide),
      hne hp.number hp.void (by decide)⟩,
    ⟨hne hp.text hp.boolean (by decide), hne hp.text hp.void (by decide)⟩,
    hne hp.boolean hp.void (by decide)⟩

/-- Whatever operations follow, and whether they fail or not, classes stay together, settled types
stay, and the primitive types stay what they are in four classes. -/
theorem knowledge_kept (g h : TypeGraph) (hg : Reachable g) (hl : Leads g h) :
    (∀ i j, (find i g).1 = (find j g).1 → (find i h).1 = (find j h).1) ∧
    (∀ i t, (typeOf i g).1 = some t → t ≠ TypeName.array → (typeOf i h).1 = some t) ∧
    ([numberNode, textNode, booleanNode, voidNode].map fun i => (typeOf i h).1) =
      [some TypeName.number, some TypeName.text, some TypeName.boolean, some TypeName.void] ∧
    ([numberNode, textNode, booleanNode, voidNode].map fun i => (find i h).1).Nodup := by
  have hh := hl.reachable hg
  have hext := (hl.changes hg.wellFormed).extends hg.wellFormed
  have hp := hh.hasPrimitives
  refine ⟨fun i j hij => hext.root_eq i j hij, ?_, ?_, hp.roots_nodup⟩
  · intro i t hi ht
    rw [typeOf_eq hg.wellFormed] at hi
    rw [typeOf_eq hh.wellFormed]
    exact hext.type_eq i t hi ht
  · simp only [map_cons, map_nil, typeOf_eq hh.wellFormed, hp.number, hp.text, hp.boolean,
      hp.void]

/-- A union of 4 and 6 that fails half way has joined 5 with numbers. A later union of 5 with
boolean fails too, and 5 is a number still. -/
theorem knowledge_kept_tangled :
    ∃ h k, h = (Operation.union 4 6).apply tangled ∧ k = (Operation.union 5 booleanNode).apply h ∧
      (typeOf 5 tangled).1 = none ∧ (typeOf 5 h).1 = some TypeName.number ∧
      (typeOf 5 k).1 = some TypeName.number ∧ (find 5 k).1 = (find numberNode k).1 := by
  have hreach : Reachable ((Operation.union 4 6).apply tangled) :=
    tangled_reachable.step (.union 4 6) (by decide)
  have hleads : Leads ((Operation.union 4 6).apply tangled)
      ((Operation.union 5 booleanNode).apply ((Operation.union 4 6).apply tangled)) :=
    Relation.ReflTransGen.single ⟨.union 5 booleanNode, by decide, rfl⟩
  have hkept := knowledge_kept _ _ hreach hleads
  exact ⟨_, _, rfl, rfl, rfl, rfl, hkept.2.1 5 _ rfl (by decide), hkept.1 5 numberNode rfl⟩

end BlockProgram.TypeGraph
