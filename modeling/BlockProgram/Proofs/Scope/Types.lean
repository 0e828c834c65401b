import BlockProgram.Proofs.Scope.Walk

/-!
# The types of variables

Scope tracking gives a variable the type that it is declared with, or none. So once scopes are
found, the graph speaks only of types that the program names (`speaks_track`). A parameter of a user
function is bound with the type that its definition gives it, with the dynamic type, or as a list of
anything. In each case its type is definite, and whatever tracking does after that leaves it so
(`track_definite`).
-/

namespace BlockProgram

open Compilation

variable {p : Program} {c c' : Compilation} (disabled : List BlockRef) (taken : List String)

/-- Once scopes are found, the graph speaks of types that the program names. -/
theorem speaks_track {P : TypeName → Prop} (hP : TypeGraph.Vocabulary P) (hp : p.Names P)
    (hfresh : (fresh disabled taken).graph.Speaks P) :
    (p.track (fresh disabled taken)).2.graph.Speaks P := by
  have hwalk : WalkInvariant p fun d => Orderly p d ∧ d.graph.Speaks P :=
    .of_adds (fun _ _ _ h => h.makes.speaks P hP hp) (fun _ _ _ _ _ _ h => h) fun _ _ _ _ h => h
  rw [track_eq, (notes_nameAll _).same.2.2.1, (notes_markAll _).same.2.2.1, (narrowAll_same _).2]
  exact hwalk.visitAll_fresh disabled taken hfresh

def DefiniteParameters (c : Compilation) : Prop :=
  ∀ v, (c.binding v).isParameter = true → c.graph.Definite (c.binding v).node

theorem DefiniteParameters.congr (hc : DefiniteParameters c) (hgraph : c'.graph = c.graph)
    (hnode : ∀ v, (c'.binding v).node = (c.binding v).node)
    (hparameter : ∀ v, (c'.binding v).isParameter = (c.binding v).isParameter) :
    DefiniteParameters c' := by
  intro v hv
  rw [hparameter] at hv
  rw [hgraph, hnode]
  exact hc v hv

theorem DefiniteParameters.adds {N : Nat} {raw : Prop} (hc : DefiniteParameters c)
    (hg : c.graph.WellFormed) (h : Adds p N raw c c') : DefiniteParameters c' := by
  intro v hv
  have hextends := h.makes.changes.extends hg
  rcases h.binding_cases v with hbinding | ⟨_, node, f, hbinding, rfl | hf⟩
  · rw [hbinding] at hv ⊢
    exact (hc v hv).extends hextends
  · rw [hbinding] at hv
    cases hv
  · rw [hbinding] at hv ⊢
    rw [hf.node_eq]
    rcases hf.definite _ hv with hno | hdefinite
    · cases hno
    · exact hdefinite.extends hextends

theorem walkInvariant_definite : WalkInvariant p fun d => Orderly p d ∧ DefiniteParameters d := by
  refine .of_adds (fun _ _ ho h hc => hc.adds ho.consistent.graph h)
    (fun s b assigns v c _ hc => hc.congr rfl ?_ ?_) fun _ _ _ _ hc => hc
  · exact binding_field c Binding.node v _ fun _ => rfl
  · exact binding_field c Binding.isParameter v _ fun _ => rfl

theorem DefiniteParameters.notes (hc : DefiniteParameters c) (h : Notes c c') :
    DefiniteParameters c' := by
  induction h with
  | refl => exact hc
  | tail _ hlast ih =>
    cases hlast with
    | binding v f _ hnode _ hparameter =>
      exact ih.congr rfl (binding_field _ Binding.node v f hnode)
        (binding_field _ Binding.isParameter v f hparameter)
    | sites atRoot before => exact ih

/-- Once scopes are tracked, every parameter has a definite type. -/
theorem track_definite (p : Program) : DefiniteParameters (p.track (fresh disabled taken)).2 := by
  have hvisit := (walkInvariant_definite (p := p)).visitAll_fresh disabled taken
    fun v hv => by cases hv
  have hnarrow : DefiniteParameters (p.visitAll (fresh disabled taken)).2.narrowAll := by
    obtain ⟨hbindings, hgraph⟩ := narrowAll_same (p.visitAll (fresh disabled taken)).2
    refine hvisit.congr hgraph (fun v => ?_) fun v => ?_
    · unfold binding
      rw [hbindings]
    · unfold binding
      rw [hbindings]
  rw [track_eq]
  exact (hnarrow.notes (notes_markAll _)).notes (notes_nameAll _)

end BlockProgram
