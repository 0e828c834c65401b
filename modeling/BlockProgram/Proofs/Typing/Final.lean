import BlockProgram.Proofs.Emit.Forward
import BlockProgram.Proofs.Scope.Types
import BlockProgram.Proofs.Typing.Soundness

/-!
# Settled types are final

Typing ends by giving every variable of unknown type a default. The default of one variable may
settle the type of another, as that of a list does with its elements, but it never undoes one: each
variable has a settled type after its turn and keeps it through the turns of the others. Parameters
have no default of their own unless they are lists, and they need none, since their types are
definite. So once a program is typed every variable has a settled type, and no request for code,
whether it succeeds or not, changes it (`infer_final`).
-/

namespace BlockProgram

open TypeGraph Program

variable {p : Program} {c c' : Compilation}

/-! ## After typing -/

theorem DefiniteParameters.advance (h : DefiniteParameters c) (hadv : Advances c c') :
    DefiniteParameters c' := by
  intro v hv
  rw [hadv.binding_eq] at hv ⊢
  exact (h v hv).extends hadv.graph

theorem isOpen_advance {v : BindingId}
    (h : TypeName.isOpen (c.graph.typeAt (c.binding v).node) = false) (hadv : Advances c c') :
    TypeName.isOpen (c'.graph.typeAt (c'.binding v).node) = false := by
  rw [hadv.binding_eq]
  exact hadv.graph.isOpen_eq_false h

/-- At the end of typing, the type of every variable is settled. -/
theorem moves_infer_settles (hc : Idle p c) (hparameters : DefiniteParameters c) :
    Moves (Proceeds p) p.infer c (fun _ c' => ∀ v < c'.bindings.size,
      TypeName.isOpen (c'.graph.typeAt (c'.binding v).node) = false) := by
  unfold infer
  refine .bind (Moves.loop (R := Proceeds p) (fun _ _ => Idle.proceed) _ ?_ hc) ?_
  · intro b _ d hd
    refine .bind_get ?_
    split
    · exact (moves_checkBlock hd b).imp fun _ _ _ _ => trivial
    · exact .pure _ trivial
  · intro _ c1 h1 _
    refine .bind_get ?_
    refine (Moves.forM (R := Proceeds p) (I := fun d => Idle p d ∧ DefiniteParameters d)
      (P := fun v d => TypeName.isOpen (d.graph.typeAt (d.binding v).node) = false) ?_ ?_ _ ?_
      ⟨hc.proceed h1, hparameters.advance (h1 hc.consistent).2⟩).imp ?_
    · exact fun d d' hd h => ⟨hd.1.proceed h, hd.2.advance (h hd.1.consistent).2⟩
    · exact fun v d d' hd hv h => isOpen_advance hv (h hd.1.consistent).2
    · intro v _ d hd
      refine .lift ((runs_settleVariable hd.1 v).imp ?_)
      intro _ d' h hsettled
      rw [(h hd.1.consistent).2.binding_eq]
      exact hsettled (hd.2 v)
    · intro _ c2 h2 hall v hv
      rw [(h2 (hc.proceed h1).consistent).2.bindings] at hv
      exact hall v (List.mem_range.mpr hv)

/-- A settled type is what one gets when asking for it. -/
theorem variableTypeName_of_settled (hc : Consistent p c) {v : BindingId} {t : TypeName}
    (ht : c.graph.typeAt (c.binding v).node = some t) (hne : t ≠ .array) :
    (variableTypeName v c).1 = some t := by
  have hresolve := runs_resolvedType hc.graph (c.binding v).node
  show (resolvedType (c.binding v).node c.graph).1 = some t
  rw [hresolve.2]
  exact (hresolve.1.changes.extends hc.graph).type_eq _ t ht hne

/-! ## Requests for code -/

/-- What is known after a step, whether it succeeds or not. -/
def Compilation.after {α : Type} (c : Compilation) (m : CompileM α) : Compilation :=
  match m c with
  | .ok _ c' => c'
  | .error _ c' => c'

theorem Forward.after {α : Type} {m : CompileM α} (h : Forward p m) (hc : Consistent p c) :
    Consistent p (c.after m) ∧ Advances c (c.after m) := by
  have hmoves := h.moves hc
  unfold Compilation.after
  split
  · next a c' hm => exact (Ensures.of_ok hmoves hm).1 hc
  · next e c' hm => exact Ensures.of_error hmoves hm hc

inductive CodeRequest where
  | expression (b : BlockRef)
  | statement (b : BlockRef)
  | chain (first : Option BlockRef)
  | body (first : Option BlockRef)
  | input (b : BlockRef) (name : String)
  | declaration (v : BindingId)

/-- What is known after a request for code. -/
def CodeRequest.apply (p : Program) (c : Compilation) : CodeRequest → Compilation
  | .expression b => c.after (p.emitExpression b)
  | .statement b => c.after (p.emitStatement b)
  | .chain first => c.after (p.emitChain p.emitter first)
  | .body first => c.after (p.emitBody p.emitter first)
  | .input b name => c.after (p.emitInput p.emitter b name)
  | .declaration v => (emitDeclaration v c).2

theorem CodeRequest.advances (r : CodeRequest) (hc : Consistent p c) :
    Consistent p (r.apply p c) ∧ Advances c (r.apply p c) := by
  have he := emitsForward_emitter p
  cases r with
  | expression b => exact (he.expression b).after hc
  | statement b => exact (he.statement b).after hc
  | chain first => exact (forward_emitChain he first).after hc
  | body first => exact (forward_emitBody he first).after hc
  | input b name => exact (forward_emitInput he b name).after hc
  | declaration v => exact (forward_emitDeclaration v).after hc

def CodeRequest.applyAll (p : Program) (c : Compilation) (requests : List CodeRequest) :
    Compilation :=
  requests.foldl (apply p) c

theorem CodeRequest.advances_applyAll (requests : List CodeRequest) (hc : Consistent p c) :
    Consistent p (applyAll p c requests) ∧ Advances c (applyAll p c requests) := by
  induction requests generalizing c with
  | nil => exact ⟨hc, Advances.refl c⟩
  | cons r rest ih =>
    obtain ⟨hc1, hadv1⟩ := r.advances hc
    obtain ⟨hc2, hadv2⟩ := ih hc1
    exact ⟨hc2, hadv1.trans hadv2⟩

/-- Once a program has been typed, every variable has a settled type, which is not the bare marker
of lists. Any number of requests for code, successful or not, leaves that type as it is. -/
theorem infer_final (p : Program) (disabled : List BlockRef) (taken : List String) (c : Compilation)
    (hinfer : p.infer (p.track (.fresh disabled taken)).2 = .ok () c) (v : BindingId)
    (hv : v < c.bindings.size) :
    ∃ t, (Program.variableTypeName v c).1 = some t ∧ t ≠ TypeName.array ∧
      ∀ requests : List CodeRequest,
        (Program.variableTypeName v (CodeRequest.applyAll p c requests)).1 = some t := by
  have hstart := idle_track p disabled taken
  obtain ⟨hproceeds, hsettled⟩ :=
    (moves_infer_settles hstart (track_definite disabled taken p)).of_ok hinfer
  obtain ⟨hc, _⟩ := hproceeds hstart.consistent
  obtain ⟨t, ht, hne⟩ := isOpen_eq_false_iff.mp (hsettled v hv)
  refine ⟨t, variableTypeName_of_settled hc ht hne, hne, fun requests => ?_⟩
  obtain ⟨hc', hadv⟩ := CodeRequest.advances_applyAll requests hc
  refine variableTypeName_of_settled hc' ?_ hne
  rw [hadv.binding_eq]
  exact hadv.graph.type_eq _ t ht hne

/-- A function that goes through a list of anything, and a variable that is never visited. -/
def walking : Program where
  workspace := {
    blocks := #[
      { id := "walk", tag := "", kind := .functionDefinition,
        inputs := [⟨"STACK", .statement, some 1⟩],
        signature := some ⟨"walk", [⟨"a", "items", TypeName.array⟩]⟩ },
      { id := "each", tag := "", kind := .forOf, fields := [⟨"VAR", "item"⟩],
        inputs := [⟨"LIST", .value, some 2⟩, ⟨"DO", .statement, some 3⟩] },
      { id := "items", tag := "", kind := .argumentReporter, fields := [⟨"VALUE", "items"⟩],
        output := some [TypeName.generic] },
      { id := "last", tag := "", kind := .variableSet, fields := [⟨"VAR", "last"⟩],
        inputs := [⟨"VALUE", .value, none⟩] },
      { id := "stray", tag := "", kind := .variableGet, enabled := false,
        fields := [⟨"VAR", "item"⟩], output := some [TypeName.generic] }]
    parents := #[none, some 0, some 1, some 1, none] }
  surface := {}

/-- The parameter `items` is a list of anything by default, which settles the type of `item`. A
request for the code of the variable that was not visited fails, one for the function succeeds, and
`item` has the same type after both. -/
theorem infer_final_walking : ∃ c,
    walking.infer (walking.track (.fresh [] [])).2 = .ok () c ∧ 1 < c.bindings.size ∧
    (c.binding 0).isParameter = true ∧ (Program.variableTypeName 0 c).1 = some "any[]" ∧
    (c.binding 1).name = "item" ∧ (Program.variableTypeName 1 c).1 = some TypeName.any ∧
    (∃ f d, walking.emitExpression 4 c = .error f d) ∧
    (Program.variableTypeName 1
      (CodeRequest.applyAll walking c [.expression 4, .statement 0])).1 = some TypeName.any := by
  obtain ⟨_, c, hinfer, hsize, hparameter, hitems, hname, hitem, hstray⟩ := Succeeds.exists_ok
    (by decide +kernel : Succeeds walking.infer (walking.track (.fresh [] [])).2 fun _ c =>
      1 < c.bindings.size ∧ (c.binding 0).isParameter = true ∧
        (variableTypeName 0 c).1 = some "any[]" ∧ (c.binding 1).name = "item" ∧
        (variableTypeName 1 c).1 = some .any ∧ c.blockScope.get? 4 = none)
  obtain ⟨t, ht, _, hfinal⟩ := infer_final walking [] [] c hinfer 1 hsize
  rw [hitem] at ht
  cases ht
  refine ⟨c, hinfer, hsize, hparameter, hitems, hname, hitem, ?_, hfinal _⟩
  have hlookup : c.variableAt? 4 "item" = none := by
    unfold Compilation.variableAt?
    rw [hstray]
    rfl
  obtain ⟨f, hf⟩ := lookup_of_none (p := walking) hlookup
  refine ⟨f, c, ?_⟩
  have hname : walking.variableName 4 "item" c = .error f c := run_bind_of_error hf _
  exact run_bind_of_error hname _

end BlockProgram
