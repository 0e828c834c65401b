import BlockProgram.Proofs.Emit.Lines
import BlockProgram.Proofs.Typing.Rules

/-!
# Steps of writing

Code is written when scopes are found and types are known. Writing asks for more types, but it
changes nothing about scopes, variables and the places of their declarations. So a step of writing
may be described by what it yields at any time: `Yields p c m Q` says that step `m`, run at any time
after `c`, fails or yields what `Q` says.
-/

namespace BlockProgram

open Compilation Program

variable {p : Program} {c : Compilation} {α β : Type}

/-- At any time after `c`, step `m` goes on from there, and yields what `Q` says if it does not
fail. -/
def Yields (p : Program) (c : Compilation) (m : CompileM α) (Q : α → Prop) : Prop :=
  ∀ d, Consistent p d → Advances c d → Moves (Proceeds p) m d (fun a _ => Q a)

namespace Yields

variable {m : CompileM α} {Q Q' : α → Prop} {T : β → Prop}

theorem imp (h : Yields p c m Q) (hQ : ∀ a, Q a → Q' a) : Yields p c m Q' :=
  fun d hd hadv => (h d hd hadv).imp fun a _ _ => hQ a

theorem pure {a : α} (h : Q a) : Yields p c (Pure.pure a) Q :=
  fun _ _ _ => .pure a h

theorem bind {f : α → CompileM β} (h : Yields p c m Q) (hf : ∀ a, Q a → Yields p c (f a) T) :
    Yields p c (m >>= f) T := by
  intro d hd hadv
  refine .bind (h d hd hadv) ?_
  intro a d' hproceeds hQ
  obtain ⟨hd', hadv'⟩ := hproceeds hd
  exact hf a hQ d' hd' (hadv.trans hadv')

theorem bind_get {f : Compilation → CompileM β} (hf : ∀ d, Advances c d → Yields p c (f d) T) :
    Yields p c (get >>= f) T :=
  fun d hd hadv => .bind_get (hf d hadv d hd hadv)

theorem map {f : α → β} (h : Yields p c m Q) (hf : ∀ a, Q a → T (f a)) :
    Yields p c (f <$> m) T := by
  rw [map_eq_pure_bind]
  exact h.bind fun a ha => .pure (hf a ha)

theorem lift {m : TrackM α}
    (h : ∀ d, Consistent p d → Advances c d → Runs (Proceeds p) m d (fun a _ => Q a)) :
    Yields p c (liftM m) Q :=
  fun d hd hadv => .lift (h d hd hadv)

theorem mapM {P : α → β → Prop} {f : α → CompileM β} {l : List α}
    (hf : ∀ a ∈ l, Yields p c (f a) (P a)) :
    Yields p c (l.mapM f) (fun bs => List.Forall₂ P l bs) := by
  induction l with
  | nil => exact .pure .nil
  | cons a r ih =>
    rw [List.mapM_cons]
    refine (hf a (.head _)).bind fun b hb => ?_
    refine (ih fun x hx => hf x (.tail a hx)).bind fun bs hbs => ?_
    exact .pure (.cons hb hbs)

end Yields

/-! ## Types -/

theorem proceeds_resolvedType {d : Compilation} (hd : Consistent p d) (n : NodeId) :
    Proceeds p d { d with graph := (TypeGraph.resolvedType n d.graph).2 } :=
  .of_changes (TypeGraph.runs_resolvedType hd.graph n).1.changes

theorem yields_settledType {m : TypingM NodeId}
    (h : ∀ d, Consistent p d → Moves (Proceeds p) m d (fun _ _ => True)) :
    Yields p c (settledType m) (fun _ => True) := by
  intro d hd _
  unfold Moves Ensures settledType
  dsimp only
  cases hrun : m d with
  | ok n d' =>
    obtain ⟨hproceeds, _⟩ := Ensures.of_ok (h d hd) hrun
    exact ⟨trans_of (Proceeds p) hproceeds (proceeds_resolvedType (hproceeds hd).1 n), trivial⟩
  | error e d' =>
    have hproceeds := Ensures.of_error (h d hd) hrun
    cases e with
    | mismatch m => exact ⟨hproceeds, trivial⟩
    | fault f => exact hproceeds

theorem yields_targetTypeName (t : Target) : Yields p c (p.targetTypeName t) (fun _ => True) :=
  yields_settledType fun _ hd => (moves_typeOfTarget hd t).imp fun _ _ _ _ => trivial

theorem yields_functionTypeName (name : String) :
    Yields p c (liftM (p.functionTypeName name)) (fun _ => True) := by
  refine .lift fun d hd _ => ?_
  have hm := moves_functionTypeWith (typer_blockType p) hd name
  refine ⟨?_, trivial⟩
  unfold functionTypeName functionType
  dsimp only
  cases hrun : p.functionTypeWith p.blockType name d with
  | ok n d' =>
    obtain ⟨hproceeds, _⟩ := Ensures.of_ok hm hrun
    exact trans_of (Proceeds p) hproceeds (proceeds_resolvedType (hproceeds hd).1 n)
  | error e d' => exact Ensures.of_error hm hrun

theorem yields_variableTypeName (v : BindingId) :
    Yields p c (liftM (variableTypeName v)) (fun _ => True) := by
  refine .lift fun d hd _ => ?_
  exact ⟨proceeds_resolvedType hd (d.binding v).node, trivial⟩

/-! ## Variables -/

theorem yields_fail (b : BlockRef) (cause : FaultCause) (Q : α → Prop) :
    Yields p c (p.fail b cause) Q :=
  fun d _ _ => Proceeds.refl p d

theorem outputName_of_advances {d : Compilation} (h : Advances c d) (v : BindingId) :
    d.outputName v = c.outputName v := by
  unfold Compilation.outputName
  rw [h.binding_eq]

theorem yields_lookup (b : BlockRef) (name : String) :
    Yields p c (p.lookup b name) (fun v => c.variableAt? b name = some v) := by
  unfold lookup
  refine .bind_get fun d hadv => ?_
  split
  · exact yields_fail b _ _
  · next s hs =>
    split
    · exact yields_fail b _ _
    · next v hv =>
      refine .pure ?_
      rw [← hadv.variableAt?_eq]
      exact Option.bind_eq_some_iff.mpr ⟨s, hs, hv⟩

theorem yields_variableName (b : BlockRef) (name : String) : Yields p c (p.variableName b name)
      (fun s => ∃ v, c.variableAt? b name = some v ∧ s = c.outputName v) :=
  (yields_lookup b name).bind fun v hv => .bind_get fun _ hadv =>
    .pure ⟨v, hv, outputName_of_advances hadv v⟩

theorem yields_report (b : BlockRef) (message : String) :
    Yields p c (liftM (p.report b message)) (fun _ => True) :=
  .lift fun _ _ _ => ⟨Proceeds.report b message, trivial⟩

/-! ## Declarations -/

theorem yields_emitDeclaration (v : BindingId) :
    Yields p c (liftM (emitDeclaration v)) (IsDeclaration c v) := by
  show Yields p c (liftM (variableTypeName v) >>= fun type => get >>= fun d =>
    pure (Code.statement [.ofText (declarationText (d.outputName v) type)])) _
  refine (yields_variableTypeName v).bind fun type _ => .bind_get fun d hadv => .pure ⟨type, ?_⟩
  rw [outputName_of_advances hadv]

theorem yields_emitDeclarations (b : BlockRef) : Yields p c (liftM (emitDeclarations b))
      (List.Forall₂ (IsDeclaration c) (c.declarationsAt b)) := by
  show Yields p c (get >>= fun d =>
    liftM (((d.blockDeclarations.get? b).getD []).mapM emitDeclaration)) _
  refine .bind_get fun d hadv => ?_
  rw [hadv.blockDeclarations, liftM_mapM]
  exact .mapM fun v _ => yields_emitDeclaration v

end BlockProgram
