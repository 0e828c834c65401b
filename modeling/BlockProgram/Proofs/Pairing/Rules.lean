import BlockProgram.Proofs.Pairing.Result

/-!
# The same typing rules

The typing rule of a block takes the same course in the two programs of a faithful pairing
(`typing_typeBlock`), and so does the pass over all blocks (`writing_infer`).
-/

namespace BlockProgram.Pairing

open Program List

variable {P : Pairing} {I : List String} {c d : Compilation} {b : BlockRef} {input : String}
  {t t' : Target}

/-! ## Steps that do not look at blocks -/

theorem pairs_acceptFirst (n : NodeId) (types : List TypeName) :
    Pairs (P.Abreast I) Eq (acceptFirst n types) (acceptFirst n types) := by
  induction types with
  | nil => exact Pairs.pure rfl
  | cons t r ih =>
    unfold acceptFirst
    refine Pairs.bind (pairs_graph _) ?_
    rintro node _ rfl
    cases node with
    | none => exact Pairs.pure rfl
    | some e =>
      refine Pairs.bind (pairs_uniteSucceeds n e) ?_
      rintro ok _ rfl
      split
      · exact Pairs.pure rfl
      · exact ih

theorem typing_typeGeneric (q : Parameter) (receiver : Option NodeId) (n : NodeId) :
    P.Typing I Eq (typeGeneric q receiver n) (typeGeneric q receiver n) := by
  unfold typeGeneric
  split
  · exact .pure rfl
  · refine .bind_eq (typing_graph _) ?_
    intro isArray
    split
    · exact typing_unify _
    · exact .pure rfl

section Faithful

variable (h : P.Faithful)
include h

theorem twins_fail {α : Type} {V : α → α → Prop} (cause : FaultCause) (hfail : P.MayFail) :
    Twins (fun _ => P.MayFail) (P.Abreast I) V (P.left.fail (P.embed b) cause)
      (P.right.fail b cause) := by
  unfold fail
  rw [h.ids]
  exact .throw hfail

/-! ## Lists -/

theorem typing_typeItems (list : NodeId) (items : List BlockRef) (hitems : ∀ t ∈ items, P.Asked t) :
    P.Typing [] Eq (P.left.typeItems list (items.map P.embed)) (P.right.typeItems list items) := by
  unfold typeItems
  refine .bind_eq (typing_graph _) ?_
  intro r
  refine .bind_get ?_
  intro c d hS
  rw [hS.graph]
  split
  · exact .pure rfl
  · refine Twins.forM (forall₂_map_left _ ?_)
    intro t ht
    refine .bind_eq (typing_blockType h (hitems t ht)) ?_
    intro n
    exact typing_unify _

theorem pairs_settleVariable (v : BindingId) :
    Pairs (P.Abreast I) Eq (settleVariable v) (settleVariable v) := by
  unfold settleVariable
  refine Pairs.bind_get ?_
  intro c d hS
  have hparameter : (c.binding v).isParameter = (d.binding v).isParameter := by
    rw [hS.left.binding, hS.right.binding, h.scopes.binding]
    rfl
  dsimp only
  rw [hS.bindingNode h v, hparameter]
  refine Pairs.bind (pairs_graph _) ?_
  rintro type _ rfl
  split
  · refine Pairs.bind (pairs_graph _) ?_
    rintro isArray _ rfl
    cases defaultType? (d.binding v).isParameter isArray with
    | none => exact Pairs.pure rfl
    | some t => exact pairs_graph _
  · exact Pairs.pure rfl

section Block

variable (hb : P.Reached b)
include hb

theorem Faithful.matches : P.Matches b :=
  h.asked b (h.reads.asked b hb)

/-! ## Inputs -/

theorem typing_inputType (hinput : input ∈ P.right.operands (P.right.block b)) :
    P.Typing [] Eq (P.left.inputType (P.embed b) input) (P.right.inputType b input) :=
  typing_attachedType h hb hinput (searches_blockType h inProgress_nil _)

theorem typing_typeOfTarget (hinput : input ∈ P.right.operands (P.right.block b))
    (hsupply : P.Supplies b input t t') :
    P.Typing [] Eq (P.left.typeOfTarget t) (P.right.typeOfTarget t') := by
  refine typing_targetType hsupply ?_
  intro x hx hlive
  exact typing_blockType h (h.reads.asked x (h.reached_target hb hinput hx hlive))

theorem typing_expectInput (hinput : input ∈ P.right.operands (P.right.block b)) (t : TypeName) :
    P.Typing [] Eq (P.left.expectInput (P.embed b) input t) (P.right.expectInput b input t) := by
  unfold expectInput
  refine .bind (.lift (pairs_attach h (h.matches hb) hinput (some t))) ?_
  intro target target' hsupply
  refine .bind_eq (typing_typeOfTarget h hb hinput hsupply) ?_
  intro n
  refine .bind_eq (typing_unify _) ?_
  intro _
  exact .pure rfl

theorem typing_expectInputs (t : TypeName) (inputs : List String)
    (hinputs : ∀ n ∈ inputs, n ∈ P.right.operands (P.right.block b)) :
    P.Typing [] Eq (P.left.expectInputs (P.embed b) t inputs)
      (P.right.expectInputs b t inputs) := by
  refine Twins.forM (forall₂_same.mpr ?_)
  intro n hn
  exact .bind_pure (typing_expectInput h hb (hinputs n hn) t)

/-! ## Variables -/

theorem typing_typesOfTarget (hinput : input ∈ P.right.operands (P.right.block b))
    (hsupply : P.Supplies b input t t') :
    P.Typing [] Eq (P.left.typesOfTarget t) (P.right.typesOfTarget t') := by
  have hsingle : P.Typing [] Eq (do return [← P.left.typeOfTarget t] : TypingM (List NodeId))
      (do return [← P.right.typeOfTarget t']) :=
    .bind_pure (typing_typeOfTarget h hb hinput hsupply)
  have hground : ∀ types : List TypeName, P.Typing [] Eq
      (types.mapM fun (t : TypeName) => (TypeGraph.ground t : TypingM NodeId))
      (types.mapM fun (t : TypeName) => (TypeGraph.ground t : TypingM NodeId)) :=
    fun types => Twins.mapM_eq (forall₂_same.mpr fun t _ => typing_graph _)
  obtain ⟨rfl, hblock⟩ := hsupply
  cases t' with
  | placeholder i => exact hsingle
  | block x =>
    obtain ⟨hx, hlive⟩ := hblock x rfl
    have houtput := (h.matches (h.reached_target hb hinput hx hlive)).output
    unfold typesOfTarget Target.rename
    dsimp only
    rw [houtput]
    split
    · exact hground _
    · exact hsingle

theorem typing_assign (n : NodeId) (hinput : input ∈ P.right.operands (P.right.block b))
    (hsupply : P.Supplies b input t t') :
    P.Typing [] Eq (P.left.assign n t) (P.right.assign n t') := by
  have hkeeps : P.left.keepsType = P.right.keepsType := by
    funext s t
    unfold keepsType areRelated
    rw [h.surface]
  unfold assign
  refine .bind_eq (typing_typesOfTarget h hb hinput hsupply) ?_
  intro types
  split
  · exact .pure rfl
  · refine .bind_eq (typing_graph _) ?_
    intro current
    refine .bind_eq (typing_graph _) ?_
    intro assigned
    rw [hkeeps]
    split
    · exact .pure rfl
    · exact typing_unify _

/-! ## Calls -/

theorem typing_typeArgument (name : String) (a : FunctionArg)
    (hinput : a.id ∈ P.right.operands (P.right.block b)) :
    P.Typing [] Eq (P.left.typeArgument (P.embed b) (P.left.functionScope? P.leftScopes name) a)
      (P.right.typeArgument b (P.right.functionScope? P.rightScopes name) a) := by
  unfold typeArgument
  refine .bind_eq (typing_inputType h hb hinput) ?_
  intro n
  refine .bind_get ?_
  intro c d hS
  have hparameter : ((P.left.functionScope? P.leftScopes name).bind fun s =>
      (c.scope s).declared.get? a.name) = (P.right.functionScope? P.rightScopes name).bind fun s =>
        (d.scope s).declared.get? a.name := by
    simp only [hS.left.scope, hS.right.scope]
    exact h.scopes.parameters name a.name
  rw [hparameter]
  split
  · next v _ =>
    rw [hS.bindingNode h v]
    exact typing_unify _
  · exact typing_unify _

theorem typing_typeFunctionCall
    (hinputs : ∀ a ∈ (P.right.block b).args, a.id ∈ P.right.operands (P.right.block b)) :
    P.Typing [] Eq (P.left.typeFunctionCall (P.embed b)) (P.right.typeFunctionCall b) := by
  unfold typeFunctionCall
  rw [(h.matches hb).signature]
  cases hsignature : (P.right.block b).signature with
  | none => exact .pure rfl
  | some s =>
    refine .bind_get ?_
    intro c d hS
    rw [hS.left.functionScope?, hS.right.functionScope?]
    refine Twins.forM (forall₂_same.mpr ?_)
    intro a ha
    refine typing_typeArgument h hb s.name a (hinputs a ?_)
    unfold Block.args
    rw [hsignature]
    exact ha

theorem typing_typeParameter {name : String} (hkind : (P.right.block b).kind = .hostCall name)
    (q : Parameter)
    (hinput : q.inputOn (P.right.block b).mutation ∈ P.right.operands (P.right.block b))
    (receiver : Option NodeId) :
    P.Typing [] Eq (P.left.typeParameter (P.embed b) receiver q)
      (P.right.typeParameter b receiver q) := by
  unfold typeParameter
  dsimp only
  rw [(h.matches hb).mutation, h.typed b name hb hkind _ hinput]
  split
  · refine .bind (.lift (pairs_attach h (h.matches hb) hinput _)) ?_
    intro target target' hsupply
    refine .bind_eq (typing_typeOfTarget h hb hinput hsupply) ?_
    intro n
    refine .bind_eq (typing_typeGeneric q receiver n) ?_
    intro _
    refine .bind_eq (.lift (pairs_acceptFirst n q.checks)) ?_
    intro _
    exact .pure rfl
  · exact .pure rfl

theorem typing_typeHostCall {name : String} (hkind : (P.right.block b).kind = .hostCall name) :
    P.Typing [] Eq (P.left.typeHostCall (P.embed b) name) (P.right.typeHostCall b name) := by
  unfold typeHostCall
  rw [h.surface]
  cases hsymbol : P.right.surface.symbol? name with
  | none =>
    refine typing_compile (twins_fail h _ ?_)
    rcases h.scopes.symbols b name hb hkind with hfail | hsome
    · exact hfail
    · rw [hsymbol] at hsome
      cases hsome
  | some symbol =>
    refine .bind_pure (Twins.foldlM ?_ rfl)
    rintro q hq receiver _ rfl
    refine typing_typeParameter h hb hkind q (mem_operands_host hkind hsymbol ?_) receiver
    exact .tail _ (mem_append_left _ (mem_map_of_mem hq))

/-! ## All blocks -/

theorem typing_expectOperands {kind : BlockKind} (hkind : (P.right.block b).kind = kind)
    (t : TypeName) {inputs : List String}
    (hinputs : inputs ⊆ P.right.kindOperands (P.right.block b) kind) :
    P.Typing [] Eq (P.left.expectInputs (P.embed b) t inputs) (P.right.expectInputs b t inputs) :=
  typing_expectInputs h hb t inputs fun _ hn => mem_operands hkind (hinputs hn)

theorem typing_variableOf {kind : BlockKind} (hkind : (P.right.block b).kind = kind) {n : String}
    (hn : n ∈ P.right.lookups (P.right.block b) kind) :
    P.Typing [] Eq (P.left.variableType (P.embed b) n) (P.right.variableType b n) :=
  typing_variableType h (twins_lookup_reached h hb hkind hn)

theorem typing_listCreate (hkind : (P.right.block b).kind = .listCreate) :
    P.Typing [] Eq (do
        let list ← P.left.blockType (P.embed b)
        P.left.typeItems list
          ((itemTargets (P.left.block (P.embed b))).filter (P.left.isLive (← get))))
      (do
        let list ← P.right.blockType b
        P.right.typeItems list
          ((itemTargets (P.right.block b)).filter (P.right.isLive (← get)))) := by
  refine .bind_eq (typing_blockType h (h.reads.asked b hb)) ?_
  intro list
  refine .bind_get ?_
  intro c d hS
  have hlive : P.leftLive ∘ P.embed = P.rightLive := funext h.live
  rw [(h.matches hb).itemTargets hkind, hS.leftLive, hS.rightLive, filter_map, hlive]
  refine typing_typeItems h list _ ?_
  intro t ht
  obtain ⟨hmem, hlive⟩ := mem_filter.mp ht
  obtain ⟨i, hi, hit⟩ := mem_filterMap.mp hmem
  exact h.reads.item b (h.reads.asked b hb) hkind i hi t hit hlive

/-- The typing rule of a block that is reached takes the same course. -/
theorem typing_typeBlock : P.Typing [] Eq (P.left.typeBlock (P.embed b)) (P.right.typeBlock b) := by
  have hm := h.matches hb
  have hvar : (P.right.block b).variableField?.getD "" ∈
      [(P.right.block b).variableField?.getD ""] := (.head _)
  unfold typeBlock
  dsimp only
  rw [hm.kind, hm.variableField?, hm.valueNames, hm.numberedNames, hm.hasInput, hm.functionName?,
    hm.lengthInput]
  split
  iterate 2 next hkind =>
    refine typing_expectOperands h hb hkind _ ?_
    exact subset_cons_of_subset _ (subset_cons_self _ _)
  iterate 2 next hkind => exact typing_expectOperands h hb hkind _ (List.Subset.refl _)
  · next op hkind =>
    split
    · refine .bind_eq (typing_inputType h hb (mem_operands hkind ?_)) ?_
      · exact .head _
      · intro l
        refine .bind_eq (typing_inputType h hb (mem_operands hkind (.tail _ (.head _)))) ?_
        intro r
        exact typing_unify _
    · exact typing_expectOperands h hb hkind _ (List.Subset.refl _)
  iterate 6 next hkind => exact typing_expectOperands h hb hkind _ (List.Subset.refl _)
  · next hkind =>
    refine typing_expectOperands h hb hkind _ ?_
    split
    · exact List.Subset.refl _
    · exact subset_cons_self _ _
  · next hkind =>
    refine .bind_eq (typing_expectInput h hb (mem_operands hkind (.head _)) _) ?_
    intro list
    refine .bind_eq (typing_variableOf h hb hkind hvar) ?_
    intro element
    exact typing_unify _
  · next hkind =>
    have hinput : "VALUE" ∈ P.right.operands (P.right.block b) :=
      mem_operands hkind (.head _)
    refine .bind_eq (typing_variableOf h hb hkind hvar) ?_
    intro n
    refine .bind (.lift (pairs_attach h hm hinput none)) ?_
    intro t t' hsupply
    exact typing_assign h hb n hinput hsupply
  · next hkind =>
    refine .bind_eq (typing_variableOf h hb hkind hvar) ?_
    intro n
    refine .bind_eq (typing_unify _) ?_
    intro _
    exact typing_expectOperands h hb hkind _ (List.Subset.refl _)
  · next hkind =>
    refine .bind_eq (typing_expectOperands h hb hkind _ ?_) ?_
    · exact cons_subset_cons _ (nil_subset _)
    · intro _
      refine .bind_eq (typing_expectOperands h hb hkind _ ?_) ?_
      · exact subset_cons_self _ _
      · intro _
        exact .bind_pure (typing_blockType h (h.reads.asked b hb))
  · next hkind =>
    refine .bind_eq (typing_expectInput h hb (mem_operands hkind (.head _)) _) ?_
    intro list
    refine .bind_eq (typing_expectOperands h hb hkind _ ?_) ?_
    · exact subset_cons_of_subset _ (cons_subset_cons _ (nil_subset _))
    · intro _
      refine .bind_eq (typing_inputType h hb (mem_operands hkind (.tail _ (.tail _ (.head _))))) ?_
      intro value
      exact typing_unify _
  · next hkind => exact typing_expectOperands h hb hkind _ (List.Subset.refl _)
  · next hkind => exact typing_listCreate h hb hkind
  · next hkind =>
    cases (P.right.block b).functionName? with
    | none => exact .pure rfl
    | some name =>
      exact .bind_pure (typing_functionType h name)
  iterate 2 next hkind =>
    refine typing_typeFunctionCall h hb ?_
    exact fun a ha => mem_operands hkind (mem_map_of_mem ha)
  · next name hkind => exact typing_typeHostCall h hb hkind
  · exact .pure rfl

theorem writing_checkBlock :
    P.Writing Eq (P.left.checkBlock (P.embed b)) (P.right.checkBlock b) := by
  intro c d hS
  have hrun := typing_typeBlock h hb c d hS
  unfold checkBlock
  generalize P.left.typeBlock (P.embed b) c = x at hrun
  generalize P.right.typeBlock b d = y at hrun
  cases hrun with
  | ok hV hS' => exact .ok rfl hS'
  | @error e _ _ hallowed hS' =>
    cases e with
    | mismatch m => exact .ok rfl (pairs_report h b m.message _ _ hS').2
    | fault f => exact .error hallowed hS'

end Block

/-- The pass over all blocks takes the same course, if it comes to the same blocks. -/
theorem writing_infer (hrefs : P.left.workspace.refs.filter (P.left.isChecked P.leftScopes) =
      (P.right.workspace.refs.filter (P.right.isChecked P.rightScopes)).map P.embed)
    (hreached : ∀ b ∈ P.right.workspace.refs, P.right.isChecked P.rightScopes b → P.Reached b) :
    P.Writing Eq P.left.infer P.right.infer := by
  have hleft : ∀ c d, P.Abreast [] c d → P.left.isChecked c = P.left.isChecked P.leftScopes := by
    intro c d hS
    funext b
    unfold isChecked
    rw [hS.leftLive, hS.left.blockScope]
    rfl
  have hright : ∀ c d, P.Abreast [] c d →
    P.right.isChecked d = P.right.isChecked P.rightScopes := by
    intro c d hS
    funext b
    unfold isChecked
    rw [hS.rightLive, hS.right.blockScope]
    rfl
  unfold infer
  refine .bind_eq (Twins.forM_filter _ _ (p := P.left.isChecked P.leftScopes)
    (q := P.right.isChecked P.rightScopes) ?_ ?_ ?_) ?_
  · intro b hb c d hS
    rw [run_bind_get, hleft c d hS, hb]
    rfl
  · intro b hb c d hS
    rw [run_bind_get, hright c d hS, hb]
    rfl
  · rw [hrefs]
    refine forall₂_map_left _ ?_
    intro b hb
    obtain ⟨hmem, hchecked⟩ := mem_filter.mp hb
    have hchecked' : P.left.isChecked P.leftScopes (P.embed b) = true := by
      have himage := mem_map_of_mem (f := P.embed) hb
      rw [← hrefs] at himage
      exact (mem_filter.mp himage).2
    refine .bind_get ?_
    intro c d hS
    rw [hleft c d hS, hright c d hS, hchecked, hchecked']
    exact writing_checkBlock h (hreached b hmem hchecked)
  · intro _
    refine .bind_get ?_
    intro c d hS
    rw [hS.left.bindings, hS.right.bindings, h.scopes.bindings]
    refine Twins.forM (forall₂_same.mpr ?_)
    intro v _
    exact .lift (pairs_settleVariable h v)

end Faithful

end BlockProgram.Pairing
