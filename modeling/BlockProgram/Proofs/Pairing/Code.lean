import BlockProgram.Proofs.Pairing.Emit

/-!
# The same program

Expressions, statements and the whole program are written the same way in the two programs of a
faithful pairing (`writing_emitProgram`). Code for a block takes as many levels as there are blocks
inside it, so the emitters of both programs go deep enough (`emitsAlike_emitterFrom`).
-/

namespace BlockProgram.Pairing

open Program Workspace List

variable {P : Pairing} {I : List String} {c d : Compilation} {b : BlockRef} {E E' : Emitter}

section Block

variable (h : P.Faithful) (hb : P.Reached b) (hE : P.EmitsInputs E E' b)
include h hb hE

/-! ## Expressions -/

variable {kind : BlockKind} (hkind : (P.right.block b).kind = kind)

include hkind in
theorem writing_emitBinary {left right : String} {rest : List String} (op : String)
    (hinputs : P.right.kindOperands (P.right.block b) kind = left :: right :: rest) :
    P.Writing Eq (P.left.emitBinary E (P.embed b) left op right)
      (P.right.emitBinary E' b left op right) := by
  have hinput : ∀ n ∈ left :: right :: rest,
      P.Writing Eq (P.left.emitInput E (P.embed b) n) (P.right.emitInput E' b n) := by
    rw [← hinputs]
    exact fun n hn => writing_operand h hb hE hkind hn
  unfold emitBinary
  refine .bind_eq (hinput left (.head _)) ?_
  intro l
  exact .bind_pure (hinput right (.tail _ (.head _)))

theorem writing_emitFirstPart {input : String}
    (hinput : input ∈ P.right.operands (P.right.block b)) :
    P.Writing Eq (P.left.emitFirstPart E (P.embed b) input) (P.right.emitFirstPart E' b input) := by
  unfold emitFirstPart
  refine .bind (.lift (pairs_attach h (h.matches hb) hinput none)) ?_
  intro t t' hsupply
  refine .bind_eq (writing_targetTypeName h hb hinput hsupply) ?_
  intro type
  exact .bind_pure (writing_emitTarget h hb hE hinput hsupply)

theorem writing_emitTextJoin {inputs : List String}
    (hinputs : ∀ n ∈ inputs, n ∈ P.right.operands (P.right.block b)) :
    P.Writing Eq (P.left.emitTextJoin E (P.embed b) inputs) (P.right.emitTextJoin E' b inputs) := by
  cases inputs with
  | nil => exact .pure rfl
  | cons input inputs =>
    unfold emitTextJoin
    refine .bind_eq (writing_emitFirstPart h hb hE (hinputs input (.head _))) ?_
    rintro ⟨isText, first⟩
    refine .bind_pure (writing_emitInputs h hb hE ?_)
    exact fun n hn => hinputs n (.tail input hn)

theorem writing_emitIndexed (hkind : (P.right.block b).kind = .listIndexGet) :
    P.WritesAlike E E' b emitIndexed := by
  unfold WritesAlike emitIndexed
  refine .bind_eq (writing_operand h hb hE hkind (.head _)) ?_
  intro list
  exact .bind_pure (writing_operand h hb hE hkind (.tail _ (.head _)))

omit hE in
theorem writing_emitDefault :
    P.Writing Eq (P.left.emitDefault (P.embed b)) (P.right.emitDefault b) := by
  unfold emitDefault
  refine .bind_pure (writing_settledType ?_)
  exact typing_blockType h (h.reads.asked b hb)

theorem writing_expressionStep : P.WritesAlike E E' b expressionStep := by
  have hm := h.matches hb
  have hitems : itemInputs (P.left.block (P.embed b)) =
      itemInputs (P.right.block b) := hm.numberedNames "ADD"
  unfold WritesAlike expressionStep
  simp only [hm.kind, hm.field?, hm.variableField?, hm.fields, hm.valueNames, hm.lengthInput,
    hitems]
  split
  iterate 4 exact .pure rfl
  iterate 2 next hkind => exact .bind_pure (writing_variableName h hb hkind (.head _))
  iterate 3 next hkind => exact writing_emitBinary h hb hE hkind _ rfl
  · next op hkind =>
    refine .bind_eq (writing_operand h hb hE hkind (.head _)) ?_
    intro l
    exact .bind_pure (writing_operand h hb hE hkind (.tail _ (.head _)))
  · next hkind => exact .bind_pure (writing_operand h hb hE hkind (.head _))
  iterate 2 next hkind => exact .bind_pure (writing_operands h hb hE hkind)
  · next hkind => exact writing_emitTextJoin h hb hE fun n hn => mem_operands hkind hn
  · next hkind => exact .bind_pure (writing_operand h hb hE hkind (.head _))
  · next hkind => exact .bind_pure (writing_operands h hb hE hkind)
  · next hkind => exact writing_emitIndexed h hb hE hkind
  · next hkind => exact .bind_pure (writing_operand h hb hE hkind (.head _))
  · next hkind =>
    refine writing_emitFunctionCall h hb hE ?_
    exact fun a ha => mem_operands hkind (mem_map_of_mem ha)
  · exact .pure rfl
  · next name hkind => exact writing_emitHostCall h hb hE hkind
  · exact writing_emitDefault h hb

/-! ## Assignments -/

omit hb hE in
theorem Abreast.isDeclaring (hS : P.Abreast I c d) (v : BindingId) :
    isDeclaring (c.binding v) (P.embed b) = isDeclaring (d.binding v) b := by
  have hfirst : ((d.binding v).first.map P.embed == some (P.embed b)) =
      ((d.binding v).first == some b) := by
    rw [Bool.eq_iff_iff, beq_iff_eq, beq_iff_eq]
    exact (Option.map_injective h.injective).eq_iff (b := some b)
  have hbinding : c.binding v = (d.binding v).rename P.embed := by
    rw [hS.left.binding, hS.right.binding, h.scopes.binding]
  rw [hbinding]
  show ((d.binding v).declared == some .assigned &&
    ((d.binding v).first.map P.embed == some (P.embed b))) = _
  rw [hfirst]
  rfl

omit hE in
theorem writing_assignmentHead (v : BindingId) {input : String}
    (hinput : input ∈ P.right.operands (P.right.block b)) {t t' : Target}
    (hsupply : P.Supplies b input t t') (value : Code) :
    P.Writing Eq (P.left.assignmentHead (P.embed b) v t value)
      (P.right.assignmentHead b v t' value) := by
  unfold assignmentHead
  refine .bind_get ?_
  intro c d hS
  dsimp only
  rw [hS.isDeclaring h, hS.outputName h v]
  split
  · refine .bind_eq (.lift (pairs_variableTypeName h v)) ?_
    intro declared
    refine .bind_eq (writing_targetTypeName h hb hinput hsupply) ?_
    intro assigned
    exact .pure rfl
  · exact .pure rfl

theorem writing_emitSet (hkind : (P.right.block b).kind = .variableSet) :
    P.WritesAlike E E' b emitSet := by
  have hinput : "VALUE" ∈ P.right.operands (P.right.block b) :=
    mem_operands hkind (.head _)
  unfold WritesAlike emitSet
  rw [(h.matches hb).variableField?]
  refine .bind_eq (twins_lookup_reached h hb hkind (.head _)) ?_
  intro v
  refine .bind (.lift (pairs_attach h (h.matches hb) hinput none)) ?_
  intro t t' hsupply
  refine .bind_eq (writing_emitTarget h hb hE hinput hsupply) ?_
  intro value
  exact .bind_pure (writing_assignmentHead h hb v hinput hsupply value)

theorem writing_emitChange (hkind : (P.right.block b).kind = .variableChange) :
    P.WritesAlike E E' b emitChange := by
  unfold WritesAlike emitChange
  rw [(h.matches hb).variableField?]
  refine .bind_eq (writing_variableName h hb hkind (.head _)) ?_
  intro name
  exact .bind_pure (writing_operand h hb hE hkind (.head _))

theorem writing_emitIndexSet (hkind : (P.right.block b).kind = .listIndexSet) :
    P.WritesAlike E E' b emitIndexSet := by
  have hinput : ∀ n ∈ ["LIST", "INDEX", "VALUE"],
      P.Writing Eq (P.left.emitInput E (P.embed b) n) (P.right.emitInput E' b n) :=
    fun n hn => writing_emitInput h hb hE (mem_operands hkind hn)
  unfold WritesAlike emitIndexSet
  refine .bind_eq (hinput _ (by decide)) ?_
  intro list
  refine .bind_eq (hinput _ (by decide)) ?_
  intro index
  exact .bind_pure (hinput _ (by decide))

/-! ## Conditions and loops -/

theorem writing_emitBranches (hkind : P.right.kind b ≠ .onStart) (conditions : List String)
    (lead : String) (hconditions : ∀ n ∈ conditions, n ∈ P.right.operands (P.right.block b)) :
    P.Writing Eq (P.left.emitBranches E (P.embed b) lead conditions)
      (P.right.emitBranches E' b lead conditions) := by
  induction conditions generalizing lead with
  | nil => exact .pure rfl
  | cons condition r ih =>
    unfold emitBranches
    refine .bind_eq (writing_emitInput h hb hE (hconditions _ (.head _))) ?_
    intro test
    refine .bind_eq (writing_emitBody_input h hb hE hkind _) ?_
    intro body
    refine .bind_pure (ih _ ?_)
    exact fun n hn => hconditions n (.tail condition hn)

theorem writing_emitConditional (hkind : (P.right.block b).kind = .conditional) :
    P.WritesAlike E E' b emitConditional := by
  have hstart : P.right.kind b ≠ .onStart := ne_onStart hkind BlockKind.noConfusion
  unfold WritesAlike emitConditional
  dsimp only
  rw [(h.matches hb).numberedNames]
  refine .bind_eq (writing_emitBranches h hb hE hstart _ _ ?_) ?_
  · exact fun n hn => mem_operands hkind hn
  · intro branches
    refine .bind_pure ?_
    rcases (h.matches hb).input? "ELSE" with ⟨hi, hj⟩ | ⟨i, j, hi, hj, hij⟩
    · rw [hi, hj]
      exact .pure rfl
    · rw [hi, hj]
      refine .map (writing_emitBody h hb hE hstart hij.chain ?_) ?_
      · exact fun t ht => ⟨j, mem_of_find?_eq_some hj, ht⟩
      · rintro code _ rfl
        rfl

include hkind in
theorem writing_emitLoopBody (hne : kind ≠ .onStart) : P.WritesAlike E E' b emitLoopBody :=
  writing_emitBody_input h hb hE (ne_onStart hkind hne) "DO"

theorem writing_emitRepeat (hkind : (P.right.block b).kind = .repeatTimes) :
    P.WritesAlike E E' b emitRepeat := by
  unfold WritesAlike emitRepeat
  refine .bind_eq (writing_variableName h hb hkind (.head _)) ?_
  intro i
  refine .bind_eq (writing_operand h hb hE hkind (.head _)) ?_
  intro times
  exact .bind_pure (writing_emitLoopBody h hb hE hkind BlockKind.noConfusion)

theorem writing_emitWhile (hkind : (P.right.block b).kind = .whileLoop) :
    P.WritesAlike E E' b emitWhile := by
  unfold WritesAlike emitWhile
  rw [(h.matches hb).field?]
  refine .bind_eq (writing_operand h hb hE hkind (.head _)) ?_
  intro condition
  exact .bind_pure (writing_emitLoopBody h hb hE hkind BlockKind.noConfusion)

theorem writing_emitFrom (hkind : (P.right.block b).kind = .forRange) :
    P.WritesAlike E E' b emitFrom := by
  unfold WritesAlike emitFrom
  rw [(h.matches hb).hasInput]
  split
  · exact writing_operand h hb hE hkind (.head _)
  · exact .pure rfl

theorem writing_emitForRange (hkind : (P.right.block b).kind = .forRange) :
    P.WritesAlike E E' b emitForRange := by
  unfold WritesAlike emitForRange
  rw [(h.matches hb).variableField?]
  refine .bind_eq (writing_variableName h hb hkind (.head _)) ?_
  intro i
  refine .bind_eq (writing_emitFrom h hb hE hkind) ?_
  intro start
  refine .bind_eq (writing_operand h hb hE hkind (.tail _ (.head _))) ?_
  intro stop
  exact .bind_pure (writing_emitLoopBody h hb hE hkind BlockKind.noConfusion)

theorem writing_emitForOf (hkind : (P.right.block b).kind = .forOf) :
    P.WritesAlike E E' b emitForOf := by
  unfold WritesAlike emitForOf
  rw [(h.matches hb).variableField?]
  refine .bind_eq (writing_variableName h hb hkind (.head _)) ?_
  intro x
  refine .bind_eq (writing_operand h hb hE hkind (.head _)) ?_
  intro list
  exact .bind_pure (writing_emitLoopBody h hb hE hkind BlockKind.noConfusion)

/-! ## User functions -/

theorem writing_emitReturn (hkind : (P.right.block b).kind = .functionReturn) :
    P.WritesAlike E E' b emitReturn := by
  unfold WritesAlike emitReturn
  rw [(h.matches hb).hasInput]
  split
  · exact .bind_pure (writing_operand h hb hE hkind (.head _))
  · exact .pure rfl

omit hE in
theorem writing_emitParameter (hkind : (P.right.block b).kind = .functionDefinition)
    {a : FunctionArg} (ha : a ∈ (P.right.block b).args) :
    P.Writing Eq (P.left.emitParameter (P.embed b) a) (P.right.emitParameter b a) := by
  unfold emitParameter
  refine .bind_eq (twins_lookup_reached h hb hkind (mem_map_of_mem ha)) ?_
  intro v
  refine .bind_eq (.lift (pairs_variableTypeName h v)) ?_
  intro type
  refine .bind_get ?_
  intro c d hS
  rw [hS.outputName h v]
  exact .pure rfl

omit hb hE in
theorem pairs_functionTypeName (name : String) :
    Pairs (P.Abreast []) Eq (P.left.functionTypeName name) (P.right.functionTypeName name) := by
  intro c d hS
  have hrun := typing_functionType h name c d hS
  unfold functionTypeName
  generalize P.left.functionType name c = x at hrun
  generalize P.right.functionType name d = y at hrun
  cases hrun with
  | ok hV hS' =>
    subst hV
    dsimp only
    rw [hS'.graph]
    exact ⟨rfl, hS'.setGraph _⟩
  | error _ hS' => exact ⟨rfl, hS'⟩

theorem writing_emitFunction (hkind : (P.right.block b).kind = .functionDefinition)
    (name : String) :
    P.Writing Eq (P.left.emitFunction E (P.embed b) name) (P.right.emitFunction E' b name) := by
  unfold emitFunction
  dsimp only
  rw [(h.matches hb).args]
  refine .bind_eq (Twins.mapM_eq (forall₂_same.mpr ?_)) ?_
  · exact fun a ha => writing_emitParameter h hb hkind ha
  · intro parameters
    refine .bind_eq (.lift (pairs_functionTypeName h name)) ?_
    intro result
    exact .bind_pure (writing_emitBody_first h hb hE (ne_onStart hkind BlockKind.noConfusion))

theorem writing_emitFunctionDefinition (hkind : (P.right.block b).kind = .functionDefinition) :
    P.WritesAlike E E' b emitFunctionDefinition := by
  unfold WritesAlike emitFunctionDefinition
  rw [(h.matches hb).functionName?]
  cases hname : (P.right.block b).functionName? with
  | some name => exact writing_emitFunction h hb hE hkind name
  | none =>
    refine twins_fail h _ ?_
    rcases h.scopes.functions b hb hkind with hfail | hsome
    · exact hfail
    · rw [hname] at hsome
      cases hsome

/-! ## Statements -/

theorem writing_emitHostStatement {name : String}
    (hkind : (P.right.block b).kind = .hostCall name) :
    P.Writing Eq (P.left.emitHostStatement E (P.embed b) name)
      (P.right.emitHostStatement E' b name) := by
  have htakes : P.left.takesHandler name = P.right.takesHandler name := by
    unfold takesHandler
    rw [h.surface]
  unfold emitHostStatement
  rw [htakes]
  exact .bind_pure (writing_emitHostCall h hb hE hkind)

theorem writing_emitUnknown : P.WritesAlike E E' b emitUnknown := by
  unfold WritesAlike emitUnknown
  rw [(h.matches hb).hasOutput, (h.matches hb).tag]
  split
  · exact .bind_pure (writing_expressionStep h hb hE)
  · exact .bind_pure (.lift (pairs_report h b _))

theorem writing_emitStart (hkind : (P.right.block b).kind = .onStart) : P.Writing Eq
      (P.left.emitChain E ((P.left.block (P.embed b)).statementInputs.findSome? (·.target)))
      (P.right.emitChain E' ((P.right.block b).statementInputs.findSome? (·.target))) := by
  refine writing_emitChain_input h hb hE ((h.matches hb).start hkind) ?_
  cases hfirst : (P.right.block b).statementInputs.findSome? (·.target) with
  | none => exact .inl rfl
  | some t =>
    obtain ⟨i, hi, hit⟩ := exists_of_findSome?_eq_some hfirst
    obtain ⟨hmem, hstatement⟩ := mem_filter.mp hi
    exact .inr ⟨i, hmem, hit, .inl (eq_of_beq hstatement)⟩

theorem writing_emitLines : P.WritesAlike E E' b emitLines := by
  have hm := h.matches hb
  unfold WritesAlike emitLines
  dsimp only
  rw [hm.kind, hm.field?]
  split
  · next hkind => exact writing_emitStart h hb hE hkind
  · next hkind => exact .bind_pure (writing_emitSet h hb hE hkind)
  · next hkind => exact .bind_pure (writing_emitChange h hb hE hkind)
  · next hkind => exact .bind_pure (writing_emitConditional h hb hE hkind)
  · next hkind => exact .bind_pure (writing_emitRepeat h hb hE hkind)
  · next hkind => exact .bind_pure (writing_emitWhile h hb hE hkind)
  · next hkind => exact .bind_pure (writing_emitForRange h hb hE hkind)
  · next hkind => exact .bind_pure (writing_emitForOf h hb hE hkind)
  · exact .pure rfl
  · exact .pure rfl
  · next hkind => exact .bind_pure (writing_emitIndexSet h hb hE hkind)
  · next hkind => exact .bind_pure (writing_emitFunctionDefinition h hb hE hkind)
  · next hkind =>
    refine .bind_pure (writing_emitFunctionCall h hb hE ?_)
    exact fun a ha => mem_operands hkind (mem_map_of_mem ha)
  · next hkind => exact .bind_pure (writing_emitReturn h hb hE hkind)
  · exact .pure rfl
  · next name hkind => exact .bind_pure (writing_emitHostStatement h hb hE hkind)
  · exact writing_emitUnknown h hb hE
  · exact .bind_pure (writing_expressionStep h hb hE)

theorem writing_statementStep : P.WritesAlike E E' b statementStep := by
  unfold WritesAlike statementStep
  rw [h.ids]
  exact .bind_pure (writing_emitLines h hb hE)

end Block

/-! ## All blocks -/

section Program

variable (h : P.Faithful)
include h

omit h in
/-- A statement in an input of a block reaches less far than the block. -/
theorem reach_lt_of_mem_chain {ws : Workspace} (hws : ws.Sound) {i : Input}
    (hi : i ∈ (ws.block b).inputs) {x : BlockRef} (hx : x ∈ ws.chain i.target) :
    ws.reach x < ws.reach b := by
  cases ht : i.target with
  | none =>
    rw [ht, chain_none] at hx
    cases hx
  | some t =>
    rw [ht] at hx
    have hchild := mem_children_of_input hi ht
    have hunder := under_of_mem_chain hws (hws.child_lt b t hchild) hx
    exact lt_of_le_of_lt hunder.reach_le (reach_lt hws hchild)

/-- The emitters make the same code for a block if they go as many levels deep as it has blocks. -/
theorem emitsAlike_emitterFrom (n m : Nat) (hb : P.Reached b)
    (hleft : P.left.workspace.reach (P.embed b) ≤ n) (hright : P.right.workspace.reach b ≤ m) :
    P.EmitsAlike (P.left.emitterFrom n) (P.right.emitterFrom m) b := by
  obtain ⟨hltleft, hltright⟩ := h.reads.lt b (h.reads.asked b hb)
  induction n generalizing m b with
  | zero =>
    have hpos := reach_pos hltleft
    omega
  | succ n ih =>
    cases m with
    | zero =>
      have hpos := reach_pos hltright
      omega
    | succ m =>
      have hm := h.matches hb
      have hlower : ∀ x, P.Reached x →
          P.left.workspace.reach (P.embed x) < P.left.workspace.reach (P.embed b) →
          P.right.workspace.reach x < P.right.workspace.reach b →
            P.EmitsAlike (P.left.emitterFrom n) (P.right.emitterFrom m) x := by
        intro x hx hxleft hxright
        obtain ⟨hxl, hxr⟩ := h.reads.lt x (h.reads.asked x hx)
        exact ih m hx (by omega) (by omega) hxl hxr
      have hE : P.EmitsInputs (P.left.emitterFrom n) (P.right.emitterFrom m) b := by
        refine ⟨?_, ?_⟩
        · intro input hinput t ht hlive
          have hbelow := hm.below hinput ht
          exact hlower t (h.reached_target hb hinput ht hlive) (reach_lt h.left_sound hbelow.left)
            (reach_lt h.right_sound hbelow.right)
        · intro j hj hkind x hx hlive
          obtain ⟨i, hi, hij⟩ := exists_left_of_forall₂ hm.inputs hj
          have hximage : P.embed x ∈ P.left.workspace.chain i.target := by
            have hmem := mem_map_of_mem (f := P.embed) (mem_filter.mpr ⟨hx, hlive⟩)
            rw [← hij.chain] at hmem
            exact mem_of_mem_filter hmem
          exact hlower x (h.reads.chain b hb j hj hkind x hx hlive)
            (reach_lt_of_mem_chain h.left_sound hi hximage)
            (reach_lt_of_mem_chain h.right_sound hj hx)
      exact ⟨writing_expressionStep h hb hE, writing_statementStep h hb hE⟩

theorem emitsAlike_emitter (hb : P.Reached b) : P.EmitsAlike P.left.emitter P.right.emitter b :=
  emitsAlike_emitterFrom h _ _ hb (reach_le _) (reach_le _)

/-! ## The whole program -/

theorem pairs_emitRootDeclarations :
    Pairs (P.Abreast I) Eq emitRootDeclarations emitRootDeclarations := by
  unfold emitRootDeclarations
  refine Pairs.bind_get ?_
  intro c d hS
  have hhidden : (fun v => !(c.binding v).isHidden) = fun v => !(d.binding v).isHidden := by
    funext v
    rw [hS.left.binding, hS.right.binding, h.scopes.binding]
    rfl
  dsimp only
  rw [hhidden, hS.left.rootDeclarations, hS.right.rootDeclarations, h.scopes.rootDeclarations]
  refine Pairs.bind (Pairs.mapM_eq (forall₂_same.mpr ?_)) ?_
  · exact fun v _ => pairs_emitDeclaration h v
  · rintro declarations _ rfl
    exact Pairs.pure rfl

/-- What is reached of a top block. -/
def TopReached (P : Pairing) (top : BlockRef × TopRole) : Prop :=
  match top.2 with
  | .looseChain =>
    P.SameChain (some (P.embed top.1)) (some top.1) ∧
      ∀ x ∈ P.right.workspace.chain (some top.1), P.rightLive x = true → P.Reached x
  | .start | .container => P.Reached top.1

theorem writing_emitTop {top : BlockRef × TopRole} (htop : P.TopReached top) :
    P.Writing Eq (P.left.emitTop (P.embed top.1, top.2)) (P.right.emitTop top) := by
  obtain ⟨b, role⟩ := top
  unfold emitTop
  refine .bind_pure ?_
  cases role with
  | looseChain =>
    obtain ⟨hchain, hreached⟩ := htop
    exact writing_emitChain h hchain hreached
      fun x hx hlive => emitsAlike_emitter h (hreached x hx hlive)
  | start => exact writing_emitLink h htop (emitsAlike_emitter h htop)
  | container => exact writing_emitLink h htop (emitsAlike_emitter h htop)

theorem writing_emitProgram {tops : List (BlockRef × TopRole)}
    (htops : ∀ top ∈ tops, P.TopReached top) :
    P.Writing Eq (P.left.emitProgram (tops.map fun top => (P.embed top.1, top.2)))
      (P.right.emitProgram tops) := by
  have hhost : P.left.hostDeclarations = P.right.hostDeclarations := by
    unfold hostDeclarations
    rw [h.surface, h.vars]
  unfold emitProgram
  rw [hhost]
  refine .bind_eq (.lift (pairs_emitRootDeclarations h)) ?_
  intro declarations
  refine .bind_pure (Twins.mapM_eq (forall₂_map_left _ ?_))
  exact fun top htop => writing_emitTop h (htops top htop)

end Program

end BlockProgram.Pairing
