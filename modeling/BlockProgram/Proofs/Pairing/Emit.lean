import BlockProgram.Proofs.Pairing.Rules

/-!
# The same code

Code for a block that is reached is the same in the two programs of a faithful pairing, given that
code for the blocks in its inputs is (`EmitsInputs`). There is one lemma for each function that
makes code, in the order of those functions.
-/

namespace BlockProgram.Pairing

open Program List

variable {P : Pairing} {I : List String} {c d : Compilation} {b : BlockRef} {E E' : Emitter}
  {input : String} {first first' : Option BlockRef} {kind : BlockKind}

structure EmitsAlike (P : Pairing) (E E' : Emitter) (b : BlockRef) : Prop where
  expression : P.Writing Eq (E.expression (P.embed b)) (E'.expression b)
  statement : P.Writing Eq (E.statement (P.embed b)) (E'.statement b)

/-- Two emitters make the same code for what is plugged into a block. -/
structure EmitsInputs (P : Pairing) (E E' : Emitter) (b : BlockRef) : Prop where
  operand : ∀ n ∈ P.right.operands (P.right.block b), ∀ t,
    (P.right.block b).inputTarget? n = some t → P.rightLive t = true → P.EmitsAlike E E' t
  chain : ∀ i ∈ (P.right.block b).inputs, i.kind = .statement ∨ P.right.kind b ≠ .onStart →
    ∀ x ∈ P.right.workspace.chain i.target, P.rightLive x = true → P.EmitsAlike E E' x

/-- A function that makes code for a block does the same in both programs. -/
abbrev WritesAlike {α : Type} (P : Pairing) (E E' : Emitter) (b : BlockRef)
    (f : Program → Emitter → BlockRef → CompileM α) : Prop :=
  P.Writing Eq (f P.left E (P.embed b)) (f P.right E' b)

theorem ne_onStart (hkind : (P.right.block b).kind = kind) (hne : kind ≠ .onStart) :
    P.right.kind b ≠ .onStart := by
  subst hkind
  exact hne

section Faithful

variable (h : P.Faithful)

theorem input_of_target (hkind : P.right.kind b ≠ .onStart) (first : Option BlockRef)
    (hfirst : ∀ t, first = some t → ∃ i ∈ (P.right.block b).inputs, i.target = some t) :
    first = none ∨ ∃ i ∈ (P.right.block b).inputs, i.target = first ∧
      (i.kind = .statement ∨ P.right.kind b ≠ .onStart) := by
  cases first with
  | none => exact .inl rfl
  | some t =>
    obtain ⟨i, hi, hit⟩ := hfirst t rfl
    exact .inr ⟨i, hi, hit, .inr hkind⟩

theorem writing_settledType {m n : TypingM NodeId} (hmn : P.Typing [] Eq m n) :
    P.Writing Eq (settledType m) (settledType n) := by
  intro c d hS
  have hrun := hmn c d hS
  unfold settledType
  generalize m c = x at hrun
  generalize n d = y at hrun
  cases hrun with
  | @ok a _ c' d' hV hS' =>
    subst hV
    dsimp only
    rw [hS'.graph]
    exact .ok rfl (hS'.setGraph _)
  | @error e _ _ hallowed hS' =>
    cases e with
    | mismatch m => exact .ok rfl hS'
    | fault f => exact .error hallowed hS'

include h

/-! ## Declarations -/

theorem Abreast.outputName (hS : P.Abreast I c d) (v : BindingId) :
    c.outputName v = d.outputName v := by
  unfold Compilation.outputName
  rw [hS.left.binding, hS.right.binding, h.scopes.binding]
  rfl

theorem pairs_variableTypeName (v : BindingId) :
    Pairs (P.Abreast I) Eq (variableTypeName v) (variableTypeName v) := by
  unfold variableTypeName
  refine Pairs.bind_get ?_
  intro c d hS
  rw [hS.bindingNode h v]
  exact pairs_graph _

theorem pairs_emitDeclaration (v : BindingId) :
    Pairs (P.Abreast I) Eq (emitDeclaration v) (emitDeclaration v) := by
  unfold emitDeclaration
  refine Pairs.bind (pairs_variableTypeName h v) ?_
  rintro type _ rfl
  refine Pairs.bind_get ?_
  intro c d hS
  rw [hS.outputName h v]
  exact Pairs.pure rfl

theorem pairs_emitDeclarations (hb : P.Reached b) :
    Pairs (P.Abreast I) Eq (emitDeclarations (P.embed b)) (emitDeclarations b) := by
  unfold emitDeclarations
  refine Pairs.bind_get ?_
  intro c d hS
  rw [hS.left.blockDeclarations, hS.right.blockDeclarations, h.scopes.declarations b hb]
  exact Pairs.mapM_eq (forall₂_same.mpr fun v _ => pairs_emitDeclaration h v)

/-! ## Chains -/

theorem writing_emitLink (hb : P.Reached b) (hE : P.EmitsAlike E E' b) :
    P.Writing Eq (emitLink E (P.embed b)) (emitLink E' b) := by
  unfold emitLink
  refine .bind_eq (.lift (pairs_emitDeclarations h hb)) ?_
  intro declarations
  refine .bind_eq hE.statement ?_
  intro statement
  exact .pure rfl

theorem writing_emitChain (hfirst : P.SameChain first first')
    (hreached : ∀ x ∈ P.right.workspace.chain first', P.rightLive x = true → P.Reached x)
    (hE : ∀ x ∈ P.right.workspace.chain first', P.rightLive x = true → P.EmitsAlike E E' x) :
    P.Writing Eq (P.left.emitChain E first) (P.right.emitChain E' first') := by
  unfold emitChain
  refine .bind_get ?_
  intro c d hS
  dsimp only
  rw [hS.leftLive, hS.rightLive, hfirst]
  refine .bind_pure (Twins.mapM_eq (forall₂_map_left _ ?_))
  intro x hx
  obtain ⟨hmem, hlive⟩ := mem_filter.mp hx
  exact writing_emitLink h (hreached x hmem hlive) (hE x hmem hlive)

variable (hb : P.Reached b) (hE : P.EmitsInputs E E' b)
include hb hE

/-! ## Values -/

omit hE in
theorem writing_targetTypeName (hinput : input ∈ P.right.operands (P.right.block b)) {t t' : Target}
    (hsupply : P.Supplies b input t t') :
    P.Writing Eq (P.left.targetTypeName t) (P.right.targetTypeName t') :=
  writing_settledType (typing_typeOfTarget h hb hinput hsupply)

theorem writing_emitTarget (hinput : input ∈ P.right.operands (P.right.block b)) {t t' : Target}
    (hsupply : P.Supplies b input t t') :
    P.Writing Eq (P.left.emitTarget E t) (P.right.emitTarget E' t') := by
  have htype := writing_targetTypeName h hb hinput hsupply
  obtain ⟨rfl, hblock⟩ := hsupply
  cases t' with
  | placeholder i => exact .bind_pure htype
  | block x =>
    obtain ⟨hx, hlive⟩ := hblock x rfl
    refine .bind_eq (hE.operand input hinput x hx hlive).expression ?_
    intro code
    refine .pure ?_
    rw [h.ids]

theorem writing_emitInput (hinput : input ∈ P.right.operands (P.right.block b)) :
    P.Writing Eq (P.left.emitInput E (P.embed b) input) (P.right.emitInput E' b input) := by
  unfold emitInput
  refine .bind (.lift (pairs_attach h (h.matches hb) hinput none)) ?_
  intro t t' hsupply
  exact writing_emitTarget h hb hE hinput hsupply

theorem writing_emitInputs {inputs : List String}
    (hinputs : ∀ n ∈ inputs, n ∈ P.right.operands (P.right.block b)) :
    P.Writing Eq (P.left.emitInputs E (P.embed b) inputs) (P.right.emitInputs E' b inputs) :=
  Twins.mapM_eq (forall₂_same.mpr fun n hn => writing_emitInput h hb hE (hinputs n hn))

theorem writing_operand (hkind : (P.right.block b).kind = kind)
    (hinput : input ∈ P.right.kindOperands (P.right.block b) kind) :
    P.Writing Eq (P.left.emitInput E (P.embed b) input) (P.right.emitInput E' b input) :=
  writing_emitInput h hb hE (mem_operands hkind hinput)

theorem writing_operands (hkind : (P.right.block b).kind = kind) :
    P.Writing Eq (P.left.emitInputs E (P.embed b) (P.right.kindOperands (P.right.block b) kind))
      (P.right.emitInputs E' b (P.right.kindOperands (P.right.block b) kind)) :=
  writing_emitInputs h hb hE fun _ hn => mem_operands hkind hn

/-! ## Variables -/

omit hE in
theorem writing_variableName (hkind : (P.right.block b).kind = kind) {n : String}
    (hn : n ∈ P.right.lookups (P.right.block b) kind) :
    P.Writing Eq (P.left.variableName (P.embed b) n) (P.right.variableName b n) := by
  unfold variableName
  refine .bind_eq (twins_lookup_reached h hb hkind hn) ?_
  intro v
  refine .bind_get ?_
  intro c d hS
  exact .pure (hS.outputName h v)

/-! ## Bodies -/

theorem writing_emitChain_input (hfirst : P.SameChain first first')
    (hinput : first' = none ∨ ∃ i ∈ (P.right.block b).inputs, i.target = first' ∧
      (i.kind = .statement ∨ P.right.kind b ≠ .onStart)) :
    P.Writing Eq (P.left.emitChain E first) (P.right.emitChain E' first') := by
  rcases hinput with rfl | ⟨i, hi, rfl, hkind⟩
  · refine writing_emitChain h hfirst ?_ ?_
    iterate 2
      intro x hx
      rw [Workspace.chain_none] at hx
      cases hx
  · exact writing_emitChain h hfirst (h.reads.chain b hb i hi hkind) (hE.chain i hi hkind)

theorem writing_emitBody (hkind : P.right.kind b ≠ .onStart) (hchain : P.SameChain first first')
    (hfirst : ∀ t, first' = some t → ∃ i ∈ (P.right.block b).inputs, i.target = some t) :
    P.Writing Eq (P.left.emitBody E first) (P.right.emitBody E' first') := by
  unfold emitBody
  refine .bind_pure ?_
  exact writing_emitChain_input h hb hE hchain (input_of_target hkind first' hfirst)

theorem writing_emitBody_input (hkind : P.right.kind b ≠ .onStart) (input : String) :
    P.Writing Eq (P.left.emitBody E ((P.left.block (P.embed b)).inputTarget? input))
      (P.right.emitBody E' ((P.right.block b).inputTarget? input)) := by
  refine writing_emitBody h hb hE hkind ((h.matches hb).inputChain input) ?_
  intro t ht
  obtain ⟨i, hi, _, hit⟩ := exists_input_of_target ht
  exact ⟨i, hi, hit⟩

theorem writing_emitBody_first (hkind : P.right.kind b ≠ .onStart) :
    P.Writing Eq (P.left.emitBody E (P.left.block (P.embed b)).body?)
      (P.right.emitBody E' (P.right.block b).body?) := by
  refine writing_emitBody h hb hE hkind (h.matches hb).bodyChain ?_
  intro t ht
  obtain ⟨i, hi, hit⟩ := Option.bind_eq_some_iff.mp ht
  exact ⟨i, mem_of_mem_filter (mem_of_mem_head? hi), hit⟩

/-! ## User functions -/

theorem writing_emitFunctionCall
    (hinputs : ∀ a ∈ (P.right.block b).args, a.id ∈ P.right.operands (P.right.block b)) :
    P.WritesAlike E E' b emitFunctionCall := by
  unfold WritesAlike emitFunctionCall
  dsimp only
  rw [(h.matches hb).args, (h.matches hb).functionName?]
  refine .bind_pure (writing_emitInputs h hb hE ?_)
  intro n hn
  obtain ⟨a, ha, rfl⟩ := mem_map.mp hn
  exact hinputs a ha

/-! ## Uses of the host -/

theorem writing_emitOptionalInput (hinput : input ∈ P.right.operands (P.right.block b)) :
    P.Writing Eq (P.left.emitOptionalInput E (P.embed b) input)
      (P.right.emitOptionalInput E' b input) := by
  unfold emitOptionalInput
  rw [(h.matches hb).hasInput]
  split
  · refine .map (writing_emitInput h hb hE hinput) ?_
    rintro code _ rfl
    rfl
  · exact .pure rfl

variable {name : String} {symbol : Symbol} (hkind : (P.right.block b).kind = .hostCall name)
  (hsymbol : P.right.surface.symbol? name = some symbol)

include hkind hsymbol

omit h hb hE in
theorem mem_operands_parameter {q : Parameter} (hq : q ∈ symbol.parameters) :
    q.inputOn (P.right.block b).mutation ∈ P.right.operands (P.right.block b) := by
  refine mem_operands_host hkind hsymbol ?_
  exact .tail _ (mem_append_left _ (mem_map_of_mem hq))

omit h hb hE in
theorem mem_operands_rest {count : Nat}
    (hmutation : (P.right.block b).mutation = some (.rest count)) {n : String}
    (hn : n ∈ (List.range count).map Mutation.restInput) :
    n ∈ P.right.operands (P.right.block b) := by
  refine mem_operands_host hkind hsymbol ?_
  unfold hostOperands
  rw [hmutation]
  exact .tail _ (mem_append_right _ hn)

omit h hb hE in
theorem mem_operands_instance : Mutation.instanceInput ∈ P.right.operands (P.right.block b) :=
  mem_operands_host hkind hsymbol (.head _)

omit hsymbol hE in
theorem writing_emitProperty {property : String}
    (hproperty : property ∈ (P.right.block b).patternNames) :
    P.Writing Eq (P.left.emitProperty (P.embed b) property) (P.right.emitProperty b property) := by
  unfold emitProperty
  refine .bind_pure (writing_variableName h hb hkind ?_)
  exact mem_append_right _ hproperty

theorem writing_emitMutation_rest {count : Nat}
    (hmutation : (P.right.block b).mutation = some (.rest count)) :
    P.Writing Eq (P.left.emitMutation E (P.embed b) (.rest count))
      (P.right.emitMutation E' b (.rest count)) := by
  have hinputs : (P.left.block (P.embed b)).hasInput = (P.right.block b).hasInput :=
    funext (h.matches hb).hasInput
  unfold emitMutation
  dsimp only
  rw [hinputs]
  refine .bind_pure (writing_emitInputs h hb hE ?_)
  intro n hn
  exact mem_operands_rest hkind hsymbol hmutation (mem_of_mem_filter hn)

omit hsymbol hE in
theorem writing_emitMutation_destructuring {properties : List (String × String)}
    (hmutation : (P.right.block b).mutation = some (.destructuring properties)) :
    P.Writing Eq (P.left.emitMutation E (P.embed b) (.destructuring properties))
      (P.right.emitMutation E' b (.destructuring properties)) := by
  unfold emitMutation
  refine .bind_pure (Twins.mapM_eq (forall₂_same.mpr ?_))
  intro q hq
  refine writing_emitProperty h hb hkind ?_
  unfold Block.patternNames
  rw [hmutation]
  exact mem_map_of_mem hq

theorem writing_emitMutation_instance (isShown : Bool) :
    P.Writing Eq (P.left.emitMutation E (P.embed b) (.defaultInstance isShown))
      (P.right.emitMutation E' b (.defaultInstance isShown)) := by
  unfold emitMutation
  dsimp only
  split
  · exact writing_emitOptionalInput h hb hE (mem_operands_instance hkind hsymbol)
  · exact .pure rfl

theorem writing_emitRest : P.WritesAlike E E' b emitRest := by
  unfold WritesAlike emitRest
  rw [(h.matches hb).mutation]
  split
  · next count hmutation =>
    exact .bind_pure (writing_emitMutation_rest h hb hE hkind hsymbol hmutation)
  · exact .pure rfl

/-! ### Arguments -/

theorem writing_emitInstance (hinput : input ∈ P.right.operands (P.right.block b))
    (isShown : Bool) :
    P.Writing Eq (P.left.emitInstance E (P.embed b) symbol input isShown)
      (P.right.emitInstance E' b symbol input isShown) := by
  unfold emitInstance
  refine .bind_eq (writing_emitMutation_instance h hb hE hkind hsymbol isShown) ?_
  intro code
  split
  · exact .pure rfl
  · exact .pure rfl
  · exact writing_emitInput h hb hE hinput

theorem writing_emitReceiver (hinput : input ∈ P.right.operands (P.right.block b)) :
    P.Writing Eq (P.left.emitReceiver E (P.embed b) symbol input)
      (P.right.emitReceiver E' b symbol input) := by
  unfold emitReceiver
  rw [(h.matches hb).mutation]
  split
  · exact writing_emitInstance h hb hE hkind hsymbol hinput _
  · exact writing_emitInput h hb hE hinput

theorem writing_emitArguments (parameters : List Parameter)
    (hparameters : parameters ⊆ symbol.parameters) :
    P.Writing Eq (P.left.emitArguments E (P.embed b) symbol parameters)
      (P.right.emitArguments E' b symbol parameters) := by
  induction parameters with
  | nil => exact .pure rfl
  | cons q r ih =>
    have hinput := mem_operands_parameter hkind hsymbol (hparameters (.head _))
    have ihr := ih fun x hx => hparameters (.tail q hx)
    unfold emitArguments
    dsimp only
    rw [(h.matches hb).mutation, (h.matches hb).hasInput]
    split
    · refine .bind_eq (writing_emitReceiver h hb hE hkind hsymbol hinput) ?_
      intro receiver
      exact .bind_pure ihr
    · split
      · refine .bind_eq (writing_emitInput h hb hE hinput) ?_
        intro arg
        exact .bind_pure ihr
      · split
        · exact .pure rfl
        · exact .bind_pure ihr

/-! ### Handlers -/

omit hsymbol hE in
theorem writing_handlerPattern (names : List String) :
    P.Writing Eq (P.left.handlerPattern E (P.embed b) names)
      (P.right.handlerPattern E' b names) := by
  unfold handlerPattern
  rw [(h.matches hb).mutation]
  split
  · next properties hmutation =>
    exact .bind_pure (writing_emitMutation_destructuring h hb hkind hmutation)
  · exact .pure rfl

theorem writing_emitHandler {parameters : List HandlerParameter}
    (hhandler : symbol.handler = some parameters) :
    P.Writing Eq (P.left.emitHandler E (P.embed b) parameters)
      (P.right.emitHandler E' b parameters) := by
  have hnames : ∀ x, handlerName (P.left.block (P.embed b)) x =
      handlerName (P.right.block b) x := by
    intro x
    unfold handlerName
    rw [(h.matches hb).field?]
  have hparameters : P.right.handlerOf name = parameters := by
    unfold handlerOf
    rw [hsymbol, Option.bind_some, hhandler]
    rfl
  have hstart : P.right.kind b ≠ .onStart := ne_onStart hkind BlockKind.noConfusion
  unfold emitHandler
  dsimp only
  refine .bind_eq (Twins.mapM_eq (forall₂_same.mpr ?_)) ?_
  · intro x hx
    rw [hnames]
    refine writing_variableName h hb hkind (mem_append_left _ ?_)
    rw [hparameters]
    exact mem_map_of_mem hx
  · intro names
    refine .bind_eq (writing_handlerPattern h hb hkind names) ?_
    intro pattern
    exact .bind_pure (writing_emitBody_first h hb hE hstart)

theorem writing_emitHandlers : P.Writing Eq (P.left.emitHandlers E (P.embed b) symbol)
      (P.right.emitHandlers E' b symbol) := by
  refine Twins.mapM_eq (forall₂_same.mpr ?_)
  intro parameters hparameters
  exact writing_emitHandler h hb hE hkind hsymbol (Option.mem_toList.mp hparameters)

/-! ### Calls -/

theorem writing_emitUse :
    P.Writing Eq (P.left.emitUse E (P.embed b) symbol) (P.right.emitUse E' b symbol) := by
  have hcallee : P.left.calleeOf symbol = P.right.calleeOf symbol := by
    unfold calleeOf
    rw [h.surface]
  unfold emitUse
  rw [hcallee]
  refine .bind_eq (writing_emitArguments h hb hE hkind hsymbol _ (List.Subset.refl _)) ?_
  rintro ⟨receiver, args⟩
  refine .bind_eq (writing_emitRest h hb hE hkind hsymbol) ?_
  intro rest
  exact .bind_pure (writing_emitHandlers h hb hE hkind hsymbol)

omit hsymbol in
theorem writing_emitHostCall :
    P.Writing Eq (P.left.emitHostCall E (P.embed b) name) (P.right.emitHostCall E' b name) := by
  unfold emitHostCall
  rw [h.surface]
  cases hsymbol : P.right.surface.symbol? name with
  | none =>
    refine twins_fail h _ ?_
    rcases h.scopes.symbols b name hb hkind with hfail | hsome
    · exact hfail
    · rw [hsymbol] at hsome
      cases hsome
  | some symbol =>
    dsimp only
    split
    · have hliteral : imageLiteral (P.left.calleeOf symbol) (P.left.block (P.embed b)) =
          imageLiteral (P.right.calleeOf symbol) (P.right.block b) := by
        unfold imageLiteral calleeOf
        rw [(h.matches hb).fields, h.surface]
      exact .pure hliteral
    · exact writing_emitUse h hb hE hkind hsymbol

end Faithful

end BlockProgram.Pairing
