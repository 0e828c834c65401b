import BlockProgram.Proofs.Scope.Additions
import BlockProgram.Proofs.Typing.Rules

/-!
# The types that a program speaks of

Typing makes up no types. If a property passes to lists and items (`Vocabulary`) and holds of all
types that a program names (`Names`), then it holds of all types that come up while the
program is typed and written. Nor are placeholders left anywhere: a rule leaves some for the inputs
of its own block, and the search for what a function returns for return statements. So a property of
those is one of all placeholders. Meanwhile scopes and variables stay as they are (`Speaking`).
-/

namespace BlockProgram

open TypeGraph Program List

variable {input : String} {b : BlockRef} {t : TypeName} {type : Option TypeName}

/-- Besides, all placeholders for return statements have property `S`. -/
structure Program.Permits (p : Program) (P : TypeName → Prop) (S : Placeholder → Prop) : Prop
    extends p.Names P where
  returned : ∀ b, p.kind b = .functionReturn → ∀ input n, S ⟨b, input, n⟩

theorem Program.Names.permits {p : Program} {P : TypeName → Prop} (h : p.Names P) :
    p.Permits P fun _ => True :=
  { h with returned := fun _ _ _ _ => trivial }

/-- The graph speaks of types with property `P`, placeholders have property `S`, and scopes and
variables are as in `d`. -/
structure Speaking (P : TypeName → Prop) (S : Placeholder → Prop) (d c : Compilation) : Prop where
  graph : c.graph.Speaks P
  placeholders : ∀ h ∈ c.placeholders, S h
  scopes : c.scopes = d.scopes
  bindings : c.bindings = d.bindings
  blockDeclarations : c.blockDeclarations = d.blockDeclarations
  rootDeclarations : c.rootDeclarations = d.rootDeclarations

variable {P : TypeName → Prop} {S : Placeholder → Prop} {p : Program} {d : Compilation} {α : Type}
  {Q : α → Prop}

/-- The step keeps what is said there, and `SaysOf` says it of one that cannot fail. -/
abbrev VoicesOf {ε : Type} (P : TypeName → Prop) (S : Placeholder → Prop) (d : Compilation)
    (m : EStateM ε Compilation α) : Prop :=
  Gives (Speaking P S d) m fun _ => True

abbrev SaysOf (P : TypeName → Prop) (S : Placeholder → Prop) (d : Compilation)
    (m : TrackM α) : Prop :=
  Preserves (Speaking P S d) m fun _ => True

/-! ## Steps on the graph -/

theorem preserves_graph {m : GraphM α} (h : Preserves (Speaks P) m Q) :
    Preserves (Speaking P S d) (liftM m : TrackM α) Q :=
  fun c hc => ⟨{ hc with graph := (h c.graph hc.graph).1 }, (h c.graph hc.graph).2⟩

theorem gives_graph {m : GraphM α} (h : Preserves (Speaks P) m Q) :
    Gives (Speaking P S d) (liftM m : TypingM α) Q :=
  .lift (preserves_graph h)

theorem gives_unify {m : UnifyM α} (h : Gives (Speaks P) m Q) :
    Gives (Speaking P S d) (liftM m : TypingM α) Q := by
  intro c hc
  unfold Moves Ensures
  cases hm : m c.graph with
  | ok a g =>
    have hok := Ensures.of_ok (h c.graph hc.graph) hm
    rw [liftUnify_ok hm]
    exact ⟨{ hc with graph := hok.1 }, hok.2⟩
  | error e g =>
    rw [liftUnify_error hm]
    exact { hc with graph := Ensures.of_error (h c.graph hc.graph) hm }

/-- A step on the graph whose failure is only noted. -/
theorem preserves_attempt {m : UnifyM Unit} (h : Voices P m) :
    SaysOf P S d (fun c => match m c.graph with
      | .ok _ g => (true, { c with graph := g })
      | .error _ g => (false, { c with graph := g })) := by
  intro c hc
  refine ⟨?_, trivial⟩
  dsimp only
  cases hm : m c.graph with
  | ok u g => exact { hc with graph := (Ensures.of_ok (h c.graph hc.graph) hm).1 }
  | error e g => exact { hc with graph := Ensures.of_error (h c.graph hc.graph) hm }

def Compilation.Declares (d : Compilation) (v : BindingId) : Prop :=
  ∃ s name, (d.scope s).declared.get? name = some v

theorem Speaking.declares {c : Compilation} (hc : Speaking P S d c) {s : ScopeId} {name : String}
    {v : BindingId} (h : c.find? s name = some v) : d.Declares v := by
  obtain ⟨t, ht⟩ := (finds_of_findFrom _ h).declared
  unfold Compilation.scope at ht
  rw [hc.scopes] at ht
  exact ⟨t, name, ht⟩

theorem gives_fail (b : BlockRef) (cause : FaultCause) :
    Gives (Speaking P S d) (p.fail b cause : CompileM α) Q :=
  fun _ hc => hc

theorem gives_lookup (b : BlockRef) (name : String) :
    Gives (Speaking P S d) (p.lookup b name) d.Declares := by
  unfold Program.lookup
  refine .bind_get fun c hc => ?_
  split
  · exact gives_fail b _
  · split
    · exact gives_fail b _
    · next hv => exact .pure (hc.declares hv)

theorem gives_compile {m : CompileM α} (h : Gives (Speaking P S d) m Q) :
    Gives (Speaking P S d) (liftM m : TypingM α) Q := by
  intro c hc
  unfold Moves Ensures
  cases hm : m c with
  | ok a c' =>
    rw [liftCompile_ok hm]
    exact Ensures.of_ok (h c hc) hm
  | error e c' =>
    rw [liftCompile_error hm]
    exact Ensures.of_error (h c hc) hm

/-! ## Inputs -/

theorem preserves_placeholderFor (ht : Spoken P type)
    (hS : ∀ g, S ⟨b, input, (placeholderNode type g).1⟩) :
    SaysOf P S d (placeholderFor b input type) := by
  have hnode : Says P (placeholderNode type) := by
    cases type with
    | none => exact preserves_addNode ht false
    | some t => exact preserves_ground (ht t rfl)
  unfold placeholderFor
  refine .bind_get fun _ _ => ?_
  split
  · exact .pure trivial
  · intro c hc
    refine ⟨{ hc with graph := (hnode c.graph hc.graph).1, placeholders := ?_ }, trivial⟩
    intro h hh
    rcases Array.mem_push.mp hh with hh | rfl
    · exact hc.placeholders h hh
    · exact hS c.graph

theorem preserves_attach (ht : Spoken P type) (hS : ∀ g, S ⟨b, input, (placeholderNode type g).1⟩) :
    SaysOf P S d (p.attach b input type) := by
  unfold Program.attach
  refine .bind_get fun _ _ => ?_
  split
  · exact .pure trivial
  · exact (preserves_placeholderFor ht hS).bind fun _ _ => .pure trivial

theorem gives_attach (ht : Spoken P type) (hS : ∀ g, S ⟨b, input, (placeholderNode type g).1⟩) :
    VoicesOf P S d (liftM (p.attach b input type) : TypingM Target) :=
  .lift (preserves_attach ht hS)

/-! ## Result types -/

/-- A search for nodes of blocks that speaks on. -/
def SpeakingTyper (P : TypeName → Prop) (S : Placeholder → Prop) (d : Compilation)
    (blockType : BlockRef → TypingM NodeId) : Prop :=
  ∀ b, VoicesOf P S d (blockType b)

theorem preserves_rememberNode (b : BlockRef) (n : NodeId) : SaysOf P S d (rememberNode b n) :=
  .of_modify fun _ hc => { hc with }

theorem preserves_ownNode (b : BlockRef) (isArray : Bool) : SaysOf P S d (ownNode b isArray) :=
  (preserves_graph (preserves_addNode spoken_none isArray)).bind fun n _ =>
    (preserves_rememberNode b n).bind fun _ _ => .pure trivial

theorem gives_variableType (b : BlockRef) (name : String) :
    VoicesOf P S d (p.variableType b name) :=
  (gives_compile (gives_lookup b name)).bind fun _ _ => .bind_get fun _ _ => .pure trivial

theorem gives_elementNode (list : NodeId) : VoicesOf P S d (elementNode list) := by
  unfold elementNode
  refine (gives_graph (preserves_find list)).bind fun r _ => .bind_get fun _ _ => ?_
  split
  · exact .pure trivial
  · refine (gives_graph (preserves_addNode spoken_none false)).bind fun n _ => ?_
    exact (gives_unify (gives_linkElement list n)).bind fun _ _ => .pure trivial

theorem gives_elementOf (b : BlockRef) (list : NodeId) : VoicesOf P S d (elementOf b list) := by
  unfold elementOf
  refine .bind_get fun _ _ => ?_
  split
  · exact .pure trivial
  · refine (gives_elementNode list).bind fun n _ => ?_
    exact .bind (.lift (preserves_rememberNode b n)) fun _ _ => .pure trivial

theorem preserves_report (b : BlockRef) (message : String) : SaysOf P S d (p.report b message) := by
  refine .of_modify fun c hc => ?_
  unfold Compilation.addDiagnostic
  split
  · exact hc
  · exact { hc with }

theorem preserves_unionAll (first : NodeId) (rest : List NodeId) :
    SaysOf P S d (unionAll first rest) := by
  induction rest with
  | nil => exact .pure trivial
  | cons n r ih =>
    unfold unionAll
    refine .bind (preserves_attempt (gives_union first n)) fun ok _ => ?_
    split
    · exact ih
    · exact .pure trivial

theorem gives_whileInProgress (name : String) {m : TypingM α} (h : Gives (Speaking P S d) m Q) :
    Gives (Speaking P S d) (whileInProgress name m) Q := by
  intro c hc
  have hm := h { c with inProgress := name :: c.inProgress } { hc with }
  unfold Moves Ensures whileInProgress
  cases hrun : m { c with inProgress := name :: c.inProgress } with
  | ok a c' =>
    obtain ⟨hc', ha⟩ := Ensures.of_ok hm hrun
    exact ⟨{ hc' with }, ha⟩
  | error e c' =>
    have hc' : Speaking P S d c' := Ensures.of_error hm hrun
    exact { hc' with }

section Types

variable (hP : Vocabulary P)
include hP

theorem preserves_groundAny : SaysOf P S d (liftM (ground .any) : TrackM NodeId) :=
  preserves_graph (preserves_ground (hP.constant _ (by simp)))

theorem preserves_groundVoid : SaysOf P S d (liftM (ground .void) : TrackM NodeId) :=
  preserves_graph (preserves_ground (hP.constant _ (by simp)))

theorem preserves_commonType (definition : BlockRef) (nodes : List NodeId) :
    SaysOf P S d (p.commonType definition nodes) := by
  unfold commonType
  split
  · exact preserves_groundVoid hP
  · refine (preserves_unionAll _ _).bind fun ok _ => ?_
    split
    · exact .pure trivial
    · exact (preserves_report definition _).bind fun _ _ => preserves_groundAny hP

section Typer

variable {blockType : BlockRef → TypingM NodeId} (ht : SpeakingTyper P S d blockType)
include ht

theorem gives_linkFirstKnown (list : NodeId) (items : List BlockRef) :
    VoicesOf P S d (p.linkFirstKnown blockType list items) := by
  induction items with
  | nil => exact .pure trivial
  | cons item r ih =>
    unfold linkFirstKnown
    refine .bind_get fun _ _ => ?_
    split
    · refine (ht item).bind fun n _ => ?_
      refine (gives_graph (preserves_resolvedType hP n)).bind fun _ _ => ?_
      split
      · exact gives_unify (gives_linkElement list n)
      · exact ih
    · exact ih

theorem gives_listLiteralType (b : BlockRef) : VoicesOf P S d (p.listLiteralType blockType b) :=
  (Gives.lift (preserves_ownNode b true)).bind fun list _ =>
    (gives_linkFirstKnown hP ht list _).bind fun _ _ => .pure trivial

omit hP in
theorem gives_genericType (b : BlockRef) : VoicesOf P S d (p.genericType blockType b) := by
  unfold genericType
  split
  · exact (ht _).bind fun list _ => gives_elementOf b list
  · exact .lift (preserves_ownNode b false)

omit hP in
theorem gives_targetType (t : Target) : VoicesOf P S d (targetType blockType t) := by
  cases t with
  | block b => exact ht b
  | placeholder i => exact .bind_get fun _ _ => .pure trivial

omit hP in
theorem gives_attachedType (hS : ∀ n, S ⟨b, input, n⟩) :
    VoicesOf P S d (p.attachedType blockType input b) :=
  (gives_attach spoken_none fun _ => hS _).bind fun t _ => gives_targetType ht t

variable (hp : p.Permits P S)
include hp

theorem gives_returnedType (definition : BlockRef) {returns : List BlockRef}
    (hreturns : ∀ b ∈ returns, p.kind b = .functionReturn) :
    VoicesOf P S d (p.returnedType blockType definition returns) := by
  refine .bind (Gives.mapM (T := fun _ => True) _ fun b hb => ?_) fun nodes _ =>
    .lift (preserves_commonType hP definition nodes)
  exact gives_attachedType ht (hp.returned b (hreturns b (mem_of_mem_filter hb)) _)

theorem gives_newFunctionType (name : String) (definition : BlockRef) :
    VoicesOf P S d (p.newFunctionType blockType name definition) := by
  have hremember : ∀ n, Gives (Speaking P S d)
      (liftM (rememberFunction name n) : TypingM Unit) fun _ => True :=
    fun n => .lift (.of_modify fun _ hc => { hc with })
  unfold newFunctionType
  refine .bind_get fun _ _ => ?_
  dsimp only
  split
  · exact (Gives.lift (preserves_groundAny hP)).bind fun n _ =>
      (hremember n).bind fun _ _ => .pure trivial
  · refine (gives_whileInProgress name (gives_returnedType hP ht hp definition ?_)).bind fun n _ =>
      (hremember n).bind fun _ _ => .pure trivial
    intro b hb
    have hkind := (Bool.and_eq_true_iff.mp (mem_filter.mp hb).2).1
    exact beq_iff_eq.mp hkind

theorem gives_functionTypeWith (name : String) :
    VoicesOf P S d (p.functionTypeWith blockType name) := by
  unfold functionTypeWith
  refine .bind_get fun _ _ => ?_
  split
  · exact .pure trivial
  · exact .lift (preserves_groundAny hP)
  · split
    · exact gives_graph (preserves_addNode spoken_none false)
    · exact gives_newFunctionType hP ht hp name _

theorem gives_outputType (b : BlockRef) : VoicesOf P S d (p.outputType blockType b) := by
  have hout := hp.output b
  unfold outputType
  split
  · exact .lift (preserves_groundVoid hP)
  · exact .lift (preserves_ownNode b false)
  · next first rest heq =>
    have htypes := hout _ heq
    split
    · split
      · next list _ =>
        exact gives_graph (preserves_ground (htypes list (by simp)))
      · split
        · exact gives_listLiteralType hP ht b
        · exact .lift (preserves_ownNode b true)
    · split
      · exact gives_genericType ht b
      · exact gives_graph (preserves_ground (htypes first (by simp)))

theorem gives_newBlockType (b : BlockRef) : VoicesOf P S d (p.newBlockType blockType b) := by
  unfold newBlockType
  dsimp only
  split
  · exact gives_variableType b _
  · exact gives_variableType b _
  · exact gives_functionTypeWith hP ht hp _
  · exact gives_outputType hP ht hp b

end Typer

variable (hp : p.Permits P S)
include hp

theorem gives_blockType (b : BlockRef) : VoicesOf P S d (p.blockType b) := by
  have hfrom : ∀ fuel, SpeakingTyper P S d (p.blockTypeFrom fuel) := by
    intro fuel
    induction fuel with
    | zero => exact fun _ => .lift (preserves_groundVoid hP)
    | succ fuel ih =>
      intro b
      unfold blockTypeFrom
      refine .bind_get fun _ _ => ?_
      split
      · exact .pure trivial
      · exact gives_newBlockType hP ih hp b
  exact hfrom _ b

theorem gives_typeOfTarget (t : Target) : VoicesOf P S d (p.typeOfTarget t) :=
  gives_targetType (gives_blockType hP hp) t

theorem gives_functionType (name : String) : VoicesOf P S d (p.functionType name) :=
  gives_functionTypeWith hP (gives_blockType hP hp) hp name

theorem gives_typesOfTarget (t : Target) : VoicesOf P S d (p.typesOfTarget t) := by
  unfold typesOfTarget
  extract_lets declared
  split
  · refine (Gives.mapM declared fun u hu => gives_graph (preserves_ground ?_)).imp
      fun _ _ => trivial
    cases t with
    | placeholder i => exact absurd hu not_mem_nil
    | block b =>
      change u ∈ (p.block b).output.getD [] at hu
      cases hout : (p.block b).output with
      | none =>
        rw [hout] at hu
        exact absurd hu not_mem_nil
      | some types =>
        rw [hout] at hu
        exact hp.output b types hout u hu
  · exact (gives_typeOfTarget hP hp t).bind fun _ _ => .pure trivial

/-! ## Settled types -/

omit hp in
theorem preserves_resolved (n : NodeId) :
    Preserves (Speaking P S d) (liftM (resolvedType n) : TrackM (Option TypeName)) (Spoken P) :=
  preserves_graph (preserves_resolvedType hP n)

theorem gives_targetTypeName (t : Target) :
    Gives (Speaking P S d) (p.targetTypeName t) (Spoken P) := by
  intro c hc
  have hm := gives_typeOfTarget hP hp t c hc
  unfold Moves Ensures targetTypeName settledType
  cases hrun : p.typeOfTarget t c with
  | ok n c' => exact preserves_resolved hP n c' (Ensures.of_ok hm hrun).1
  | error e c' =>
    have hc' : Speaking P S d c' := Ensures.of_error hm hrun
    cases e with
    | mismatch m => exact ⟨hc', spoken_none⟩
    | fault f => exact hc'

/-! ## Rules -/

omit hP hp in
theorem gives_unite (a b : NodeId) : Voices P (unite a b) := by
  have hdynamic : ∀ n, Voices P (liftM (isDynamic n) : UnifyM Bool) :=
    fun n => .lift ((preserves_typeOf n).bind fun _ _ => .pure trivial)
  unfold unite
  refine (hdynamic a).bind fun _ _ => ?_
  split
  · exact .pure trivial
  · refine (hdynamic b).bind fun _ _ => ?_
    split
    · exact .pure trivial
    · exact gives_union a b

omit hp in
theorem preserves_expectedNode (ht : P t) : Says P (expectedNode t) := by
  unfold expectedNode
  split
  · exact .pure trivial
  · split
    · exact (preserves_addNode (spoken_some (hP.constant _ (by simp))) true).map fun _ _ => trivial
    · exact (preserves_ground ht).map fun _ _ => trivial

omit hp in
theorem gives_expect (n : NodeId) (ht : P t) : Voices P (expect n t) := by
  unfold expect
  refine (Gives.lift (preserves_expectedNode hP ht)).bind fun e _ => ?_
  split
  · exact gives_unite n _
  · exact .pure trivial

theorem gives_expectInput (ht : P t) (hS : ∀ g, S ⟨b, input, (placeholderNode (some t) g).1⟩) :
    VoicesOf P S d (p.expectInput b input t) :=
  (gives_attach (spoken_some ht) hS).bind fun target _ =>
    (gives_typeOfTarget hP hp target).bind fun n _ =>
      (gives_unify (gives_expect hP n ht)).bind fun _ _ => .pure trivial

theorem gives_expectInputs (ht : P t) {inputs : List String}
    (hS : ∀ i ∈ inputs, ∀ g, S ⟨b, i, (placeholderNode (some t) g).1⟩) :
    VoicesOf P S d (p.expectInputs b t inputs) :=
  .forM inputs fun i hi => (gives_expectInput hP hp ht (hS i hi)).bind fun _ _ => .pure trivial

theorem gives_assign (n : NodeId) (value : Target) : VoicesOf P S d (p.assign n value) := by
  unfold assign
  refine (gives_typesOfTarget hP hp value).bind fun types _ => ?_
  split
  · exact .pure trivial
  · next narrowest _ =>
    refine (Gives.lift (preserves_resolved hP n)).bind fun _ _ => ?_
    refine (Gives.lift (preserves_resolved hP narrowest)).bind fun _ _ => ?_
    split
    · exact .pure trivial
    · exact gives_unify (gives_unite n narrowest)

theorem gives_typeItems (list : NodeId) (items : List BlockRef) :
    VoicesOf P S d (p.typeItems list items) := by
  unfold typeItems
  refine (gives_graph (preserves_find list)).bind fun r _ => .bind_get fun _ _ => ?_
  split
  · exact .pure trivial
  · next element _ =>
    exact .forM items fun i _ => (gives_blockType hP hp i).bind fun n _ =>
      gives_unify (gives_unite element n)

omit hp in
theorem preserves_acceptFirst (n : NodeId) {types : List TypeName} (ht : ∀ t ∈ types, P t) :
    SaysOf P S d (acceptFirst n types) := by
  induction types with
  | nil => exact .pure trivial
  | cons t r ih =>
    obtain ⟨ht, hr⟩ := forall_mem_cons.mp ht
    unfold acceptFirst
    refine (preserves_graph (preserves_expectedNode hP ht)).bind fun e _ => ?_
    split
    · exact .pure trivial
    · refine .bind (preserves_attempt (gives_unite n _)) fun ok _ => ?_
      split
      · exact .pure trivial
      · exact ih hr

omit hP hp in
theorem gives_typeGeneric (q : Parameter) (receiver : Option NodeId) (n : NodeId) :
    VoicesOf P S d (typeGeneric q receiver n) := by
  unfold typeGeneric
  split
  · exact .pure trivial
  · next r _ =>
    refine (gives_graph (preserves_isArrayNode r)).bind fun _ _ => ?_
    split
    · exact gives_unify (gives_linkElement r n)
    · exact .pure trivial

section Own

variable {b : BlockRef} (hb : ∀ input n, S ⟨b, input, n⟩)
include hb

theorem gives_inputType (input : String) : VoicesOf P S d (p.inputType b input) :=
  gives_attachedType (gives_blockType hP hp) (hb input)

theorem gives_typeFunctionCall : VoicesOf P S d (p.typeFunctionCall b) := by
  have hargs := hp.argument b
  unfold typeFunctionCall
  unfold Block.args at hargs
  split
  · exact .pure trivial
  · next s hs =>
    rw [hs] at hargs
    refine .bind_get fun _ _ => .forM s.args fun a ha => ?_
    unfold typeArgument
    refine (gives_inputType hP hp hb a.id).bind fun n _ => .bind_get fun _ _ => ?_
    split
    · exact gives_unify (gives_unite n _)
    · exact gives_unify (gives_expect hP n (hargs a ha))

theorem gives_typeParameter (receiver : Option NodeId) {q : Parameter} (hq : ∀ t ∈ q.checks, P t) :
    VoicesOf P S d (p.typeParameter b receiver q) := by
  have hplaceholder : Spoken P (placeholderType? q) := by
    intro t ht
    exact hq t (mem_of_head? (Option.filter_eq_some_iff.mp ht).1)
  unfold typeParameter
  extract_lets block input
  split
  · refine (gives_attach hplaceholder fun _ => hb _ _).bind fun target _ => ?_
    refine (gives_typeOfTarget hP hp target).bind fun n _ => ?_
    refine (gives_typeGeneric q receiver n).bind fun _ _ => ?_
    exact .bind (.lift (preserves_acceptFirst hP n hq)) fun _ _ => .pure trivial
  · exact .pure trivial

theorem gives_typeHostCall (name : String) : VoicesOf P S d (p.typeHostCall b name) := by
  unfold typeHostCall
  split
  · exact gives_compile (gives_fail b _)
  · next symbol hsymbol =>
    have hparameters := hp.parameter name symbol hsymbol
    have hfold : ∀ receiver, Gives (Speaking P S d)
        (symbol.parameters.foldlM (p.typeParameter b) receiver) fun _ => True := by
      generalize symbol.parameters = parameters at hparameters
      induction parameters with
      | nil => exact fun _ => .pure trivial
      | cons q r ih =>
        intro receiver
        obtain ⟨hq, hr⟩ := forall_mem_cons.mp hparameters
        rw [foldlM_cons]
        exact (gives_typeParameter hP hp hb receiver hq).bind fun _ _ => ih hr _
    exact (hfold none).bind fun _ _ => .pure trivial

/-- A rule leaves placeholders for inputs of its own block and for return statements only. -/
theorem gives_typeBlock : VoicesOf P S d (p.typeBlock b) := by
  have hexpect : ∀ {t} inputs, P t → VoicesOf P S d (p.expectInputs b t inputs) :=
    fun _ ht => gives_expectInputs hP hp ht fun _ _ _ => hb _ _
  have hnumber : P .number := hP.constant _ (by simp)
  have htext : P .text := hP.constant _ (by simp)
  have hboolean : P .boolean := hP.constant _ (by simp)
  have harray : P TypeName.array := hP.constant _ (by simp)
  unfold typeBlock
  extract_lets block variableName
  split
  iterate 4 exact hexpect _ hnumber
  · split
    · refine (gives_inputType hP hp hb _).bind fun l _ => ?_
      exact (gives_inputType hP hp hb _).bind fun r _ => gives_unify (gives_unite l r)
    · exact hexpect _ hnumber
  · exact hexpect _ hboolean
  · exact hexpect _ hboolean
  · exact hexpect _ htext
  · exact hexpect _ hboolean
  · exact hexpect _ hnumber
  · exact hexpect _ hboolean
  · exact hexpect _ hnumber
  · -- a loop over the items of a list
    refine (gives_expectInput hP hp harray fun _ => hb _ _).bind fun list _ => ?_
    exact (gives_variableType b _).bind fun n _ => gives_unify (gives_linkElement list n)
  · -- an assignment
    refine (gives_variableType b _).bind fun n _ => ?_
    exact (gives_attach spoken_none fun _ => hb _ _).bind fun value _ => gives_assign hP hp n value
  · refine (gives_variableType b _).bind fun n _ => ?_
    exact (gives_unify (gives_unite n _)).bind fun _ _ => hexpect _ hnumber
  · -- an item that is read, then one that is written
    refine (hexpect _ harray).bind fun _ _ => ?_
    refine (hexpect _ hnumber).bind fun _ _ => ?_
    exact (gives_blockType hP hp b).bind fun _ _ => .pure trivial
  · refine (gives_expectInput hP hp harray fun _ => hb _ _).bind fun list _ => ?_
    refine (hexpect _ hnumber).bind fun _ _ => ?_
    refine (gives_inputType hP hp hb _).bind fun value _ => ?_
    exact gives_unify (gives_linkElement list value)
  · exact hexpect _ harray
  · -- a list that is written out
    refine (gives_blockType hP hp b).bind fun list _ => .bind_get fun _ _ => ?_
    exact gives_typeItems hP hp list _
  · cases block.functionName? with
    | none => exact .pure trivial
    | some name => exact (gives_functionType hP hp name).bind fun _ _ => .pure trivial
  · exact gives_typeFunctionCall hP hp hb
  · exact gives_typeFunctionCall hP hp hb
  · exact gives_typeHostCall hP hp hb _
  · exact .pure trivial

end Own

omit hP hp in
theorem gives_checkBlock (h : VoicesOf P S d (p.typeBlock b)) :
    VoicesOf P S d (p.checkBlock b) := by
  intro c hc
  have hm := h c hc
  unfold Moves Ensures checkBlock
  cases hrun : p.typeBlock b c with
  | ok u c' => exact ⟨(Ensures.of_ok hm hrun).1, trivial⟩
  | error e c' =>
    have hc' : Speaking P S d c' := Ensures.of_error hm hrun
    cases e with
    | mismatch m => exact preserves_report b m.message c' hc'
    | fault f => exact hc'

omit hp in
theorem preserves_settleVariable (v : BindingId) : SaysOf P S d (settleVariable v) := by
  have hdefault : ∀ isParameter isArray, Spoken P (defaultType? isParameter isArray) := by
    intro isParameter isArray
    have hany : P "any[]" := hP.listOf _ (hP.constant .any (by simp))
    have hnumbers : P "number[]" := hP.listOf _ (hP.constant .number (by simp))
    cases isParameter <;> cases isArray
    · exact spoken_some (hP.constant _ (by simp))
    · exact spoken_some hnumbers
    · exact spoken_none
    · exact spoken_some hany
  unfold settleVariable
  refine .bind_get fun c _ => ?_
  extract_lets x
  refine (preserves_resolved hP x.node).bind fun _ _ => ?_
  split
  · refine (preserves_graph (preserves_isArrayNode x.node)).bind fun isArray _ => ?_
    have htype := hdefault x.isParameter isArray
    generalize defaultType? x.isParameter isArray = type at htype
    cases type with
    | none => exact .pure trivial
    | some t => exact preserves_graph (preserves_setType x.node (htype t rfl))
  · exact .pure trivial

omit hP hp in
theorem gives_checkEach {l : List BlockRef} (hl : ∀ b ∈ l, VoicesOf P S d (p.typeBlock b)) :
    VoicesOf P S d (p.checkEach l) := by
  refine .forM l fun b hb => .bind_get fun _ _ => ?_
  split
  · exact gives_checkBlock (hl b hb)
  · exact .pure trivial

omit hp in
/-- Typing a program speaks on, if the rules do. -/
theorem gives_inferFrom {l : List BlockRef} (hl : ∀ b ∈ l, VoicesOf P S d (p.typeBlock b)) :
    VoicesOf P S d (p.inferFrom l) :=
  (gives_checkEach hl).bind fun _ _ => .bind_get fun _ _ =>
    .forM _ fun v _ => .lift (preserves_settleVariable hP v)

theorem gives_infer (hS : ∀ h, S h) : VoicesOf P S d p.infer :=
  gives_inferFrom hP (l := p.workspace.refs) fun _ _ => gives_typeBlock hP hp fun _ _ => hS _

end Types

end BlockProgram
