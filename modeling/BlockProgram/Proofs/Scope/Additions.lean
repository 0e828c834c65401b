import BlockProgram.Proofs.Scope.Meaning
import BlockProgram.Proofs.TypeGraph.Vocabulary

/-!
# What the walk adds

The walk over a program comes to a block (`enter`) and turns to its inputs
(`openInputs`). Apart from noting uses it only adds something each time: nodes, the place of
a block, a scope, a variable at the root or one that a block declares (`Adds`). Everything that the
walk keeps is shown of single additions and of uses, so the functions of the walk are gone through
once, here.
-/

namespace BlockProgram

open Compilation Program List TypeGraph

/-- The types that a program names have property `P`: those of its outputs, parameters, handlers,
properties and variables. -/
structure Program.Names (p : Program) (P : TypeName → Prop) : Prop where
  output : ∀ b, ∀ types ∈ (p.block b).output, ∀ t ∈ types, P t
  argument : ∀ b, ∀ a ∈ (p.block b).args, P a.type
  property : ∀ b, ∀ m ∈ (p.block b).mutation, ∀ properties ∈ m.declaredVariables?,
    ∀ q ∈ properties, P q.2
  parameter : ∀ name, ∀ symbol ∈ p.surface.symbol? name, ∀ q ∈ symbol.parameters,
    ∀ t ∈ q.checks, P t
  handler : ∀ name, ∀ symbol ∈ p.surface.symbol? name, ∀ parameters ∈ symbol.handler,
    ∀ h ∈ parameters, P h.type
  binding : ∀ v ∈ p.workspace.vars, ∀ t ∈ v.type, P t

/-- The name of the variable that a block reads or writes. -/
def Block.usedName? (b : Block) : Option String :=
  match b.kind with
  | .variableGet | .variableSet | .variableChange => b.variableField?
  | .argumentReporter => b.field? "VALUE"
  | _ => none

namespace Program

/-- The names of the variables that a block declares for its inputs because of its kind. -/
def kindNames (p : Program) (b : Block) : List String :=
  match b.kind with
  | .forRange | .forOf => b.variableField?.toList
  | .repeatTimes => [repeatIndex]
  | .functionDefinition => b.args.map (·.name)
  | .hostCall name => (p.handlerOf name).map (handlerName b)
  | _ => []

/-- The names of the variables that a block declares for its inputs because of its mutation. -/
def mutationNames (b : Block) : List String :=
  ((b.mutation.bind Mutation.declaredVariables?).getD []).map Prod.fst

/-- The names of the variables that a block declares for its own inputs. -/
def ownNames (p : Program) (b : Block) : List String :=
  p.kindNames b ++ mutationNames b

/-- A block of raw code says which variables the code declares. -/
def DeclaresRaw (p : Program) (b : BlockRef) : Prop :=
  p.kind b = .rawStatement ∧ (p.block b).field? "DECLARED_VARIABLES" ≠ none

/-- The walk comes to a block: places it and looks at what it reads, writes or declares. -/
def enter (p : Program) (s : ScopeId) (b : BlockRef) : TrackM Unit := do
  place b s
  p.visitSelf s b

/-- The walk turns to the inputs of a block. -/
def openInputs (p : Program) (s : ScopeId) (b : BlockRef) : TrackM ScopeId := do
  let declared ← p.ownDeclarations (p.block b)
  inputScope s b declared

end Program

variable {p : Program} {c c' : Compilation} {g : TypeGraph} {n : String} {inner : ScopeId}

/-! ## Nodes for variables -/

/-- The graph changes, and speaks of types that the program names. -/
structure Makes (p : Program) (g h : TypeGraph) : Prop where
  changes : TypeGraph.Changes g h
  speaks : ∀ P, TypeGraph.Vocabulary P → p.Names P → g.Speaks P → h.Speaks P

instance makesRefl (p : Program) : Std.Refl (Makes p) :=
  ⟨fun g => ⟨Std.Refl.refl g, fun _ _ _ h => h⟩⟩

instance makesTrans (p : Program) : IsTrans TypeGraph (Makes p) :=
  ⟨fun _ _ _ h1 h2 => ⟨trans_of Changes h1.changes h2.changes,
    fun P hP hp h => h2.speaks P hP hp (h1.speaks P hP hp h)⟩⟩

/-- On a graph with the primitive types, the step makes a node, of a definite type if `definite`. -/
def MakesNode (p : Program) (definite : Bool) (m : GraphM NodeId) : Prop :=
  ∀ g : TypeGraph, g.HasPrimitives →
    Runs (Makes p) m g fun n h => n < h.size ∧ (definite = true → h.Definite n)

theorem makesNode_addNode (p : Program) (isArray : Bool) :
    MakesNode p isArray (addNode none isArray) := by
  intro g _
  obtain ⟨hchanges, hlt, _⟩ := runs_addNode (g := g) none isArray
  refine ⟨⟨hchanges, fun P _ _ h => ?_⟩, hlt, fun hlist => .inr ?_⟩
  · exact (preserves_addNode spoken_none isArray g h).1
  · rw [isListAt_addNode, hlist]

theorem makesNode_ground {t : TypeName} (ht : ∀ P, Vocabulary P → p.Names P → P t)
    {definite : Bool} (hdefinite : definite = true → t ≠ TypeName.array) :
    MakesNode p definite (ground t) := by
  intro g hp
  obtain ⟨hchanges, hlt, htype⟩ := runs_ground hp t
  refine ⟨⟨hchanges, fun P hP hn h => ?_⟩, hlt, fun h => .inl ?_⟩
  · exact (preserves_ground (ht P hP hn) g h).1
  · exact isOpen_eq_false_iff.mpr ⟨t, htype, hdefinite h⟩

theorem makesNode_number (p : Program) : MakesNode p false (ground .number) :=
  makesNode_ground (fun _ hP _ => hP.constant _ (by simp)) nofun

theorem MakesNode.ite {P : Prop} [Decidable P] {definite : Bool} {m m' : GraphM NodeId}
    (h : P → MakesNode p definite m) (h' : ¬ P → MakesNode p definite m') :
    MakesNode p definite (if P then m else m') := by
  split
  · next hP => exact h hP
  · next hP => exact h' hP

/-- A parameter has a given type, the dynamic type, or is a list. -/
theorem makesNode_parameter {b : BlockRef} {a : FunctionArg} (ha : a ∈ (p.block b).args) :
    MakesNode p true (parameterNode a.type) := by
  refine .ite (fun _ => makesNode_addNode p true) fun hlist => .ite (fun _ => ?_) fun _ => ?_
  · exact makesNode_ground (fun _ hP _ => hP.constant _ (by simp)) fun _ => by decide
  · exact makesNode_ground (fun _ _ hn => hn.argument b a ha) fun _ => hlist

theorem makesNode_variable {v : VariableModel} (hv : v ∈ p.workspace.vars) :
    MakesNode p false (variableNode v.type) := by
  unfold variableNode
  split
  · exact makesNode_addNode p false
  · next t heq =>
    refine .ite (fun _ => makesNode_addNode p false) fun _ => ?_
    exact makesNode_ground (fun _ _ hn => hn.binding v hv t heq) nofun

/-! ## What a block declares -/

/-- A declaration whose node is in the graph: a parameter has a definite type, and none is declared
by an assignment. -/
structure OwnDeclaration.Proper (d : OwnDeclaration) (g : TypeGraph) : Prop where
  node_lt : d.node < g.size
  definite : d.isParameter = true → g.Definite d.node
  unassigned : d.declaration ≠ .assigned

theorem OwnDeclaration.Proper.makes {d : OwnDeclaration} {h : TypeGraph} (hd : d.Proper g)
    (hg : g.WellFormed) (hm : Makes p g h) : d.Proper h where
  node_lt := lt_of_lt_of_le hd.node_lt (hm.changes.size_le hg)
  definite hq := (hd.definite hq).extends (hm.changes.extends hg)
  unassigned := hd.unassigned

/-- Declarations with the given names. -/
def AreProper (names : List String) (ds : List OwnDeclaration) (g : TypeGraph) : Prop :=
  ds.map (·.name) = names ∧ ∀ d ∈ ds, d.Proper g

/-- The step makes the declaration of a variable with a name. -/
def MakesDeclaration (p : Program) (m : GraphM OwnDeclaration) (name : String) : Prop :=
  ∀ g : TypeGraph, g.HasPrimitives → Runs (Makes p) m g fun d h => d.name = name ∧ d.Proper h

theorem MakesNode.declares {m : GraphM NodeId} {definite : Bool} (h : MakesNode p definite m)
    {f : NodeId → OwnDeclaration} {name : String} (hname : ∀ n, (f n).name = name)
    (hnode : ∀ n, (f n).node = n) (hparameter : ∀ n, (f n).isParameter = definite)
    (hdeclaration : ∀ n, (f n).declaration ≠ .assigned) :
    MakesDeclaration p (do let n ← m; return f n) name := by
  intro g hp
  refine .bind (h g hp) ?_
  rintro n k _ ⟨hlt, hdefinite⟩
  refine .pure _ ⟨hname n, ?_, ?_, hdeclaration n⟩
  · rw [hnode]
    exact hlt
  · rw [hnode, hparameter]
    exact hdefinite

theorem MakesDeclaration.mapM {α : Type} {f : α → GraphM OwnDeclaration} (name : α → String)
    {l : List α} {names : List String} (hnames : l.map name = names) (hg : g.WellFormed)
    (hp : g.HasPrimitives) (hf : ∀ a ∈ l, MakesDeclaration p (f a) (name a)) :
    Runs (Makes p) (l.mapM f) g (AreProper names) := by
  subst hnames
  induction l generalizing g with
  | nil => exact .pure _ ⟨rfl, nofun⟩
  | cons a r ih =>
    rw [mapM_cons]
    refine .bind (hf a (.head _) g hp) ?_
    rintro d k hk ⟨hname, hd⟩
    have hkg := hk.changes.wellFormed hg
    refine .bind (ih hkg (hp.extends (hk.changes.extends hg)) fun x hx => hf x (.tail a hx)) ?_
    rintro ds k' hk' ⟨hnames, hds⟩
    refine .pure _ ⟨?_, forall_mem_cons.mpr ⟨hd.makes hkg hk', hds⟩⟩
    rw [map_cons, map_cons, hname, hnames]

theorem makes_kindDeclarations (b : BlockRef) (hg : g.WellFormed) (hp : g.HasPrimitives) :
    Runs (Makes p) (p.kindDeclarations (p.block b)) g (AreProper (p.kindNames (p.block b))) := by
  unfold kindDeclarations kindNames
  cases (p.block b).kind with
  | forRange =>
    refine MakesDeclaration.mapM (fun name => name) (map_id' _) hg hp fun name _ => ?_
    exact (makesNode_number p).declares (fun _ => rfl) (fun _ => rfl) (fun _ => rfl) fun _ => nofun
  | forOf =>
    refine MakesDeclaration.mapM (fun name => name) (map_id' _) hg hp fun name _ => ?_
    exact (makesNode_addNode p false).declares (fun _ => rfl) (fun _ => rfl) (fun _ => rfl)
      fun _ => nofun
  | repeatTimes =>
    refine .bind (makesNode_number p g hp) ?_
    rintro n k _ ⟨hlt, _⟩
    refine .pure _ ⟨rfl, fun d hd => ?_⟩
    rw [mem_singleton.mp hd]
    exact ⟨hlt, nofun, nofun⟩
  | functionDefinition =>
    refine MakesDeclaration.mapM _ rfl hg hp fun a ha => ?_
    exact (makesNode_parameter ha).declares (fun _ => rfl) (fun _ => rfl) (fun _ => rfl)
      fun _ => nofun
  | hostCall name =>
    refine MakesDeclaration.mapM _ rfl hg hp fun h hh => ?_
    have hnode : MakesNode p false (ground h.type) := by
      refine makesNode_ground (fun P _ hn => ?_) nofun
      unfold handlerOf at hh
      cases hhandler : (p.surface.symbol? name).bind (·.handler) with
      | none =>
        rw [hhandler] at hh
        exact absurd hh not_mem_nil
      | some parameters =>
        rw [hhandler] at hh
        obtain ⟨symbol, hsymbol, hparameters⟩ := Option.bind_eq_some_iff.mp hhandler
        exact hn.handler name symbol hsymbol parameters hparameters h hh
    exact hnode.declares (fun _ => rfl) (fun _ => rfl) (fun _ => rfl) fun _ => nofun
  | _ => exact .pure _ ⟨rfl, nofun⟩

theorem makes_mutationDeclarations (b : BlockRef) (hg : g.WellFormed) (hp : g.HasPrimitives) :
    Runs (Makes p) (mutationDeclarations (p.block b)) g
      (AreProper (mutationNames (p.block b))) := by
  refine MakesDeclaration.mapM _ rfl hg hp fun q hq => ?_
  have hnode : MakesNode p false (ground q.2) := by
    refine makesNode_ground (fun P _ hn => ?_) nofun
    cases hdeclared : (p.block b).mutation.bind Mutation.declaredVariables? with
    | none =>
      rw [hdeclared] at hq
      exact absurd hq not_mem_nil
    | some properties =>
      rw [hdeclared] at hq
      obtain ⟨m, hm, hproperties⟩ := Option.bind_eq_some_iff.mp hdeclared
      exact hn.property b m hm properties hproperties q hq
  exact (MakesNode.ite (fun _ => makesNode_addNode p false) fun _ => hnode).declares
    (fun _ => rfl) (fun _ => rfl) (fun _ => rfl) fun _ => nofun

theorem makes_ownDeclarations (b : BlockRef) (hg : g.WellFormed) (hp : g.HasPrimitives) :
    Runs (Makes p) (p.ownDeclarations (p.block b)) g (AreProper (p.ownNames (p.block b))) := by
  refine .bind (makes_kindDeclarations b hg hp) ?_
  rintro byKind k hk ⟨hnames, hkind⟩
  have hkg := hk.changes.wellFormed hg
  refine .bind (makes_mutationDeclarations b hkg (hp.extends (hk.changes.extends hg))) ?_
  rintro byMutation k' hk' ⟨hnames', hmutation⟩
  refine .pure _ ⟨?_, forall_mem_append.mpr ⟨?_, hmutation⟩⟩
  · rw [map_append, hnames, hnames']
    rfl
  · exact fun d hd => (hkind d hd).makes hkg hk'

/-! ## Additions -/

/-- Notes about a new variable with node `n`: some block declares it, not by an assignment, and it
is a parameter only with a definite type. -/
structure Closes (g : TypeGraph) (n : NodeId) (f : Binding → Binding) : Prop where
  name_eq : ∀ x, (f x).name = x.name
  node_eq : ∀ x, (f x).node = x.node
  references_eq : ∀ x, (f x).references = x.references
  declared : ∀ x, (f x).declared ≠ none
  unassigned : ∀ x, (f x).declared ≠ some .assigned
  definite : ∀ x, (f x).isParameter = true → x.isParameter = true ∨ g.Definite n

/-- Something is added, and a variable takes the place of none at the root or in the first `N`
scopes. Other than at the root, only raw code declares variables there. -/
inductive Adds (p : Program) (N : Nat) (raw : Prop) : Compilation → Compilation → Prop where
  | graph (c : Compilation) (g : TypeGraph) (hg : Makes p c.graph g) :
      Adds p N raw c { c with graph := g }
  | place (c : Compilation) (b : BlockRef) (s : ScopeId) (hs : s < c.scopes.size) :
      Adds p N raw c { c with blockScope := c.blockScope.insert b s }
  | newScope (c : Compilation) (s : ScopeId) (first : Option BlockRef) (hs : s < c.scopes.size)
      (hN : N ≤ c.scopes.size) : Adds p N raw c (newScope (some s) first c).2
  | atRoot (c : Compilation) (name : String) (node : NodeId) (hs : rootScope < c.scopes.size)
      (hn : node < c.graph.size) (hfree : (c.scope rootScope).declared.get? name = none) :
      Adds p N raw c (declare rootScope name node c).2
  | closed (c : Compilation) (s : ScopeId) (name : String) (node : NodeId) (f : Binding → Binding)
      (hs : s < c.scopes.size) (hn : node < c.graph.size) (hf : Closes c.graph node f)
      (hfree : s < N ∨ s = rootScope → raw ∧ (c.scope s).declared.get? name = none) :
      Adds p N raw c ((declare s name node c).2.updateBinding c.bindings.size f)

def Adding (p : Program) (N : Nat) (raw : Prop) : Compilation → Compilation → Prop :=
  Relation.ReflTransGen (Adds p N raw)

variable {N : Nat} {raw : Prop} {s : ScopeId} {b : BlockRef}

instance addingRefl (p : Program) (N : Nat) (raw : Prop) : Std.Refl (Adding p N raw) :=
  ⟨fun _ => .refl⟩

instance addingTrans (p : Program) (N : Nat) (raw : Prop) : IsTrans Compilation (Adding p N raw) :=
  ⟨fun _ _ _ => Relation.ReflTransGen.trans⟩

theorem Adds.adding (h : Adds p N raw c c') : Adding p N raw c c' :=
  .single h

theorem Adding.along {R : Compilation → Compilation → Prop} [Std.Refl R] [IsTrans Compilation R]
    (hR : ∀ d d', Adds p N raw d d' → R d d') (h : Adding p N raw c c') : R c c' := by
  induction h with
  | refl => exact Std.Refl.refl c
  | tail _ hlast ih => exact trans_of R ih (hR _ _ hlast)

theorem Adds.mono {M : Nat} {raw' : Prop} (hM : M ≤ N) (hraw : raw → raw') (h : Adds p N raw c c') :
    Adds p M raw' c c' := by
  cases h with
  | graph g hg => exact .graph c g hg
  | place b s hs => exact .place c b s hs
  | newScope s first hs hN => exact .newScope c s first hs (le_trans hM hN)
  | atRoot name node hs hn hfree => exact .atRoot c name node hs hn hfree
  | closed s name node f hs hn hf hfree =>
    refine .closed c s name node f hs hn hf fun h => ?_
    exact (hfree (h.imp_left fun h => lt_of_lt_of_le h hM)).imp_left hraw

theorem Adding.mono {M : Nat} {raw' : Prop} (hM : M ≤ N) (hraw : raw → raw')
    (h : Adding p N raw c c') : Adding p M raw' c c' :=
  h.along fun _ _ hstep => (hstep.mono hM hraw).adding

theorem Adds.steps (h : Adds p N raw c c') : ScopeSteps c c' := by
  cases h with
  | graph g hg => exact (ScopeStep.graph c g hg.changes).single
  | place b s hs => exact (ScopeStep.place c b s hs).single
  | newScope s first hs _ => exact (ScopeStep.newScope c s first hs).single
  | atRoot name node hs hn _ => exact (ScopeStep.declare c rootScope name node hs hn).single
  | closed s name node f hs hn hf _ =>
    exact .tail (ScopeStep.declare c s name node hs hn).single
      (ScopeStep.binding _ _ f hf.name_eq hf.node_eq)

theorem Adding.steps (h : Adding p N raw c c') : ScopeSteps c c' :=
  h.along fun _ _ hstep => hstep.steps

theorem Adds.makes (h : Adds p N raw c c') : Makes p c.graph c'.graph := by
  cases h with
  | graph g hg => exact hg
  | _ => exact Std.Refl.refl c.graph

/-- Variables stay as they are, and a new one is as it is declared. -/
theorem Adds.binding_cases (h : Adds p N raw c c') (v : BindingId) :
    c'.binding v = c.binding v ∨ ∃ name node f, c'.binding v = f { name, node } ∧
      (f = id ∨ Closes c.graph node f) := by
  cases h with
  | graph g hg => exact .inl rfl
  | place b s hs => exact .inl rfl
  | newScope s first hs _ => exact .inl rfl
  | atRoot name node _ _ _ =>
    rw [binding_declare]
    split
    · exact .inr ⟨name, node, id, rfl, .inl rfl⟩
    · exact .inl rfl
  | closed s name node f _ _ hf _ =>
    by_cases hv : v = c.bindings.size
    · subst hv
      have hsize := bindings_size_declare c s name node
      refine .inr ⟨name, node, f, ?_, .inr hf⟩
      rw [binding_updateBinding_self _ (hsize ▸ Nat.lt_succ_self _), binding_declare, if_pos rfl]
    · refine .inl ?_
      rw [binding_updateBinding_ne _ hv, binding_declare, if_neg hv]

/-- What additions keep of orderly states, sequences of them do. -/
theorem Adding.invariant {J : Compilation → Prop}
    (hJ : ∀ d d', Orderly p d → Adds p N raw d d' → J d → J d') (h : Adding p N raw c c')
    (hc : Orderly p c) (hJc : J c) : J c' := by
  induction h with
  | refl => exact hJc
  | tail hadding hlast ih => exact hJ _ _ ((Adding.steps hadding).orderly hc) hlast ih

/-! ## Variables at the root -/

theorem adding_graph {α : Type} {m : GraphM α} {Q : α → TypeGraph → Prop}
    (h : Runs (Makes p) m c.graph Q) : Runs (Adding p N raw) (liftM m : TrackM α) c (OnGraph c Q) :=
  ⟨(Adds.graph c _ h.1).adding, rfl, h.2⟩

theorem Finds.congr (hparent : ∀ s, (c'.scope s).parent = (c.scope s).parent)
    (hdeclared : ∀ s, (c'.scope s).declared.get? n = (c.scope s).declared.get? n) {v : BindingId}
    {s : ScopeId} (h : Finds c n v s) : Finds c' n v s := by
  induction h with
  | @here s h => exact .here ((hdeclared s).trans h)
  | @up s q hfree hq _ ih => exact .up ((hdeclared s).trans hfree) ((hparent s).trans hq) ih

/-- A variable that is declared at the root for a name that means nothing in a scope is what the
name means there from then on. -/
theorem finds_declare_root (ht : ScopeTree c) (hs : s < c.scopes.size)
    (hnone : ∀ w, ¬ Finds c n w s) (node : NodeId) :
    Finds (declare rootScope n node c).2 n c.bindings.size s := by
  have hscope := scope_declare c ht.root_lt n node
  induction s using Nat.strongRecOn with
  | ind s ih =>
    by_cases hr : s = rootScope
    · refine .here ?_
      rw [hscope, if_pos hr]
      exact Table.get?_insert_self _ _ _
    · obtain ⟨q, hq, hlt, _⟩ := ht.parent s hs hr
      have hfree : (c.scope s).declared.get? n = none :=
        Option.eq_none_iff_forall_ne_some.mpr fun w hw => hnone w (.here hw)
      refine .up ?_ ?_ (ih q hlt (lt_trans hlt hs) fun w hw => hnone w (.up hfree hq hw))
      · rw [hscope, if_neg hr]
        exact hfree
      · rw [hscope, if_neg hr]
        exact hq

theorem adding_findOrDeclare (N : Nat) (raw : Prop) (hc : Orderly p c) (hs : s < c.scopes.size)
    (n : String) :
    Runs (Adding p N raw) (findOrDeclare s n) c fun v c' =>
      c'.blockScope = c.blockScope ∧ Finds c' n v s := by
  have ht := hc.tree
  unfold findOrDeclare
  refine .bind_get ?_
  split
  · next v hv => exact .pure v ⟨rfl, (find?_eq_some_iff ht).mp hv⟩
  · next hnone =>
    have hfinds : ∀ w, ¬ Finds c n w s := by
      intro w hw
      rw [(find?_eq_some_iff ht).mpr hw] at hnone
      cases hnone
    -- a name that means nothing in some scope is not declared at the root
    have hfree : (c.scope rootScope).declared.get? n = none := by
      refine Option.eq_none_iff_forall_ne_some.mpr fun w hw => ?_
      obtain ⟨v, hv⟩ := finds_of_root ht hs hw
      exact hfinds v hv
    refine .bind (adding_graph (makesNode_addNode p false _ hc.consistent.primitives)) ?_
    rintro node d _ ⟨hd, hn, _⟩
    generalize d.graph = k at hd hn
    subst hd
    refine ⟨(Adds.atRoot { c with graph := k } n node ht.root_lt hn hfree).adding, rfl, ?_⟩
    have ht' : ScopeTree { c with graph := k } := ht.congr rfl (fun _ => rfl) (fun _ => rfl)
    refine finds_declare_root ht' hs (fun w hw => hfinds w (hw.congr ?_ ?_)) node
    all_goals exact fun _ => rfl

theorem adding_declareVariable (N : Nat) (raw : Prop) {v : VariableModel}
    (hv : v ∈ p.workspace.vars) (hc : Orderly p c) :
    Runs (Adding p N raw) (p.declareVariable v) c fun _ c' => c'.blockScope = c.blockScope := by
  unfold declareVariable
  extract_lets isMember
  refine .bind_get ?_
  split
  · exact .pure _ rfl
  · next hfree =>
    rw [Bool.or_eq_true, not_or] at hfree
    have hnode := makesNode_variable hv _ hc.consistent.primitives
    refine .bind (adding_graph hnode) ?_
    rintro node d _ ⟨hd, hn, _⟩
    generalize d.graph = k at hd hn
    subst hd
    have hnone := Option.not_isSome_iff_eq_none.mp hfree.2
    exact ⟨(Adds.atRoot { c with graph := k } v.name node hc.tree.root_lt hn hnone).adding, rfl⟩

/-! ## Variables that blocks declare -/

/-- A scope declares more. -/
structure Fills (s : ScopeId) (names : List String) (c c' : Compilation) : Prop where
  blockScope_eq : c'.blockScope = c.blockScope
  scope_eq : ∃ declared, c'.scope s = { c.scope s with declared }
  kept : ∀ n v, (c.scope s).declared.get? n = some v → ∃ w, (c'.scope s).declared.get? n = some w
  names : ∀ n ∈ names, ∃ v, (c'.scope s).declared.get? n = some v

theorem Fills.refl {names : List String}
    (h : ∀ n ∈ names, ∃ v, (c.scope s).declared.get? n = some v) : Fills s names c c :=
  ⟨rfl, ⟨_, rfl⟩, fun _ v h => ⟨v, h⟩, h⟩

theorem Fills.cons {r : List String} {d : Compilation} (h : Fills s [n] c d) (hr : Fills s r d c') :
    Fills s (n :: r) c c' := by
  obtain ⟨_, hscope⟩ := h.scope_eq
  obtain ⟨table, hscope'⟩ := hr.scope_eq
  refine ⟨hr.blockScope_eq.trans h.blockScope_eq, ⟨table, ?_⟩, fun m v hv => ?_, ?_⟩
  · rw [hscope', hscope]
  · obtain ⟨w, hw⟩ := h.kept m v hv
    exact hr.kept m w hw
  · refine forall_mem_cons.mpr ⟨?_, hr.names⟩
    obtain ⟨v, hv⟩ := h.names n (.head _)
    exact hr.kept n v hv

theorem fills_declare (hs : s < c.scopes.size) (name : String) (node : NodeId) :
    Fills s [name] c (declare s name node c).2 := by
  have hscope := scope_declare c hs name node s
  rw [if_pos rfl] at hscope
  have hget : ∀ n, ((declare s name node c).2.scope s).declared.get? n =
      if n = name then some c.bindings.size else (c.scope s).declared.get? n := by
    intro n
    rw [hscope, Table.get?_insert]
  refine ⟨rfl, ⟨_, hscope⟩, fun n v hv => ?_, fun n hn => ?_⟩
  · rw [hget]
    split
    · exact ⟨_, rfl⟩
    · exact ⟨v, hv⟩
  · rw [mem_singleton.mp hn]
    exact ⟨c.bindings.size, (hget name).trans (if_pos rfl)⟩

theorem adding_declareRaw (hraw : raw) (hc : Orderly p c) (hs : s < c.scopes.size) (n : String) :
    Runs (Adding p N raw) (declareRaw s n) c fun _ => Fills s [n] c := by
  unfold declareRaw
  refine .bind_get ?_
  split
  · next hn =>
    refine .pure _ (.refl fun m hm => ?_)
    rw [mem_singleton.mp hm]
    exact Option.isSome_iff_exists.mp hn
  · next hfree =>
    refine .bind (adding_graph (makesNode_addNode p false _ hc.consistent.primitives)) ?_
    rintro node d _ ⟨hd, hn, _⟩
    generalize d.graph = k at hd hn
    subst hd
    have hfills := fills_declare (c := { c with graph := k }) hs n node
    refine ⟨(Adds.closed { c with graph := k } s n node _ hs hn ?_ fun _ => ⟨hraw, ?_⟩).adding,
      hfills.1, hfills.2, hfills.3, hfills.4⟩
    · exact ⟨fun _ => rfl, fun _ => rfl, fun _ => rfl, fun _ => Option.some_ne_none _,
        fun _ h => (by cases h), fun _ => .inl⟩
    · exact Option.not_isSome_iff_eq_none.mp hfree

theorem adding_declareAll (hN : N ≤ s) (hroot : s ≠ rootScope) (b : BlockRef)
    {ds : List OwnDeclaration} (hs : s < c.scopes.size) (hds : ∀ d ∈ ds, d.Proper c.graph) :
    Runs (Adding p N raw) (ds.forM (declareOwn s b)) c fun _ => Fills s (ds.map (·.name)) c := by
  induction ds generalizing c with
  | nil => exact .pure _ (.refl nofun)
  | cons d r ih =>
    obtain ⟨hd, hr⟩ := forall_mem_cons.mp hds
    have hdeclare : Runs (Adding p N raw) (declareOwn s b d) c fun _ c' =>
        c'.graph = c.graph ∧ c'.scopes.size = c.scopes.size ∧ Fills s [d.name] c c' := by
      have hfills := fills_declare hs d.name d.node
      refine ⟨(Adds.closed c s d.name d.node _ hs hd.node_lt ?_ fun h => ?_).adding, rfl,
        size_declare c s d.name d.node, hfills.1, hfills.2, hfills.3, hfills.4⟩
      · exact ⟨fun _ => rfl, fun _ => rfl, fun _ => rfl, fun _ => Option.some_ne_none _,
          fun _ h => hd.unassigned (Option.some.inj h), fun _ h => .inr (hd.definite h)⟩
      · rcases h with h | h
        · exact absurd h (Nat.not_lt_of_le hN)
        · exact absurd h hroot
    refine .bind hdeclare ?_
    rintro _ c1 _ ⟨hgraph, hsize, hfirst⟩
    refine (ih (by rw [hsize]; exact hs) (by rw [hgraph]; exact hr)).imp fun _ c2 _ hrest => ?_
    exact hfirst.cons hrest

/-! ## The inputs of a block -/

/-- The scope for the inputs of a block: the one around it, or a new one in which the block is
placed and has declared its variables. -/
inductive Opened (p : Program) (s : ScopeId) (b : BlockRef) (c : Compilation) :
    ScopeId → Compilation → Prop where
  | same {c' : Compilation} (hnames : p.ownNames (p.block b) = [])
      (hscope : c'.blockScope = c.blockScope) : Opened p s b c s c'
  | new {c' : Compilation} (hnames : p.ownNames (p.block b) ≠ [])
      (hlt : c.scopes.size < c'.scopes.size)
      (hinner : ∃ declared,
        c'.scope c.scopes.size = { parent := some s, first := some b, declared })
      (hdeclared : ∀ n ∈ p.ownNames (p.block b),
        ∃ v, (c'.scope c.scopes.size).declared.get? n = some v)
      (hscope : c'.blockScope = c.blockScope.insert b c.scopes.size) :
      Opened p s b c c.scopes.size c'

theorem adding_openInputs (raw : Prop) (hc : Orderly p c) (hs : s < c.scopes.size) (b : BlockRef) :
    Runs (Adding p c.scopes.size raw) (p.openInputs s b) c (Opened p s b c) := by
  have hnodes := makes_ownDeclarations (p := p) b hc.consistent.graph hc.consistent.primitives
  refine .bind (adding_graph hnodes) ?_
  rintro ds d _ ⟨hd, hnames, hproper⟩
  generalize d.graph = k at hd hproper
  subst hd
  unfold inputScope
  split
  · next hempty =>
    rw [List.isEmpty_iff.mp hempty] at hnames
    exact .pure _ (.same hnames.symm rfl)
  · next hempty =>
    have hsize := size_newScope { c with graph := k } s (some b)
    have hlt : c.scopes.size < c.scopes.size + 1 := Nat.lt_succ_self _
    have hnew : Runs (Adding p c.scopes.size raw) (newScope (some s) (some b))
        { c with graph := k } fun own d => own = c.scopes.size ∧
          d = (newScope (some s) (some b) { c with graph := k }).2 :=
      ⟨(Adds.newScope { c with graph := k } s (some b) hs le_rfl).adding, rfl, rfl⟩
    refine .bind hnew ?_
    rintro _ _ _ ⟨rfl, rfl⟩
    have hroot : c.scopes.size ≠ rootScope := ne_of_gt hc.tree.root_lt
    refine .bind (adding_declareAll le_rfl hroot b (hsize ▸ hlt) hproper) ?_
    intro _ e he hfills
    have hlte := lt_of_lt_of_le (hsize ▸ hlt) he.steps.size_le
    refine .bind_modify _ (Adds.place e b _ hlte).adding (.pure _ (.new ?_ hlte ?_ ?_ ?_))
    · rw [← hnames]
      exact fun hnil => hempty (List.isEmpty_iff.mpr (map_eq_nil_iff.mp hnil))
    · obtain ⟨declared, hscope⟩ := hfills.scope_eq
      refine ⟨declared, hscope.trans ?_⟩
      rw [scope_newScope { c with graph := k } hs, if_pos rfl]
    · rw [← hnames]
      exact hfills.names
    · exact congrArg (·.insert b c.scopes.size) hfills.blockScope_eq

theorem Opened.lt (h : Opened p s b c inner c') (hs : s < c.scopes.size)
    (hsteps : ScopeSteps c c') : inner < c'.scopes.size := by
  cases h with
  | same => exact lt_of_lt_of_le hs hsteps.size_le
  | new _ hlt _ _ _ => exact hlt

/-- At most the block itself is placed anew. -/
theorem Opened.placed_eq (h : Opened p s b c inner c') {x : BlockRef} (hx : x ≠ b) :
    c'.blockScope.get? x = c.blockScope.get? x := by
  cases h with
  | same _ hscope => rw [hscope]
  | new _ _ _ _ hscope => rw [hscope, Table.get?_insert_ne _ _ hx]

theorem Opened.contains (h : Opened p s b c inner c') (hb : c.blockScope.get? b = some s) :
    c'.blockScope.contains b = true := by
  unfold Table.contains
  cases h with
  | same _ hscope => rw [hscope, hb, Option.isSome_some]
  | new _ _ _ _ hscope => rw [hscope, Table.get?_insert_self, Option.isSome_some]

/-! ## Coming to a block -/

/-- What the walk does at a block: it finds a variable and notes the use, or the block uses none,
and the variables that raw code declares are in the scope. -/
inductive Entered (p : Program) (N : Nat) (s : ScopeId) (b : BlockRef) (c : Compilation) :
    Compilation → Prop where
  | uses {n : String} {v : BindingId} {d : Compilation} (assigns : Bool)
      (hn : (p.block b).usedName? = some n) (hadd : Adding p N False c d)
      (hscope : d.blockScope = c.blockScope.insert b s) (hv : Finds d n v s) :
      Entered p N s b c (recordUse s b assigns v d)
  | apart {d : Compilation} (hn : (p.block b).usedName? = none)
      (hadd : Adding p N (p.DeclaresRaw b) c d)
      (hscope : d.blockScope = c.blockScope.insert b s)
      (hraw : p.kind b = .rawStatement → ∀ n ∈ rawNames (p.block b),
        ∃ v, (d.scope s).declared.get? n = some v) : Entered p N s b c d

theorem entered_reference (hc : Orderly p c) (hs : s < c.scopes.size) (b : BlockRef)
    (assigns : Bool) {name : Option String} (hname : (p.block b).usedName? = name)
    (hraw : p.kind b ≠ .rawStatement) :
    Entered p N s b c (reference s b assigns name
      { c with blockScope := c.blockScope.insert b s }).2 := by
  cases name with
  | none => exact .apart hname (Adds.place c b s hs).adding rfl fun h => absurd h hraw
  | some n =>
    have hplace : Adds p N False c { c with blockScope := c.blockScope.insert b s } :=
      .place c b s hs
    obtain ⟨hadd, hscope, hv⟩ := adding_findOrDeclare N False (hplace.steps.orderly hc) hs n
    exact .uses assigns hname (hplace.adding.trans hadd) hscope hv

theorem adding_rawNames (hb : p.DeclaresRaw b) (hc : Orderly p c) (hs : s < c.scopes.size)
    (names : List String) :
    Runs (Adding p N (p.DeclaresRaw b)) (names.forM (declareRaw s)) c fun _ => Fills s names c := by
  induction names generalizing c with
  | nil => exact .pure _ (.refl nofun)
  | cons n r ih =>
    show Runs _ (declareRaw s n >>= fun _ => r.forM (declareRaw s)) c _
    refine .bind (adding_declareRaw hb hc hs n) ?_
    intro _ d hd hfirst
    refine (ih (hd.steps.orderly hc) (lt_of_lt_of_le hs hd.steps.size_le)).imp ?_
    exact fun _ _ _ hrest => hfirst.cons hrest

theorem entered_enter (hc : Orderly p c) (hs : s < c.scopes.size) (b : BlockRef) :
    Entered p N s b c (p.enter s b c).2 := by
  have hplace : Adds p N (p.DeclaresRaw b) c { c with blockScope := c.blockScope.insert b s } :=
    .place c b s hs
  have hkind : p.kind b = (p.block b).kind := rfl
  show Entered p N s b c (p.visitSelf s b { c with blockScope := c.blockScope.insert b s }).2
  unfold visitSelf
  cases hk : (p.block b).kind with
  | variableGet =>
    exact entered_reference hc hs b false (by rw [Block.usedName?, hk]) (by simp [hkind, hk])
  | argumentReporter =>
    exact entered_reference hc hs b false (by rw [Block.usedName?, hk]) (by simp [hkind, hk])
  | variableSet =>
    exact entered_reference hc hs b true (by rw [Block.usedName?, hk]) (by simp [hkind, hk])
  | variableChange =>
    exact entered_reference hc hs b true (by rw [Block.usedName?, hk]) (by simp [hkind, hk])
  | rawStatement =>
    have hnone : (p.block b).usedName? = none := by rw [Block.usedName?, hk]
    by_cases hfield : (p.block b).field? "DECLARED_VARIABLES" = none
    · have hnames : rawNames (p.block b) = [] := by
        unfold rawNames
        rw [hfield]
      dsimp only
      rw [hnames]
      exact .apart hnone hplace.adding rfl fun _ => by simp [hnames]
    · obtain ⟨hadd, hfills⟩ := adding_rawNames (p := p) (N := N) ⟨hk, hfield⟩
        (hplace.steps.orderly hc) hs (rawNames (p.block b))
      exact .apart hnone (hplace.adding.trans hadd) hfills.blockScope_eq fun _ => hfills.names
  | _ => exact .apart (by rw [Block.usedName?, hk]) hplace.adding rfl (by simp [hkind, hk])

theorem steps_recordUse (s : ScopeId) (b : BlockRef) (assigns : Bool) (v : BindingId) :
    ScopeSteps c (recordUse s b assigns v c) := by
  unfold recordUse
  refine .tail (ScopeStep.single (ScopeStep.binding c v _ ?_ ?_)) (ScopeStep.scope _ s _ ?_ ?_ ?_)
  all_goals exact fun _ => rfl

theorem Entered.steps (h : Entered p N s b c c') : ScopeSteps c c' := by
  cases h with
  | uses assigns _ hadd _ _ => exact hadd.steps.trans (steps_recordUse s b assigns _)
  | apart _ hadd _ _ => exact hadd.steps

theorem Entered.blockScope_eq (h : Entered p N s b c c') :
    c'.blockScope = c.blockScope.insert b s := by
  cases h with
  | uses _ _ _ hscope _ => exact hscope
  | apart _ _ hscope _ => exact hscope

end BlockProgram
