import BlockProgram.Proofs.Table
import BlockProgram.Proofs.TypeGraph.Typed
import BlockProgram.Typing.Result

/-!
# Compilations that fit together

In a `Consistent` compilation every node that is remembered for a variable, a placeholder, a block
or a function is one of the type graph, and blocks and functions have remembered nodes only where
one is made up for them.

Typing never forgets: it leaves scopes and variables alone, it keeps placeholders and remembered
nodes, and the graph only grows (`Advances`). Both facts travel together along every typing step, as
`Proceeds`.
-/

namespace BlockProgram

open Program Compilation TypeGraph

variable {α : Type} {input : String} {b : BlockRef} {g : TypeGraph} {c c' : Compilation}
  {m : UnifyM α} {Q : α → TypeGraph → Prop} {n : NodeId}

/-- Where the node of a block comes from. -/
inductive NodeSource where
  | binding (name : String)
  | function (name : String)
  /-- A node made up for the block. -/
  | own
  /-- A node of the type that the block declares. -/
  | declared (t : TypeName)

/-- Where the node of a block comes from that may be used as the given types. -/
def outputSource : Option (List TypeName) → NodeSource
  | none => .declared .void
  | some [] => .own
  | some (first :: rest) =>
    if first = TypeName.array then
      match rest with
      | list :: _ => .declared list
      | [] => .own
    else if first = TypeName.generic then .own
    else .declared first

/-- Where the node of a block comes from. -/
def Program.nodeSource (p : Program) (b : BlockRef) : NodeSource :=
  match (p.block b).kind with
  | .variableGet => .binding ((p.block b).variableField?.getD "")
  | .argumentReporter => .binding (((p.block b).field? "VALUE").getD "")
  | .functionCallOutput => .function ((p.block b).functionName?.getD "")
  | _ => outputSource (p.block b).output

/-- What is remembered about a program fits together. -/
structure Consistent (p : Program) (c : Compilation) : Prop where
  graph : c.graph.WellFormed
  primitives : c.graph.HasPrimitives
  binding_lt : ∀ v, (c.binding v).node < c.graph.size
  placeholder_lt : ∀ i, (c.placeholder i).node < c.graph.size
  blockNode_lt : ∀ b n, c.blockNodes.get? b = some n → n < c.graph.size
  blockNode_own : ∀ b n, c.blockNodes.get? b = some n → p.nodeSource b = .own
  functionNode_lt : ∀ f n, c.functionNodes.get? f = some n → n < c.graph.size
  functionNode_defined : ∀ f n, c.functionNodes.get? f = some n →
    (p.workspace.functionDefinition? f).isSome

/-- What is live depends on nothing but what is switched off. -/
theorem Program.isLive_congr (p : Program) {c d : Compilation} (h : c.disabled = d.disabled)
    (b : BlockRef) : p.isLive c b = p.isLive d b := by
  unfold isLive
  rw [h]

/-- `c'` comes after `c` in the typing of a program. -/
structure Advances (c c' : Compilation) : Prop where
  graph : TypeGraph.Extends c.graph c'.graph
  scopes : c'.scopes = c.scopes
  bindings : c'.bindings = c.bindings
  blockScope : c'.blockScope = c.blockScope
  blockDeclarations : c'.blockDeclarations = c.blockDeclarations
  rootDeclarations : c'.rootDeclarations = c.rootDeclarations
  disabled : c'.disabled = c.disabled
  inProgress : c'.inProgress = c.inProgress
  placeholders : c.placeholders.toList <+: c'.placeholders.toList
  blockNodes : ∀ b n, c.blockNodes.get? b = some n → c'.blockNodes.get? b = some n
  functionNodes : ∀ f n, c.functionNodes.get? f = some n → c'.functionNodes.get? f = some n
  /-- No function in progress gets a node. -/
  pending : ∀ f ∈ c.inProgress, c.functionNodes.get? f = none → c'.functionNodes.get? f = none
  diagnostics : c.diagnostics ⊆ c'.diagnostics

/-- From a consistent compilation, a step goes forward to a consistent one. -/
def Proceeds (p : Program) (c c' : Compilation) : Prop :=
  Consistent p c → Consistent p c' ∧ Advances c c'

namespace Advances

theorem refl (c : Compilation) : Advances c c where
  graph := Extends.refl c.graph
  scopes := rfl
  bindings := rfl
  blockScope := rfl
  blockDeclarations := rfl
  rootDeclarations := rfl
  disabled := rfl
  inProgress := rfl
  placeholders := List.prefix_refl _
  blockNodes _ _ h := h
  functionNodes _ _ h := h
  pending _ _ h := h
  diagnostics := List.Subset.refl _

theorem trans {c d e : Compilation} (h1 : Advances c d) (h2 : Advances d e) : Advances c e where
  graph := h1.graph.trans h2.graph
  scopes := h2.scopes.trans h1.scopes
  bindings := h2.bindings.trans h1.bindings
  blockScope := h2.blockScope.trans h1.blockScope
  blockDeclarations := h2.blockDeclarations.trans h1.blockDeclarations
  rootDeclarations := h2.rootDeclarations.trans h1.rootDeclarations
  disabled := h2.disabled.trans h1.disabled
  inProgress := h2.inProgress.trans h1.inProgress
  placeholders := h1.placeholders.trans h2.placeholders
  blockNodes b n h := h2.blockNodes b n (h1.blockNodes b n h)
  functionNodes f n h := h2.functionNodes f n (h1.functionNodes f n h)
  pending f hf h := h2.pending f (h1.inProgress ▸ hf) (h1.pending f hf h)
  diagnostics := List.Subset.trans h1.diagnostics h2.diagnostics

theorem lt (h : Advances c c') (hn : n < c.graph.size) : n < c'.graph.size :=
  lt_of_lt_of_le hn h.graph.size_le

theorem binding_eq (h : Advances c c') (v : BindingId) : c'.binding v = c.binding v := by
  unfold binding
  rw [h.bindings]

theorem isLive_eq (h : Advances c c') (p : Program) : p.isLive c' = p.isLive c :=
  funext (p.isLive_congr h.disabled)

end Advances

theorem Proceeds.refl (p : Program) (c : Compilation) : Proceeds p c c :=
  fun hc => ⟨hc, Advances.refl c⟩

instance proceedsRefl (p : Program) : Std.Refl (Proceeds p) :=
  ⟨Proceeds.refl p⟩

instance proceedsTrans (p : Program) : IsTrans Compilation (Proceeds p) := by
  refine ⟨fun c d e h1 h2 hc => ?_⟩
  obtain ⟨hd, had⟩ := h1 hc
  obtain ⟨he, hae⟩ := h2 hd
  exact ⟨he, had.trans hae⟩

variable {p : Program} {c : Compilation}

/-! ## Steps on the graph -/

theorem Consistent.of_extends (hc : Consistent p c) (hg : g.WellFormed)
    (he : Extends c.graph g) : Consistent p { c with graph := g } where
  graph := hg
  primitives := hc.primitives.extends he
  binding_lt v := lt_of_lt_of_le (hc.binding_lt v) he.size_le
  placeholder_lt i := lt_of_lt_of_le (hc.placeholder_lt i) he.size_le
  blockNode_lt b n h := lt_of_lt_of_le (hc.blockNode_lt b n h) he.size_le
  blockNode_own := hc.blockNode_own
  functionNode_lt f n h := lt_of_lt_of_le (hc.functionNode_lt f n h) he.size_le
  functionNode_defined := hc.functionNode_defined

theorem Proceeds.of_changes (h : Changes c.graph g) :
    Proceeds p c { c with graph := g } := by
  intro hc
  have he := h.extends hc.graph
  refine ⟨hc.of_extends (h.wellFormed hc.graph) he, ?_⟩
  exact { Advances.refl c with graph := he }

/-- A step on the graph alone: the rest of the compilation is as it was. -/
def OnGraph (c : Compilation) {α : Type} (Q : α → TypeGraph → Prop) (a : α) (c' : Compilation) :
    Prop :=
  c' = { c with graph := c'.graph } ∧ Q a c'.graph

theorem runs_graph {m : GraphM α} (h : Runs Changes m c.graph Q) :
    Runs (Proceeds p) (liftM m : TrackM α) c (OnGraph c Q) :=
  ⟨Proceeds.of_changes h.1, rfl, h.2⟩

theorem moves_graph {m : GraphM α} (h : Runs Changes m c.graph Q) :
    Moves (Proceeds p) (liftM m : TypingM α) c (OnGraph c Q) :=
  .lift (runs_graph h)

theorem liftUnify_ok {a : α} (hm : m c.graph = .ok a g) :
    (liftM m : TypingM α) c = .ok a { c with graph := g } := by
  show liftUnify.monadLift m c = _
  unfold liftUnify
  dsimp only
  rw [hm]

theorem liftUnify_error {e : Mismatch} (hm : m c.graph = .error e g) :
    (liftM m : TypingM α) c = .error (.mismatch e) { c with graph := g } := by
  show liftUnify.monadLift m c = _
  unfold liftUnify
  dsimp only
  rw [hm]

theorem moves_unify (h : Moves Changes m c.graph Q) :
    Moves (Proceeds p) (liftM m : TypingM α) c (OnGraph c Q) := by
  unfold Moves Ensures
  cases hm : m c.graph with
  | ok a g =>
    have hok := h.of_ok hm
    rw [liftUnify_ok hm]
    exact ⟨Proceeds.of_changes hok.1, rfl, hok.2⟩
  | error e g =>
    have herr := h.of_error hm
    rw [liftUnify_error hm]
    exact Proceeds.of_changes herr

/-! ## Steps on what is remembered -/

theorem Proceeds.insert_blockNode (hfree : c.blockNodes.get? b = none)
    (hn : n < c.graph.size) (hown : p.nodeSource b = .own) :
    Proceeds p c { c with blockNodes := c.blockNodes.insert b n } := by
  intro hc
  refine ⟨{ hc with blockNode_lt := ?_, blockNode_own := ?_ },
    { Advances.refl c with blockNodes := fun _ _ h => Table.get?_insert_of_get? hfree h }⟩
  · intro x m hx
    rw [Table.get?_insert] at hx
    split at hx
    · cases hx
      exact hn
    · exact hc.blockNode_lt x m hx
  · intro x m hx
    rw [Table.get?_insert] at hx
    split at hx
    · next h => rw [h, hown]
    · exact hc.blockNode_own x m hx

theorem Proceeds.insert_functionNode {f : String}
    (hfree : c.functionNodes.get? f = none) (hout : f ∉ c.inProgress) (hn : n < c.graph.size)
    (hdef : (p.workspace.functionDefinition? f).isSome) :
    Proceeds p c { c with functionNodes := c.functionNodes.insert f n } := by
  intro hc
  refine ⟨{ hc with functionNode_lt := ?_, functionNode_defined := ?_ }, { Advances.refl c with
      functionNodes := fun _ _ h => Table.get?_insert_of_get? hfree h, pending := ?_ }⟩
  · intro x m hx
    rw [Table.get?_insert] at hx
    split at hx
    · cases hx
      exact hn
    · exact hc.functionNode_lt x m hx
  · intro x m hx
    rw [Table.get?_insert] at hx
    split at hx
    · next h => rw [h]; exact hdef
    · exact hc.functionNode_defined x m hx
  · intro x hx hnone
    rw [Table.get?_insert_ne]
    · exact hnone
    · rintro rfl
      exact hout hx

theorem Proceeds.push_placeholder {h : Placeholder} (hn : h.node < c.graph.size) :
    Proceeds p c { c with placeholders := c.placeholders.push h } := by
  intro hc
  refine ⟨{ hc with placeholder_lt := ?_ }, { Advances.refl c with placeholders := ?_ }⟩
  · intro i
    unfold placeholder
    rw [Array.getElem?_push]
    split
    · exact hn
    · exact hc.placeholder_lt i
  · rw [Array.toList_push]
    exact List.prefix_append _ _

theorem Proceeds.report (b : BlockRef) (message : String) :
    Proceeds p c (p.report b message c).2 := by
  intro hc
  show Consistent p (c.addDiagnostic ⟨_, _⟩) ∧ Advances c (c.addDiagnostic ⟨_, _⟩)
  unfold addDiagnostic
  split
  · exact ⟨hc, Advances.refl c⟩
  · exact ⟨{ hc with }, { Advances.refl c with diagnostics := List.subset_append_left _ _ }⟩

/-! ## Lookups -/

/-- The variable that a name means at a block, if it is visited and the name is bound around it. -/
def Compilation.variableAt? (c : Compilation) (b : BlockRef) (name : String) : Option BindingId :=
  (c.blockScope.get? b).bind fun s => c.find? s name

theorem lookup_of_some {name : String} {v : BindingId} (h : c.variableAt? b name = some v) :
    p.lookup b name c = .ok v c := by
  obtain ⟨s, hs, hv⟩ := Option.bind_eq_some_iff.mp h
  unfold lookup
  rw [run_bind_get, hs]
  dsimp only
  rw [hv]
  rfl

theorem lookup_of_none {name : String} (h : c.variableAt? b name = none) :
    ∃ f, p.lookup b name c = .error f c := by
  unfold variableAt? at h
  unfold lookup
  rw [run_bind_get]
  cases hs : c.blockScope.get? b with
  | none => exact ⟨_, rfl⟩
  | some s =>
    rw [hs, Option.bind_some] at h
    dsimp only
    rw [h]
    exact ⟨_, rfl⟩

theorem liftCompile_ok {m : CompileM α} {a : α} {c' : Compilation} (hm : m c = .ok a c') :
    (liftM m : TypingM α) c = .ok a c' := by
  show liftCompile.monadLift m c = _
  unfold liftCompile
  dsimp only
  rw [hm]

theorem liftCompile_error {m : CompileM α} {f : Fault} {c' : Compilation} (hm : m c = .error f c') :
    (liftM m : TypingM α) c = .error (.fault f) c' := by
  show liftCompile.monadLift m c = _
  unfold liftCompile
  dsimp only
  rw [hm]

theorem moves_lookup (b : BlockRef) (name : String) :
    Moves (Proceeds p) (liftM (p.lookup b name) : TypingM BindingId) c
      (fun v c' => c' = c ∧ c.variableAt? b name = some v) := by
  unfold Moves Ensures
  cases hv : c.variableAt? b name with
  | some v =>
    rw [liftCompile_ok (lookup_of_some hv)]
    exact ⟨Proceeds.refl p c, rfl, rfl⟩
  | none =>
    obtain ⟨f, hf⟩ := lookup_of_none (p := p) hv
    rw [liftCompile_error hf]
    exact Proceeds.refl p c

theorem Advances.variableAt?_eq (h : Advances c c') (b : BlockRef) (name : String) :
    c'.variableAt? b name = c.variableAt? b name := by
  have hscope : c'.scope = c.scope := by
    funext s
    unfold scope
    rw [h.scopes]
  have hfind : ∀ fuel s, c'.findFrom name fuel s = c.findFrom name fuel s := by
    intro fuel
    induction fuel with
    | zero => exact fun _ => rfl
    | succ fuel ih =>
      intro s
      unfold findFrom
      rw [hscope]
      simp only [ih]
  unfold variableAt? find?
  rw [h.blockScope, h.scopes]
  simp only [hfind]

/-! ## Inputs -/

/-- The placeholder of an input, if it has been made. -/
def Compilation.placeholderOf? (c : Compilation) (b : BlockRef) (input : String) :
    Option PlaceholderId :=
  c.placeholders.findIdx? fun h => h.owner == b && h.input == input

/-- What is plugged into an input or stands in for it, if that is known. -/
def Program.attached? (p : Program) (c : Compilation) (b : BlockRef) (input : String) :
    Option Target :=
  match p.liveTarget? c b input with
  | some t => some (.block t)
  | none => (c.placeholderOf? b input).map .placeholder

theorem Advances.placeholderOf?_eq (h : Advances c c') {i : PlaceholderId}
    (hi : c.placeholderOf? b input = some i) : c'.placeholderOf? b input = some i := by
  unfold placeholderOf? at hi ⊢
  obtain ⟨l, hl⟩ := h.placeholders
  have harray : c'.placeholders = (c.placeholders.toList ++ l).toArray := by rw [hl]
  rw [harray, List.findIdx?_toArray, List.findIdx?_append, ← List.findIdx?_toArray,
    Array.toArray_toList, hi, Option.some_or]

theorem Advances.attached?_eq (h : Advances c c') {t : Target} (ht : p.attached? c b input = some t)
    : p.attached? c' b input = some t := by
  have hlive : p.liveTarget? c' b input = p.liveTarget? c b input := by
    unfold liveTarget?
    rw [h.isLive_eq]
  unfold attached? at ht ⊢
  rw [hlive]
  split at ht
  · exact ht
  · obtain ⟨i, hi, rfl⟩ := Option.map_eq_some_iff.mp ht
    rw [h.placeholderOf?_eq hi]
    rfl

theorem placeholderFor_of_some {i : PlaceholderId} (hi : c.placeholderOf? b input = some i)
    (type : Option TypeName) : placeholderFor b input type c = (i, c) := by
  unfold placeholderOf? at hi
  unfold placeholderFor
  rw [run_get_bind, hi]
  rfl

theorem placeholderFor_of_none (hnone : c.placeholderOf? b input = none)
    (type : Option TypeName) :
    placeholderFor b input type c = (c.placeholders.size, { c with
      graph := (placeholderNode type c.graph).2
      placeholders := c.placeholders.push ⟨b, input, (placeholderNode type c.graph).1⟩ }) := by
  unfold placeholderOf? at hnone
  unfold placeholderFor
  rw [run_get_bind, hnone]
  rfl

/-- What stands in for a missing input is what the input gives. -/
theorem attach_of_hole {type : Option TypeName} (hhole : p.liveTarget? c b input = none) :
    p.attach b input type c = (.placeholder (placeholderFor b input type c).1,
      (placeholderFor b input type c).2) := by
  unfold attach
  rw [run_get_bind, hhole]
  rfl

/-- Asked for again, an input gives what it gave before. -/
theorem attach_of_attached {t : Target} (type : Option TypeName)
    (ht : p.attached? c b input = some t) : p.attach b input type c = (t, c) := by
  unfold attached? at ht
  split at ht
  · next x hx =>
    cases ht
    unfold attach
    rw [run_get_bind, hx]
    rfl
  · next hx =>
    obtain ⟨i, hi, rfl⟩ := Option.map_eq_some_iff.mp ht
    rw [attach_of_hole hx, placeholderFor_of_some hi]

theorem runs_placeholderFor (hc : Consistent p c) (b : BlockRef) (input : String)
    (type : Option TypeName) :
    Runs (Proceeds p) (placeholderFor b input type) c
      (fun i c' => c'.placeholderOf? b input = some i ∧ c'.disabled = c.disabled) := by
  unfold placeholderFor
  refine .bind_get ?_
  split
  · next i hi => exact .pure i ⟨hi, rfl⟩
  · next hnone =>
    have hnode : Runs Changes (placeholderNode type) c.graph (fun n g => n < g.size) := by
      unfold placeholderNode
      split
      · exact (runs_ground hc.primitives _).imp (fun _ _ _ h => h.1)
      · exact (runs_addNode none false).imp (fun _ _ _ h => h.1)
    refine .bind (runs_graph hnode) ?_
    rintro n c' _ ⟨hc', hn⟩
    refine ⟨Proceeds.push_placeholder hn, ?_, ?_⟩
    · show (c'.placeholders.push _).findIdx? _ = some c'.placeholders.size
      rw [hc', Array.findIdx?_push, hnone]
      simp
    · show c'.disabled = c.disabled
      rw [hc']

theorem runs_attach (hc : Consistent p c) (b : BlockRef) (input : String) (type : Option TypeName) :
    Runs (Proceeds p) (p.attach b input type) c (fun t c' => p.attached? c' b input = some t) := by
  unfold attach
  refine .bind_get ?_
  split
  · next t ht =>
    refine .pure _ ?_
    unfold attached?
    rw [ht]
  · next hnone =>
    refine .bind (runs_placeholderFor hc b input type) ?_
    rintro i c' _ ⟨hi, hd⟩
    refine .pure _ ?_
    have hlive : p.liveTarget? c' b input = none := by
      unfold liveTarget? isLive at hnone ⊢
      rw [hd]
      exact hnone
    unfold attached?
    rw [hlive, hi]
    rfl

end BlockProgram
