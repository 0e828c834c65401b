import BlockProgram.Proofs.Compilation.Consistent

/-!
# Result types do not change their mind

The search for the node of a block proceeds (`moves_blockType`). Outside of function bodies that are
being searched, what it finds stays found: asked again at any later time, a block has the same node,
or a new one of the same declared type (`Answers`).
-/

namespace BlockProgram

open Program TypeGraph

variable {n : NodeId} {name : String} {b : BlockRef} {blockType : BlockRef → TypingM NodeId}

variable {p : Program} {c : Compilation}

/-- A search for nodes of blocks that proceeds and finds nodes of the graph. -/
def Typer (p : Program) (blockType : BlockRef → TypingM NodeId) : Prop :=
  ∀ b c, Consistent p c → Moves (Proceeds p) (blockType b) c (fun n c' => n < c'.graph.size)

/-- Node `n` is what a compilation remembers for a block, or has the type that the block
declares. -/
def Answers (p : Program) (c : Compilation) (b : BlockRef) (n : NodeId) : Prop :=
  match p.nodeSource b with
  | .binding name => ∃ v, c.variableAt? b name = some v ∧ n = (c.binding v).node
  | .function name =>
    match p.workspace.functionDefinition? name with
    | some _ => c.functionNodes.get? name = some n
    | none => c.graph.typeAt n = some .any
  | .own => c.blockNodes.get? b = some n
  | .declared t => c.graph.typeAt n = some t

/-! ## Nodes of a block's own -/

/-- Node `n` is remembered for a block. -/
def Owns (b : BlockRef) (n : NodeId) (c : Compilation) : Prop :=
  n < c.graph.size ∧ c.blockNodes.get? b = some n

theorem runs_rememberNode (hfree : c.blockNodes.get? b = none) (hn : n < c.graph.size)
    (hown : p.nodeSource b = .own) :
    Runs (Proceeds p) (rememberNode b n) c (fun _ => Owns b n) :=
  Runs.of_modify _ (Proceeds.insert_blockNode hfree hn hown) ⟨hn, Table.get?_insert_self _ _ _⟩

theorem runs_ownNode (isArray : Bool) (hfree : c.blockNodes.get? b = none)
    (hown : p.nodeSource b = .own) :
    Runs (Proceeds p) (ownNode b isArray) c (Owns b) := by
  unfold ownNode
  refine .bind (runs_graph (runs_addNode none isArray)) ?_
  rintro n c' _ ⟨hc', hn, _⟩
  refine .bind (runs_rememberNode ?_ hn hown) ?_
  · rw [hc']
    exact hfree
  · intro _ c'' _ hn'
    exact .pure n hn'

theorem moves_variableType (hc : Consistent p c) (b : BlockRef) (name : String) :
    Moves (Proceeds p) (p.variableType b name) c
      (fun n c' => n < c'.graph.size ∧ ∃ v, c'.variableAt? b name = some v ∧
        n = (c'.binding v).node) := by
  unfold variableType
  refine .bind (moves_lookup b name) ?_
  rintro v c' _ ⟨rfl, hv⟩
  refine .bind_get ?_
  exact .pure _ ⟨hc.binding_lt v, v, hv, rfl⟩

/-! ## Lists -/

theorem moves_linkElement_typing (hc : Consistent p c) {l e : NodeId} (hl : l < c.graph.size)
    (he : e < c.graph.size) :
    Moves (Proceeds p) (liftM (linkElement l e) : TypingM Unit) c
      (OnGraph c fun _ _ => True) :=
  moves_unify (moves_linkElement hc.graph l e hl he)

theorem moves_elementNode (hc : Consistent p c) {list : NodeId} (hl : list < c.graph.size) :
    Moves (Proceeds p) (elementNode list) c
      (fun n c' => n < c'.graph.size ∧ c'.blockNodes = c.blockNodes) := by
  unfold elementNode
  refine .bind (moves_graph ((runs_find hc.graph list).mono fun _ h => h.changes)) ?_
  rintro r c1 h1 ⟨hc1, _⟩
  obtain ⟨hcons1, hadv1⟩ := h1 hc
  refine .bind_get ?_
  split
  · next n hn => exact .pure n ⟨hcons1.graph.element_lt r n hn, by rw [hc1]⟩
  · refine .bind (moves_graph (runs_addNode none false)) ?_
    rintro n c2 h2 ⟨hc2, hn, _⟩
    obtain ⟨hcons2, hadv2⟩ := h2 hcons1
    refine .bind (moves_linkElement_typing hcons2 (hadv2.lt (hadv1.lt hl)) hn) ?_
    rintro _ c3 h3 ⟨hc3, _⟩
    refine .pure n ⟨(h3 hcons2).2.lt hn, ?_⟩
    rw [hc3, hc2, hc1]

theorem moves_elementOf (hc : Consistent p c) {list : NodeId} (hl : list < c.graph.size)
    (hown : p.nodeSource b = .own) :
    Moves (Proceeds p) (elementOf b list) c (Owns b) := by
  unfold elementOf
  refine .bind_get ?_
  split
  · next n hn => exact .pure n ⟨hc.blockNode_lt b n hn, hn⟩
  · next hfree =>
    refine .bind (moves_elementNode hc hl) ?_
    rintro n c' _ ⟨hn, hnodes⟩
    refine .bind (.lift (runs_rememberNode ?_ hn hown)) ?_
    · rw [hnodes]
      exact hfree
    · intro _ c'' _ hn'
      exact .pure n hn'

theorem moves_linkFirstKnown (ht : Typer p blockType) (items : List BlockRef) (list : NodeId)
    (hc : Consistent p c) (hl : list < c.graph.size) :
    Moves (Proceeds p) (p.linkFirstKnown blockType list items) c (fun _ _ => True) := by
  induction items generalizing c with
  | nil => exact .pure () trivial
  | cons item r ih =>
    unfold linkFirstKnown
    refine .bind_get ?_
    split
    · refine .bind (ht item c hc) ?_
      intro n c1 h1 hn
      obtain ⟨hcons1, hadv1⟩ := h1 hc
      have hresolve := (runs_resolvedType hcons1.graph n).mono fun _ h => h.changes
      refine .bind (moves_graph hresolve) ?_
      rintro t c2 h2 _
      obtain ⟨hcons2, hadv2⟩ := h2 hcons1
      have hl2 := hadv2.lt (hadv1.lt hl)
      split
      · exact (moves_linkElement_typing hcons2 hl2 (hadv2.lt hn)).imp (fun _ _ _ _ => trivial)
      · exact ih hcons2 hl2
    · exact ih hc hl

theorem moves_listLiteralType (ht : Typer p blockType) (hc : Consistent p c)
    (hfree : c.blockNodes.get? b = none) (hown : p.nodeSource b = .own) :
    Moves (Proceeds p) (p.listLiteralType blockType b) c (Owns b) := by
  unfold listLiteralType
  refine .bind (.lift (runs_ownNode true hfree hown)) ?_
  rintro n c1 h1 ⟨hn, hb⟩
  obtain ⟨hcons1, _⟩ := h1 hc
  refine .bind (moves_linkFirstKnown ht _ n hcons1 hn) ?_
  intro _ c2 h2 _
  obtain ⟨_, hadv2⟩ := h2 hcons1
  exact .pure n ⟨hadv2.lt hn, hadv2.blockNodes b n hb⟩

theorem moves_genericType (ht : Typer p blockType) (hc : Consistent p c)
    (hfree : c.blockNodes.get? b = none) (hown : p.nodeSource b = .own) :
    Moves (Proceeds p) (p.genericType blockType b) c (Owns b) := by
  unfold genericType
  split
  · next t _ =>
    refine .bind (ht t c hc) ?_
    intro list c1 h1 hl
    exact moves_elementOf (h1 hc).1 hl hown
  · exact .lift (runs_ownNode false hfree hown)

/-! ## User functions -/

/-- A function that is in progress gets no node before the step ends. -/
theorem moves_whileInProgress {m : TypingM NodeId} (hc : Consistent p c)
    (h : Moves (Proceeds p) m { c with inProgress := name :: c.inProgress }
      (fun n c' => n < c'.graph.size)) (hfree : c.functionNodes.get? name = none) :
    Moves (Proceeds p) (whileInProgress name m) c
      (fun n c' => n < c'.graph.size ∧ c'.functionNodes.get? name = none) := by
  have hin : Consistent p { c with inProgress := name :: c.inProgress } := { hc with }
  -- leaving undoes what entering did
  have hleave : ∀ d, Proceeds p { c with inProgress := name :: c.inProgress } d →
      Proceeds p c { d with inProgress := d.inProgress.erase name } ∧
        d.functionNodes.get? name = none := by
    intro d hd
    obtain ⟨hcons, hadv⟩ := hd hin
    refine ⟨fun _ => ⟨{ hcons with }, { hadv with inProgress := ?_, pending := ?_ }⟩, ?_⟩
    · rw [hadv.inProgress, List.erase_cons_head]
    · intro f hf
      exact hadv.pending f (.tail name hf)
    · exact hadv.pending name (.head _) hfree
  unfold Moves Ensures whileInProgress
  cases hm : m { c with inProgress := name :: c.inProgress } with
  | ok n d =>
    obtain ⟨hd, hn⟩ := h.of_ok hm
    exact ⟨(hleave d hd).1, hn, (hleave d hd).2⟩
  | error e d => exact (hleave d (h.of_error hm)).1

/-- A step on the graph whose failure is only noted. -/
theorem proceeds_attempt {m : UnifyM Unit} {Q : Unit → TypeGraph → Prop}
    (h : Moves Changes m c.graph Q) :
    Proceeds p c (match m c.graph with
      | .ok _ g => (true, { c with graph := g })
      | .error _ g => (false, { c with graph := g })).2 := by
  cases hm : m c.graph with
  | ok u g => exact Proceeds.of_changes (h.of_ok hm).1
  | error e g => exact Proceeds.of_changes (h.of_error hm)

theorem runs_unionSucceeds (hc : Consistent p c) {a b : NodeId} (ha : a < c.graph.size)
    (hb : b < c.graph.size) : Runs (Proceeds p) (unionSucceeds a b) c (fun _ _ => True) :=
  ⟨proceeds_attempt (moves_union hc.graph a b ha hb), trivial⟩

theorem runs_unionAll (rest : List NodeId) (first : NodeId) (hc : Consistent p c)
    (hfirst : first < c.graph.size) (hrest : ∀ n ∈ rest, n < c.graph.size) :
    Runs (Proceeds p) (unionAll first rest) c (fun _ _ => True) := by
  induction rest generalizing c with
  | nil => exact .pure true trivial
  | cons n r ih =>
    unfold unionAll
    refine .bind (runs_unionSucceeds hc hfirst (hrest n (.head _))) ?_
    intro ok c1 h1 _
    obtain ⟨hcons1, hadv1⟩ := h1 hc
    split
    · refine ih hcons1 (hadv1.lt hfirst) ?_
      intro m hm
      exact hadv1.lt (hrest m (.tail n hm))
    · exact .pure false trivial

theorem runs_ground_tracking (hc : Consistent p c) (t : TypeName) :
    Runs (Proceeds p) (liftM (ground t) : TrackM NodeId) c
      (fun n c' => n < c'.graph.size ∧ c'.graph.typeAt n = some t) :=
  (runs_graph (runs_ground hc.primitives t)).imp (fun _ _ _ h => h.2)

theorem runs_commonType (definition : BlockRef) (nodes : List NodeId) (hc : Consistent p c)
    (hnodes : ∀ n ∈ nodes, n < c.graph.size) :
    Runs (Proceeds p) (p.commonType definition nodes) c (fun n c' => n < c'.graph.size) := by
  unfold commonType
  split
  · exact (runs_ground_tracking hc _).imp (fun _ _ _ h => h.1)
  · next first rest =>
    have hfirst := hnodes first (.head _)
    have hunion := runs_unionAll rest first hc hfirst (fun n hn => hnodes n (.tail first hn))
    refine .bind hunion ?_
    intro ok c1 h1 _
    obtain ⟨hcons1, hadv1⟩ := h1 hc
    split
    · exact .pure first (hadv1.lt hfirst)
    · refine .bind (Q := fun _ _ => True) ⟨Proceeds.report definition _, trivial⟩ ?_
      intro _ c2 h2 _
      exact (runs_ground_tracking (h2 hcons1).1 _).imp (fun _ _ _ h => h.1)

theorem moves_targetType (ht : Typer p blockType) (hc : Consistent p c) (t : Target) :
    Moves (Proceeds p) (targetType blockType t) c (fun n c' => n < c'.graph.size) := by
  unfold targetType
  split
  · next b => exact ht b c hc
  · next i =>
    refine .bind_get ?_
    exact .pure _ (hc.placeholder_lt i)

theorem moves_attachedType (ht : Typer p blockType) (hc : Consistent p c) (input : String)
    (b : BlockRef) :
    Moves (Proceeds p) (p.attachedType blockType input b) c (fun n c' => n < c'.graph.size) := by
  unfold attachedType
  refine .bind (.lift (runs_attach hc b input none)) ?_
  intro t c1 h1 _
  exact moves_targetType ht (h1 hc).1 t

/-- A list of searches, each for a node of the graph. -/
theorem moves_nodes {α : Type} (f : α → TypingM NodeId) (l : List α)
    (hf : ∀ a c, Consistent p c → Moves (Proceeds p) (f a) c (fun n c' => n < c'.graph.size))
    (hc : Consistent p c) :
    Moves (Proceeds p) (l.mapM f) c (fun ns c' => ∀ n ∈ ns, n < c'.graph.size) :=
  Moves.mapM (I := Consistent p) (fun _ _ hd h => (h hd).1) (fun _ _ _ hd hn h => (h hd).2.lt hn) l
    (fun a _ d hd => hf a d hd) hc

theorem moves_returnedType (ht : Typer p blockType) (hc : Consistent p c) (definition : BlockRef)
    (returns : List BlockRef) :
    Moves (Proceeds p) (p.returnedType blockType definition returns) c
      (fun n c' => n < c'.graph.size) := by
  unfold returnedType
  refine .bind (moves_nodes _ _ (fun b d hd => moves_attachedType ht hd _ b) hc) ?_
  intro nodes c1 h1 hnodes
  exact .lift (runs_commonType definition nodes (h1 hc).1 hnodes)

theorem runs_rememberFunction (hfree : c.functionNodes.get? name = none)
    (hout : name ∉ c.inProgress) (hn : n < c.graph.size)
    (hdef : (p.workspace.functionDefinition? name).isSome) :
    Runs (Proceeds p) (rememberFunction name n) c
      (fun _ c' => n < c'.graph.size ∧ c'.functionNodes.get? name = some n) :=
  Runs.of_modify _ (Proceeds.insert_functionNode hfree hout hn hdef)
    ⟨hn, Table.get?_insert_self _ _ _⟩

theorem moves_newFunctionType (ht : Typer p blockType) (hc : Consistent p c) {definition : BlockRef}
    (hdef : p.workspace.functionDefinition? name = some definition)
    (hfree : c.functionNodes.get? name = none) (hout : name ∉ c.inProgress) :
    Moves (Proceeds p) (p.newFunctionType blockType name definition) c
      (fun n c' => n < c'.graph.size ∧ c'.functionNodes.get? name = some n) := by
  have hsome : (p.workspace.functionDefinition? name).isSome := by rw [hdef]; rfl
  unfold newFunctionType
  refine .bind_get ?_
  dsimp only
  split
  · refine .bind (moves_graph (runs_ground hc.primitives _)) ?_
    rintro n c1 h1 ⟨hc1, hn, _⟩
    have hfree1 : c1.functionNodes.get? name = none := by rw [hc1]; exact hfree
    have hout1 : name ∉ c1.inProgress := by rw [hc1]; exact hout
    refine .bind (.lift (runs_rememberFunction hfree1 hout1 hn hsome)) ?_
    intro _ c2 _ hn2
    exact .pure n hn2
  · have hin : Consistent p { c with inProgress := name :: c.inProgress } := { hc with }
    refine .bind (moves_whileInProgress hc (moves_returnedType ht hin _ _) hfree) ?_
    rintro n c1 h1 ⟨hn, hfree1⟩
    have hout1 : name ∉ c1.inProgress := by rw [(h1 hc).2.inProgress]; exact hout
    refine .bind (.lift (runs_rememberFunction hfree1 hout1 hn hsome)) ?_
    intro _ c2 _ hn2
    exact .pure n hn2

/-- The node of a function, unless it is in progress, is remembered, or it is any node of type `any`
if there is no such function. -/
theorem moves_functionTypeWith (ht : Typer p blockType) (hc : Consistent p c) (name : String) :
    Moves (Proceeds p) (p.functionTypeWith blockType name) c
      (fun n c' => n < c'.graph.size ∧ (name ∉ c.inProgress →
        match p.workspace.functionDefinition? name with
        | some _ => c'.functionNodes.get? name = some n
        | none => c'.graph.typeAt n = some .any)) := by
  unfold functionTypeWith
  refine .bind_get ?_
  split
  · next n hn =>
    refine .pure n ⟨hc.functionNode_lt name n hn, fun _ => ?_⟩
    have hdef := hc.functionNode_defined name n hn
    split
    · exact hn
    · next hnone =>
      rw [hnone] at hdef
      cases hdef
  · next hdef =>
    refine (moves_graph (runs_ground hc.primitives _)).imp ?_
    rintro n c1 _ ⟨_, hn, htype⟩
    rw [hdef]
    exact ⟨hn, fun _ => htype⟩
  · next definition hfree hdef =>
    split
    · next hin =>
      refine (moves_graph (runs_addNode none false)).imp ?_
      rintro n c1 _ ⟨_, hn, _⟩
      exact ⟨hn, fun hout => absurd hin hout⟩
    · next hout =>
      refine (moves_newFunctionType ht hc hdef hfree hout).imp ?_
      rintro n c1 _ ⟨hn, hname⟩
      rw [hdef]
      exact ⟨hn, fun _ => hname⟩

/-! ## All blocks -/

theorem outputType_declared {t : TypeName} (h : outputSource (p.block b).output = .declared t) :
    p.outputType blockType b = liftM (ground t) := by
  unfold outputType
  generalize (p.block b).output = output at h
  rcases output with _ | _ | ⟨first, rest⟩
  · cases h
    rfl
  · cases h
  · unfold outputSource at h
    dsimp only at h ⊢
    by_cases hfirst : first = .array
    · rw [if_pos hfirst] at h ⊢
      cases rest with
      | nil => cases h
      | cons list _ =>
        cases h
        rfl
    · rw [if_neg hfirst] at h ⊢
      by_cases hgen : first = .generic
      · rw [if_pos hgen] at h
        cases h
      · rw [if_neg hgen] at h ⊢
        cases h
        rfl

theorem moves_outputType_own (ht : Typer p blockType) (hc : Consistent p c)
    (hfree : c.blockNodes.get? b = none) (hown : p.nodeSource b = .own)
    (h : outputSource (p.block b).output = .own) :
    Moves (Proceeds p) (p.outputType blockType b) c (Owns b) := by
  unfold outputType
  generalize (p.block b).output = output at h
  rcases output with _ | _ | ⟨first, rest⟩
  · cases h
  · exact .lift (runs_ownNode false hfree hown)
  · unfold outputSource at h
    dsimp only at h ⊢
    by_cases hfirst : first = .array
    · rw [if_pos hfirst] at h ⊢
      cases rest with
      | cons list _ => cases h
      | nil =>
        dsimp only
        split
        · exact moves_listLiteralType ht hc hfree hown
        · exact .lift (runs_ownNode true hfree hown)
    · rw [if_neg hfirst] at h ⊢
      by_cases hgen : first = .generic
      · rw [if_pos hgen]
        exact moves_genericType ht hc hfree hown
      · rw [if_neg hgen] at h
        cases h

theorem outputSource_cases (output : Option (List TypeName)) :
    outputSource output = .own ∨ ∃ t, outputSource output = .declared t := by
  unfold outputSource
  split
  · exact .inr ⟨_, rfl⟩
  · exact .inl rfl
  · split
    · split
      · exact .inr ⟨_, rfl⟩
      · exact .inl rfl
    · split
      · exact .inl rfl
      · exact .inr ⟨_, rfl⟩

/-- The search goes where the node of the block comes from. -/
theorem newBlockType_eq (blockType : BlockRef → TypingM NodeId) (b : BlockRef) :
    p.newBlockType blockType b = match p.nodeSource b with
      | .binding name => p.variableType b name
      | .function name => p.functionTypeWith blockType name
      | .own => p.outputType blockType b
      | .declared t => liftM (ground t) := by
  unfold newBlockType
  dsimp only
  split
  iterate 3 next hk => simp only [nodeSource, hk]
  · next h1 h2 h3 =>
    have hsource : p.nodeSource b = outputSource (p.block b).output := by
      unfold nodeSource
      split
      · next hk => exact absurd hk h1
      · next hk => exact absurd hk h2
      · next hk => exact absurd hk h3
      · rfl
    rw [hsource]
    rcases outputSource_cases (p.block b).output with h | ⟨t, h⟩
    · rw [h]
    · rw [h]
      exact outputType_declared h

theorem outputSource_of_own (h : p.nodeSource b = .own) :
    outputSource (p.block b).output = .own := by
  unfold nodeSource at h
  split at h
  · cases h
  · cases h
  · cases h
  · exact h

theorem moves_newBlockType (ht : Typer p blockType) (hc : Consistent p c)
    (hfree : c.blockNodes.get? b = none) :
    Moves (Proceeds p) (p.newBlockType blockType b) c
      (fun n c' => n < c'.graph.size ∧ (c.inProgress = [] → Answers p c' b n)) := by
  rw [newBlockType_eq]
  unfold Answers
  cases hs : p.nodeSource b with
  | binding name =>
    exact (moves_variableType hc b name).imp (fun n c' _ h => ⟨h.1, fun _ => h.2⟩)
  | function name =>
    refine (moves_functionTypeWith ht hc name).imp ?_
    rintro n c' _ ⟨hn, hname⟩
    refine ⟨hn, fun hidle => hname ?_⟩
    rw [hidle]
    exact List.not_mem_nil
  | own =>
    have hout := outputSource_of_own hs
    exact (moves_outputType_own ht hc hfree hs hout).imp (fun n c' _ h => ⟨h.1, fun _ => h.2⟩)
  | declared t =>
    exact .lift ((runs_ground_tracking hc t).imp (fun n c' _ h => ⟨h.1, fun _ => h.2⟩))

theorem moves_blockTypeFrom_succ (fuel : Nat) (ht : Typer p (p.blockTypeFrom fuel))
    (hc : Consistent p c) (b : BlockRef) :
    Moves (Proceeds p) (p.blockTypeFrom (fuel + 1) b) c
      (fun n c' => n < c'.graph.size ∧ (c.inProgress = [] → Answers p c' b n)) := by
  unfold blockTypeFrom
  refine .bind_get ?_
  split
  · next n hn =>
    refine .pure n ⟨hc.blockNode_lt b n hn, fun _ => ?_⟩
    unfold Answers
    rw [hc.blockNode_own b n hn]
    exact hn
  · next hfree => exact moves_newBlockType ht hc hfree

theorem typer_blockTypeFrom (p : Program) (fuel : Nat) : Typer p (p.blockTypeFrom fuel) := by
  induction fuel with
  | zero =>
    intro b c hc
    exact .lift ((runs_ground_tracking hc _).imp (fun _ _ _ h => h.1))
  | succ fuel ih =>
    intro b c hc
    exact (moves_blockTypeFrom_succ fuel ih hc b).imp (fun _ _ _ h => h.1)

theorem Program.exists_blockType_eq (p : Program) :
    ∃ fuel, p.blockType = p.blockTypeFrom (fuel + 1) :=
  ⟨(p.workspace.size + 1) * p.workspace.size + p.workspace.size, rfl⟩

theorem moves_blockType (hc : Consistent p c) (b : BlockRef) : Moves (Proceeds p) (p.blockType b) c
      (fun n c' => n < c'.graph.size ∧ (c.inProgress = [] → Answers p c' b n)) := by
  obtain ⟨fuel, hfuel⟩ := p.exists_blockType_eq
  rw [hfuel]
  exact moves_blockTypeFrom_succ fuel (typer_blockTypeFrom p fuel) hc b

theorem typer_blockType (p : Program) : Typer p p.blockType :=
  fun b _ hc => (moves_blockType hc b).imp (fun _ _ _ h => h.1)

/-! ## Asking again -/

/-- What is remembered stays. Only a declared marker `Array` is no settled type. -/
theorem Answers.advance {c' : Compilation} (h : Answers p c b n) (hadv : Advances c c')
    (hsettled : p.nodeSource b ≠ .declared .array) : Answers p c' b n := by
  unfold Answers at h ⊢
  cases hs : p.nodeSource b with
  | binding name =>
    rw [hs] at h
    obtain ⟨v, hv, rfl⟩ := h
    exact ⟨v, by rw [hadv.variableAt?_eq, hv], by rw [hadv.binding_eq]⟩
  | function name =>
    rw [hs] at h
    dsimp only at h ⊢
    split at h
    · exact hadv.functionNodes name n h
    · exact hadv.graph.type_eq n _ h (by decide)
  | own =>
    rw [hs] at h
    exact hadv.blockNodes b n h
  | declared t =>
    rw [hs] at h hsettled
    exact hadv.graph.type_eq n t h (fun ht => hsettled (by rw [ht]))

/-- Two nodes that answer for the same block at the same time have one type. -/
theorem Answers.typeAt_eq {n n' : NodeId} (h : Answers p c b n) (h' : Answers p c b n') :
    c.graph.typeAt n = c.graph.typeAt n' := by
  unfold Answers at h h'
  cases hs : p.nodeSource b with
  | binding name =>
    rw [hs] at h h'
    obtain ⟨v, hv, rfl⟩ := h
    obtain ⟨v', hv', rfl⟩ := h'
    rw [hv] at hv'
    cases hv'
    rfl
  | function name =>
    rw [hs] at h h'
    dsimp only at h h'
    split at h
    · next hdef =>
      rw [hdef] at h'
      rw [Option.some.inj (h.symm.trans h')]
    · next hdef =>
      rw [hdef] at h'
      exact h.trans h'.symm
  | own =>
    rw [hs] at h h'
    rw [Option.some.inj (h.symm.trans h')]
  | declared t =>
    rw [hs] at h h'
    exact h.trans h'.symm

/-- The search does not fail for a block that it once found a node for. -/
theorem blockType_ok_of_answers (h : Answers p c b n) : ∃ n' c', p.blockType b c = .ok n' c' := by
  obtain ⟨fuel, hfuel⟩ := p.exists_blockType_eq
  rw [hfuel]
  unfold blockTypeFrom
  rw [run_bind_get]
  cases hb : c.blockNodes.get? b with
  | some m => exact ⟨m, c, rfl⟩
  | none =>
    dsimp only
    rw [newBlockType_eq]
    unfold Answers at h
    cases hs : p.nodeSource b with
    | binding name =>
      rw [hs] at h
      obtain ⟨v, hv, _⟩ := h
      have hl : (liftM (p.lookup b name) : TypingM BindingId) c = .ok v c :=
        liftCompile_ok (lookup_of_some hv)
      refine ⟨(c.binding v).node, c, ?_⟩
      show p.variableType b name c = _
      unfold variableType
      rw [run_bind_of_ok hl]
      rfl
    | function name =>
      rw [hs] at h
      dsimp only at h
      show ∃ n' c', p.functionTypeWith (p.blockTypeFrom fuel) name c = .ok n' c'
      unfold functionTypeWith
      rw [run_bind_get]
      cases hdef : p.workspace.functionDefinition? name with
      | some definition =>
        rw [hdef] at h
        rw [show c.functionNodes.get? name = some n from h]
        exact ⟨n, c, rfl⟩
      | none =>
        cases c.functionNodes.get? name with
        | none => exact ⟨_, _, rfl⟩
        | some m => exact ⟨_, _, rfl⟩
    | own =>
      rw [hs, hb] at h
      cases h
    | declared t => exact ⟨_, _, rfl⟩

/-! ## Targets -/

/-- Node `n` is the one of a placeholder, or answers for a block. -/
def AnswersTarget (p : Program) (c : Compilation) (n : NodeId) : Target → Prop
  | .block b => Answers p c b n
  | .placeholder i => n = (c.placeholder i).node

theorem moves_typeOfTarget (hc : Consistent p c) (t : Target) :
    Moves (Proceeds p) (p.typeOfTarget t) c
      (fun n c' => n < c'.graph.size ∧ (c.inProgress = [] → AnswersTarget p c' n t)) := by
  cases t with
  | block b => exact moves_blockType hc b
  | placeholder i =>
    unfold typeOfTarget targetType
    refine .bind_get ?_
    exact .pure _ ⟨hc.placeholder_lt i, fun _ => rfl⟩

theorem AnswersTarget.typeAt_eq {t : Target} {n n' : NodeId} (h : AnswersTarget p c n t)
    (h' : AnswersTarget p c n' t) : c.graph.typeAt n = c.graph.typeAt n' := by
  cases t with
  | block b => exact Answers.typeAt_eq h h'
  | placeholder i => rw [show n = _ from h, show n' = _ from h']

theorem typeOfTarget_ok_of_answers {t : Target} (h : AnswersTarget p c n t) :
    ∃ n' c', p.typeOfTarget t c = .ok n' c' := by
  cases t with
  | block b => exact blockType_ok_of_answers h
  | placeholder i => exact ⟨_, _, rfl⟩

end BlockProgram
