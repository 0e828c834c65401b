import BlockProgram.Proofs.Pairing.Basic

/-!
# The same result types

The search for the result type of a block takes the same course in the two programs of a faithful
pairing (`typing_blockType`). The search is bounded by its depth, and the programs may differ in
size: `Suffices` says that a bound is large enough, which it stays along the search, as each level
goes down to a block below or into a function that was not in progress.
-/

namespace BlockProgram.Pairing

open Program List Workspace

variable {input name n : String} {t : BlockRef} {ws : Workspace}

variable {P : Pairing} {I : List String} {c d : Compilation} {b : BlockRef} {α β : Type}
  {V : α → β → Prop}

/-! ## Steps on the type graph -/

theorem pairs_graph (m : GraphM α) :
    Pairs (P.Abreast I) Eq (liftM m : TrackM α) (liftM m : TrackM α) := by
  intro c d hS
  show (m c.graph).1 = (m d.graph).1 ∧
    P.Abreast I { c with graph := (m c.graph).2 } { d with graph := (m d.graph).2 }
  rw [hS.graph]
  exact ⟨rfl, hS.setGraph _⟩

theorem typing_graph (m : GraphM α) : P.Typing I Eq (liftM m : TypingM α) (liftM m : TypingM α) :=
  .lift (pairs_graph m)

theorem typing_unify (m : UnifyM α) :
    P.Typing I Eq (liftM m : TypingM α) (liftM m : TypingM α) := by
  intro c d hS
  cases hm : m c.graph with
  | ok a g =>
    have hm' := hm
    rw [hS.graph] at hm'
    rw [liftUnify_ok hm, liftUnify_ok hm']
    exact .ok rfl (hS.setGraph g)
  | error e g =>
    have hm' := hm
    rw [hS.graph] at hm'
    rw [liftUnify_error hm, liftUnify_error hm']
    exact .error trivial (hS.setGraph g)

/-- An attempt at a step on the graph. -/
theorem pairs_attempt (m : UnifyM Unit) {f : TrackM Bool}
    (hok : ∀ c u g, m c.graph = .ok u g → f c = (true, { c with graph := g }))
    (herror : ∀ c e g, m c.graph = .error e g → f c = (false, { c with graph := g })) :
    Pairs (P.Abreast I) Eq f f := by
  intro c d hS
  cases hm : m c.graph with
  | ok u g =>
    have hm' := hm
    rw [hS.graph] at hm'
    rw [hok c u g hm, hok d u g hm']
    exact ⟨rfl, hS.setGraph g⟩
  | error e g =>
    have hm' := hm
    rw [hS.graph] at hm'
    rw [herror c e g hm, herror d e g hm']
    exact ⟨rfl, hS.setGraph g⟩

theorem pairs_unionSucceeds (a n : NodeId) :
    Pairs (P.Abreast I) Eq (unionSucceeds a n) (unionSucceeds a n) := by
  refine pairs_attempt (TypeGraph.union a n) ?_ ?_
  · intro c u g hm
    unfold unionSucceeds
    rw [hm]
  · intro c e g hm
    unfold unionSucceeds
    rw [hm]

theorem pairs_uniteSucceeds (a n : NodeId) :
    Pairs (P.Abreast I) Eq (uniteSucceeds a n) (uniteSucceeds a n) := by
  refine pairs_attempt (unite a n) ?_ ?_
  · intro c u g hm
    unfold uniteSucceeds
    rw [hm]
  · intro c e g hm
    unfold uniteSucceeds
    rw [hm]

theorem pairs_unionAll (first : NodeId) (rest : List NodeId) :
    Pairs (P.Abreast I) Eq (unionAll first rest) (unionAll first rest) := by
  induction rest with
  | nil => exact Pairs.pure rfl
  | cons n r ih =>
    unfold unionAll
    refine Pairs.bind (pairs_unionSucceeds first n) ?_
    rintro ok _ rfl
    split
    · exact ih
    · exact Pairs.pure rfl

/-! ## Names -/

theorem typing_compile {m : CompileM α} {n : CompileM β}
    (h : Twins (fun _ => P.MayFail) (P.Abreast I) V m n) :
    P.Typing I V (liftM m : TypingM α) (liftM n : TypingM β) := by
  intro c d hS
  have hmn := h c d hS
  generalize hm : m c = x at hmn
  generalize hn : n d = y at hmn
  cases hmn with
  | ok hV hS' =>
    rw [liftCompile_ok hm, liftCompile_ok hn]
    exact .ok hV hS'
  | error hfail hS' =>
    rw [liftCompile_error hm, liftCompile_error hn]
    exact .error hfail hS'

/-- A name that means nothing at a block is a fault there. -/
theorem lookup_eq_error {p : Program} (h : c.variableAt? b n = none) :
    p.lookup b n c = .error ⟨(p.block b).id,
      if c.blockScope.contains b then .unknownVariable n else .notVisited⟩ c := by
  unfold Compilation.variableAt? at h
  unfold Program.lookup Table.contains
  rw [run_bind_get]
  cases hs : c.blockScope.get? b with
  | none => rfl
  | some s =>
    rw [hs, Option.bind_some] at h
    dsimp only
    rw [h]
    rfl

section Faithful

variable (h : P.Faithful)
include h

theorem twins_lookup (hb : P.Asked b) (hn : P.MayFail ∨ ∃ v, P.rightScopes.variableAt? b n = some v)
    :
    Twins (fun _ => P.MayFail) (P.Abreast I) Eq (P.left.lookup (P.embed b) n)
      (P.right.lookup b n) := by
  intro c d hS
  have hleft := hS.left.variableAt? (P.embed b) n
  have hright := hS.right.variableAt? b n
  rw [h.scopes.variableAt b n hb] at hleft
  cases hv : P.rightScopes.variableAt? b n with
  | some v =>
    rw [hv] at hleft hright
    rw [lookup_of_some hleft, lookup_of_some hright]
    exact .ok rfl hS
  | none =>
    rw [hv] at hleft hright hn
    have hfail : P.MayFail := by
      rcases hn with hfail | ⟨v, hv⟩
      · exact hfail
      · cases hv
    rw [lookup_eq_error hleft, lookup_eq_error hright, h.ids, hS.left.blockScope,
      hS.right.blockScope, h.scopes.placed b hb]
    exact .error hfail hS

theorem twins_lookup_reached (hb : P.Reached b) {kind : BlockKind}
    (hkind : (P.right.block b).kind = kind) (hn : n ∈ P.right.lookups (P.right.block b) kind) :
    Twins (fun _ => P.MayFail) (P.Abreast I) Eq (P.left.lookup (P.embed b) n)
      (P.right.lookup b n) := by
  subst hkind
  exact twins_lookup h (h.reads.asked b hb) (h.scopes.found b (.inl hb) n hn)

theorem Abreast.bindingNode (hS : P.Abreast I c d) (v : BindingId) :
    (c.binding v).node = (d.binding v).node := by
  rw [hS.left.binding, hS.right.binding, h.scopes.binding]
  rfl

theorem typing_variableType
    (hlookup : Twins (fun _ => P.MayFail) (P.Abreast I) Eq (P.left.lookup (P.embed b) n)
      (P.right.lookup b n)) :
    P.Typing I Eq (P.left.variableType (P.embed b) n) (P.right.variableType b n) := by
  unfold variableType
  refine .bind_eq (typing_compile hlookup) ?_
  intro v
  refine .bind_get ?_
  intro c d hS
  exact .pure (hS.bindingNode h v)

/-! ## Inputs -/

theorem Abreast.live (hS : P.Abreast I c d) (b : BlockRef) :
    P.left.isLive c (P.embed b) = P.right.isLive d b := by
  rw [hS.leftLive, hS.rightLive]
  exact h.live b

theorem pairs_placeholderFor (b : BlockRef) (input : String) (type : Option TypeName) :
    Pairs (P.Abreast I) Eq (placeholderFor (P.embed b) input type)
      (placeholderFor b input type) := by
  unfold placeholderFor
  refine Pairs.bind_get ?_
  intro c d hS
  have hidx : (c.placeholders.findIdx? fun x => x.owner == P.embed b && x.input == input) =
      d.placeholders.findIdx? fun x => x.owner == b && x.input == input := by
    rw [hS.placeholders, Array.findIdx?_map]
    congr 1
    funext x
    have howner : (P.embed x.owner == P.embed b) = (x.owner == b) := by
      rw [Bool.eq_iff_iff, beq_iff_eq, beq_iff_eq]
      exact h.injective.eq_iff
    show (P.embed x.owner == P.embed b && x.input == input) = _
    rw [howner]
  rw [hidx]
  split
  · exact Pairs.pure rfl
  · refine Pairs.bind (pairs_graph _) ?_
    rintro node _ rfl
    intro c' d' hS'
    have hpush : c'.placeholders.push ⟨P.embed b, input, node⟩ =
        (d'.placeholders.push ⟨b, input, node⟩).map (Placeholder.rename P.embed) := by
      rw [Array.map_push, hS'.placeholders]
      rfl
    refine ⟨?_, { hS' with
      left := { hS'.left with }, right := { hS'.right with }, placeholders := hpush }⟩
    show c'.placeholders.size = d'.placeholders.size
    rw [hS'.placeholders, Array.size_map]

end Faithful

/-- What two inputs are supplied with: matching live blocks, or the same placeholder. -/
def Supplies (P : Pairing) (b : BlockRef) (input : String) (t t' : Target) : Prop :=
  t = t'.rename P.embed ∧ ∀ x, t' = .block x →
    (P.right.block b).inputTarget? input = some x ∧ P.rightLive x = true

section Faithful

variable (h : P.Faithful)
include h

theorem pairs_attach (hb : P.Matches b) (hinput : input ∈ P.right.operands (P.right.block b))
    (type : Option TypeName) :
    Pairs (P.Abreast I) (P.Supplies b input) (P.left.attach (P.embed b) input type)
      (P.right.attach b input type) := by
  unfold Program.attach
  refine Pairs.bind_get ?_
  intro c d hS
  have htarget : P.left.liveTarget? c (P.embed b) input =
      (P.right.liveTarget? d b input).map P.embed := by
    unfold liveTarget?
    rw [hb.inputTarget? hinput, hS.leftLive, hS.rightLive]
    cases (P.right.block b).inputTarget? input with
    | none => rfl
    | some t =>
      rw [Option.map_some, Option.filter_some, Option.filter_some, h.live]
      split
      · rfl
      · rfl
  rw [htarget]
  cases hlive : P.right.liveTarget? d b input with
  | some t =>
    have ht : (P.right.block b).inputTarget? input = some t ∧ P.rightLive t = true := by
      unfold liveTarget? at hlive
      rw [hS.rightLive] at hlive
      exact Option.filter_eq_some_iff.mp hlive
    refine Pairs.pure ⟨rfl, ?_⟩
    rintro x ⟨⟩
    exact ht
  | none =>
    refine Pairs.bind (pairs_placeholderFor h b input type) ?_
    rintro i _ rfl
    refine Pairs.pure ⟨rfl, ?_⟩
    rintro x ⟨⟩

end Faithful

/-- A block is right below another one in both programs. -/
structure Below (P : Pairing) (b t : BlockRef) : Prop where
  left : P.embed t ∈ P.left.workspace.children (P.embed b)
  right : t ∈ P.right.workspace.children b

theorem mem_children_of_input {i : Input} (hi : i ∈ (ws.block b).inputs) (ht : i.target = some t) :
    t ∈ ws.children b :=
  mem_append_left _ (mem_filterMap.mpr ⟨i, hi, ht⟩)

theorem exists_input_of_target {block : Block} (ht : block.inputTarget? input = some t) :
    ∃ i ∈ block.inputs, i.name = input ∧ i.target = some t := by
  obtain ⟨i, hi, hit⟩ := Option.bind_eq_some_iff.mp ht
  exact ⟨i, mem_of_find?_eq_some hi, by simpa using find?_some hi, hit⟩

/-- The block that a generic result comes from is plugged in. -/
theorem exists_input_of_receiver {p : Program} (h : p.receiver? b = some t) :
    p.kind b ≠ .onStart ∧ ∃ i ∈ (p.block b).inputs, i.target = some t := by
  unfold receiver? at h
  split at h
  · split at h
    · obtain ⟨n, hn, hnt⟩ := Option.bind_eq_some_iff.mp h
      obtain ⟨i, hi, _, hit⟩ := exists_input_of_target hnt
      refine ⟨?_, i, hi, hit⟩
      intro hstart
      unfold listInput? at hn
      rw [show (p.block b).kind = .onStart from hstart] at hn
      cases hn
    · cases h
  · cases h

theorem Matches.below (hb : P.Matches b) (hinput : input ∈ P.right.operands (P.right.block b))
    (ht : (P.right.block b).inputTarget? input = some t) : P.Below b t := by
  have hleft := hb.inputTarget? hinput
  rw [ht] at hleft
  obtain ⟨i, hi, _, hit⟩ := exists_input_of_target hleft
  obtain ⟨j, hj, _, hjt⟩ := exists_input_of_target ht
  exact ⟨mem_children_of_input hi hit, mem_children_of_input hj hjt⟩

/-- Two searches for result types take the same course on some blocks. -/
def Searches (P : Pairing) (I : List String) (f g : BlockRef → TypingM NodeId)
    (X : BlockRef → Prop) : Prop :=
  ∀ t, P.Asked t → X t → P.Typing I Eq (f (P.embed t)) (g t)

section Faithful

variable (h : P.Faithful) {f g : BlockRef → TypingM NodeId}
include h

/-! ## Nodes of a block's own -/

theorem pairs_rememberNode (b : BlockRef) (n : NodeId) :
    Pairs (P.Abreast I) Eq (rememberNode (P.embed b) n) (rememberNode b n) := by
  refine Pairs.of_modify ?_
  intro c d hS
  refine { hS with left := { hS.left with }, right := { hS.right with }, blockNodes := ?_ }
  intro x
  rw [Table.get?_insert, Table.get?_insert, hS.blockNodes]
  by_cases hx : x = b
  · rw [if_pos hx, if_pos (congrArg P.embed hx)]
  · rw [if_neg hx, if_neg (fun hex => hx (h.injective hex))]

theorem pairs_ownNode (b : BlockRef) (isArray : Bool) :
    Pairs (P.Abreast I) Eq (ownNode (P.embed b) isArray) (ownNode b isArray) := by
  unfold ownNode
  refine Pairs.bind (pairs_graph _) ?_
  rintro n _ rfl
  refine Pairs.bind (pairs_rememberNode h b n) ?_
  intro _ _ _
  exact Pairs.pure rfl

omit h in
theorem typing_elementNode (list : NodeId) :
    P.Typing I Eq (elementNode list) (elementNode list) := by
  unfold elementNode
  refine .bind_eq (typing_graph _) ?_
  intro r
  refine .bind_get ?_
  intro c d hS
  rw [hS.graph]
  split
  · exact .pure rfl
  · refine .bind_eq (typing_graph _) ?_
    intro n
    refine .bind_eq (typing_unify _) ?_
    intro _
    exact .pure rfl

theorem typing_elementOf (b : BlockRef) (list : NodeId) :
    P.Typing I Eq (elementOf (P.embed b) list) (elementOf b list) := by
  unfold elementOf
  refine .bind_get ?_
  intro c d hS
  rw [hS.blockNodes]
  split
  · exact .pure rfl
  · refine .bind_eq (typing_elementNode list) ?_
    intro n
    refine .bind_eq (.lift (pairs_rememberNode h b n)) ?_
    intro _
    exact .pure rfl

/-! ## Lists -/

theorem typing_linkFirstKnown (list : NodeId) (items : List BlockRef)
    (hitems : ∀ t ∈ items, P.rightLive t = true → P.Typing I Eq (f (P.embed t)) (g t)) :
    P.Typing I Eq (P.left.linkFirstKnown f list (items.map P.embed))
      (P.right.linkFirstKnown g list items) := by
  induction items with
  | nil => exact .pure rfl
  | cons item r ih =>
    have ihr := ih fun t ht => hitems t (.tail item ht)
    rw [map_cons]
    unfold linkFirstKnown
    refine .bind_get ?_
    intro c d hS
    rw [hS.live h item]
    split
    · next hlive =>
      rw [hS.rightLive] at hlive
      refine .bind_eq (hitems item (.head _) hlive) ?_
      intro n
      refine .bind_eq (typing_graph _) ?_
      intro type
      split
      · exact typing_unify _
      · exact ihr
    · exact ihr

omit h in
theorem Matches.itemTargets (hb : P.Matches b) (hkind : P.right.kind b = .listCreate) :
    itemTargets (P.left.block (P.embed b)) = (itemTargets (P.right.block b)).map P.embed := by
  have hnames : ∀ j ∈ (P.right.block b).numberedInputs "ADD",
      j.name ∈ P.right.operands (P.right.block b) := by
    intro j hj
    exact mem_operands hkind (mem_map_of_mem hj)
  have hitems := hb.numberedInputs "ADD"
  unfold Program.itemTargets
  generalize (P.left.block (P.embed b)).numberedInputs "ADD" = l at hitems
  generalize (P.right.block b).numberedInputs "ADD" = k at hitems hnames
  induction hitems with
  | nil => rfl
  | @cons i j _ _ hij _ ih =>
    have htarget := hij.target (.inr (hnames j (.head _)))
    have ihr := ih fun x hx => hnames x (.tail j hx)
    rw [filterMap_cons, filterMap_cons, htarget]
    cases j.target with
    | none => exact ihr
    | some t => exact congrArg (P.embed t :: ·) ihr

omit h in
theorem mem_children_of_item (ht : t ∈ itemTargets (ws.block b)) : t ∈ ws.children b := by
  obtain ⟨i, hi, hit⟩ := mem_filterMap.mp ht
  exact mem_children_of_input (mem_of_mem_filter hi) hit

theorem typing_listLiteralType (hb : P.Asked b) (hkind : P.right.kind b = .listCreate)
    (hsearch : P.Searches I f g (P.Below b)) :
    P.Typing I Eq (P.left.listLiteralType f (P.embed b)) (P.right.listLiteralType g b) := by
  have hitems := (h.asked b hb).itemTargets hkind
  unfold listLiteralType
  refine .bind_eq (.lift (pairs_ownNode h b true)) ?_
  intro list
  rw [hitems]
  refine .bind_pure (typing_linkFirstKnown h list _ ?_)
  intro t ht hlive
  obtain ⟨i, hi, hit⟩ := mem_filterMap.mp ht
  have hleft : P.embed t ∈ itemTargets (P.left.block (P.embed b)) := by
    rw [hitems]
    exact mem_map_of_mem ht
  exact hsearch t (h.reads.item b hb hkind i hi t hit hlive)
    ⟨mem_children_of_item hleft, mem_children_of_item ht⟩

/-- A generic result comes from the same list. -/
theorem typing_genericType (hb : P.Asked b) {rest : List TypeName}
    (houtput : (P.right.block b).output = some (.generic :: rest))
    (hsearch : P.Searches I f g (P.Below b)) :
    P.Typing I Eq (P.left.genericType f (P.embed b)) (P.right.genericType g b) := by
  have hmatch := h.asked b hb
  have hreceiver : P.right.receiver? b =
      (P.right.listInput? (P.right.block b)).bind (P.right.block b).inputTarget? := by
    unfold receiver?
    rw [houtput]
    exact if_pos rfl
  have hoperand : ∀ n, P.right.listInput? (P.right.block b) = some n →
      n ∈ P.right.operands (P.right.block b) := by
    intro n hn
    exact mem_append_left _ (Option.mem_toList.mpr hn)
  have htarget : (P.left.listInput? (P.left.block (P.embed b))).bind
      (P.left.block (P.embed b)).inputTarget? = (P.right.receiver? b).map P.embed := by
    rw [h.listInput? hmatch, hreceiver]
    cases hn : P.right.listInput? (P.right.block b) with
    | none => rfl
    | some n => exact hmatch.inputTarget? (hoperand n hn)
  unfold genericType
  rw [htarget, ← hreceiver]
  cases ht : P.right.receiver? b with
  | none => exact .lift (pairs_ownNode h b false)
  | some t =>
    have hbelow : P.Below b t := by
      rw [hreceiver] at ht
      obtain ⟨n, hn, hnt⟩ := Option.bind_eq_some_iff.mp ht
      exact hmatch.below (hoperand n hn) hnt
    refine .bind_eq (hsearch t (h.reads.receiver b t hb ht) hbelow) ?_
    intro list
    exact typing_elementOf h b list

/-! ## User functions -/

omit h in
/-- While a function is in progress both runs count it as such. -/
theorem typing_whileInProgress {m : TypingM α} {n : TypingM β} (hmn : P.Typing (name :: I) V m n) :
    P.Typing I V (whileInProgress name m) (whileInProgress name n) := by
  have hleave : ∀ c d, P.Abreast (name :: I) c d →
      P.Abreast I { c with inProgress := c.inProgress.erase name }
        { d with inProgress := d.inProgress.erase name } := by
    intro c d hS
    refine { hS with
      left := { hS.left with }, right := { hS.right with }, leftProgress := ?_
      rightProgress := ?_ }
    · rw [hS.leftProgress, erase_cons_head]
    · rw [hS.rightProgress, erase_cons_head]
  intro c d hS
  have henter : P.Abreast (name :: I) { c with inProgress := name :: c.inProgress }
      { d with inProgress := name :: d.inProgress } :=
    { hS with
      left := { hS.left with }, right := { hS.right with }
      leftProgress := congrArg (name :: ·) hS.leftProgress
      rightProgress := congrArg (name :: ·) hS.rightProgress }
  have hrun := hmn _ _ henter
  unfold whileInProgress
  dsimp only
  generalize m { c with inProgress := name :: c.inProgress } = x at hrun
  generalize n { d with inProgress := name :: d.inProgress } = y at hrun
  cases hrun with
  | ok hV hS' => exact .ok hV (hleave _ _ hS')
  | error he hS' => exact .error he (hleave _ _ hS')

theorem pairs_report (b : BlockRef) (message : String) :
    Pairs (P.Abreast I) Eq (P.left.report (P.embed b) message) (P.right.report b message) := by
  refine Pairs.of_modify ?_
  intro c d hS
  unfold Compilation.addDiagnostic
  rw [h.ids, hS.diagnostics]
  split
  · exact hS
  · exact { hS with left := { hS.left with }, right := { hS.right with }, diagnostics := rfl }

theorem pairs_commonType (definition : BlockRef) (nodes : List NodeId) :
    Pairs (P.Abreast I) Eq (P.left.commonType (P.embed definition) nodes)
      (P.right.commonType definition nodes) := by
  unfold commonType
  split
  · exact pairs_graph _
  · next first rest =>
    refine Pairs.bind (pairs_unionAll first rest) ?_
    rintro ok _ rfl
    split
    · exact Pairs.pure rfl
    · refine Pairs.bind (pairs_report h definition _) ?_
      intro _ _ _
      exact pairs_graph _

omit h in
theorem pairs_rememberFunction (name : String) (n : NodeId) :
    Pairs (P.Abreast I) Eq (rememberFunction name n) (rememberFunction name n) := by
  refine Pairs.of_modify ?_
  intro c d hS
  exact { hS with
    left := { hS.left with }, right := { hS.right with }
    functionNodes := congrArg (·.insert name n) hS.functionNodes }

omit h in
theorem typing_targetType {t t' : Target} (hsupply : P.Supplies b input t t')
    (hsearch : ∀ x, (P.right.block b).inputTarget? input = some x → P.rightLive x = true →
      P.Typing I Eq (f (P.embed x)) (g x)) : P.Typing I Eq (targetType f t) (targetType g t') := by
  obtain ⟨rfl, hblock⟩ := hsupply
  cases t' with
  | block x =>
    obtain ⟨hx, hlive⟩ := hblock x rfl
    exact hsearch x hx hlive
  | placeholder i =>
    refine .bind_get ?_
    intro c d hS
    exact .pure (hS.placeholderNode i)

/-- What is plugged into an operand of a block that is reached is reached too. -/
theorem Faithful.reached_target (hb : P.Reached b)
    (hinput : input ∈ P.right.operands (P.right.block b))
    (ht : (P.right.block b).inputTarget? input = some t) (hlive : P.rightLive t = true) :
    P.Reached t := by
  obtain ⟨i, hi, hname, hit⟩ := exists_input_of_target ht
  subst hname
  exact h.reads.operand b hb i hi hinput t hit hlive

theorem typing_attachedType (hb : P.Reached b) (hinput : input ∈ P.right.operands (P.right.block b))
    (hsearch : P.Searches I f g fun _ => True) :
    P.Typing I Eq (P.left.attachedType f input (P.embed b)) (P.right.attachedType g input b) := by
  have hmatch := h.asked b (h.reads.asked b hb)
  unfold attachedType
  refine .bind (.lift (pairs_attach h hmatch hinput none)) ?_
  intro t t' hsupply
  refine typing_targetType hsupply ?_
  intro x hx hlive
  exact hsearch x (h.reads.asked x (h.reached_target hb hinput hx hlive)) trivial

theorem typing_returnedType {definition : BlockRef}
    (hdef : P.right.workspace.functionDefinition? name = some definition)
    (hsearch : P.Searches I f g fun _ => True) :
    P.Typing I Eq (P.left.returnedType f (P.embed definition)
        ((P.right.returnsOf P.rightScopes definition).map P.embed))
      (P.right.returnedType g definition (P.right.returnsOf P.rightScopes definition)) := by
  have hreached := h.reads.returns name definition hdef
  have hkind : ∀ r ∈ P.right.returnsOf P.rightScopes definition,
      P.right.kind r = .functionReturn := by
    intro r hr
    have hr' := (mem_filter.mp hr).2
    rw [Bool.and_eq_true] at hr'
    exact eq_of_beq hr'.1
  have hinputs : ∀ r ∈ P.right.returnsOf P.rightScopes definition,
      ((fun r => (P.left.block r).hasInput returnValueInput) ∘ P.embed) r =
        (P.right.block r).hasInput returnValueInput := by
    intro r hr
    exact (h.asked r (h.reads.asked r (hreached r hr))).hasInput returnValueInput
  unfold returnedType
  rw [filter_map, filter_congr hinputs]
  refine .bind_eq (Twins.mapM_eq (forall₂_map_left _ ?_)) ?_
  · intro r hr
    have hmem := mem_of_mem_filter hr
    refine typing_attachedType h (hreached r hmem) ?_ hsearch
    exact mem_operands (hkind r hmem) (.head _)
  · intro nodes
    exact .lift (pairs_commonType h definition nodes)

theorem typing_newFunctionType {definition : BlockRef}
    (hdef : P.right.workspace.functionDefinition? name = some definition)
    (hsearch : P.Searches (name :: I) f g fun _ => True) :
    P.Typing I Eq (P.left.newFunctionType f name (P.embed definition))
      (P.right.newFunctionType g name definition) := by
  unfold newFunctionType
  refine .bind_get ?_
  intro c d hS
  have hleft : P.left.returnsOf c (P.embed definition) =
      (P.right.returnsOf P.rightScopes definition).map P.embed := by
    rw [← h.returns name definition hdef]
    unfold returnsOf
    rw [hS.leftLive]
    rfl
  have hright : P.right.returnsOf d definition = P.right.returnsOf P.rightScopes definition := by
    unfold returnsOf
    rw [hS.rightLive]
    rfl
  have hown : ((P.right.returnsOf P.rightScopes definition).map P.embed).any
      (P.left.returnsOwnCall name) =
        (P.right.returnsOf P.rightScopes definition).any (P.right.returnsOwnCall name) := by
    rw [any_map, Bool.eq_iff_iff, any_eq_true, any_eq_true]
    refine exists_congr fun r => and_congr_right fun hr => ?_
    rw [← h.ownCall name definition hdef r hr]
    exact Iff.rfl
  dsimp only
  rw [hleft, hright, hown]
  split
  · refine .bind_eq (typing_graph _) ?_
    intro n
    exact .bind_pure (.lift (pairs_rememberFunction name n))
  · refine .bind_eq (typing_whileInProgress (typing_returnedType h hdef hsearch)) ?_
    intro n
    exact .bind_pure (.lift (pairs_rememberFunction name n))

theorem typing_functionTypeWith (name : String)
    (hsearch : ∀ definition, P.right.workspace.functionDefinition? name = some definition →
      name ∉ I → P.Searches (name :: I) f g fun _ => True) :
    P.Typing I Eq (P.left.functionTypeWith f name) (P.right.functionTypeWith g name) := by
  unfold functionTypeWith
  refine .bind_get ?_
  intro c d hS
  rw [hS.functionNodes, h.definition, hS.leftProgress, hS.rightProgress]
  cases d.functionNodes.get? name with
  | some n => exact .pure rfl
  | none =>
    cases hdef : P.right.workspace.functionDefinition? name with
    | none => exact typing_graph _
    | some definition =>
      dsimp only [Option.map_some]
      split
      · exact typing_graph _
      · next hout => exact typing_newFunctionType h hdef (hsearch definition hdef hout)

/-! ## All blocks -/

theorem typing_outputType (hb : P.Asked b) (hsearch : P.Searches I f g (P.Below b)) :
    P.Typing I Eq (P.left.outputType f (P.embed b)) (P.right.outputType g b) := by
  have hmatch := h.asked b hb
  have hkind : P.left.kind (P.embed b) = P.right.kind b := hmatch.kind
  unfold outputType
  rw [hmatch.output]
  rcases houtput : (P.right.block b).output with _ | _ | ⟨first, rest⟩
  · exact typing_graph _
  · exact .lift (pairs_ownNode h b false)
  · dsimp only
    by_cases hfirst : first = .array
    · rw [if_pos hfirst, if_pos hfirst]
      cases rest with
      | cons list _ => exact typing_graph _
      | nil =>
        dsimp only
        rw [hkind]
        split
        · next hlist => exact typing_listLiteralType h hb hlist hsearch
        · exact .lift (pairs_ownNode h b true)
    · rw [if_neg hfirst, if_neg hfirst]
      by_cases hgeneric : first = .generic
      · rw [if_pos hgeneric, if_pos hgeneric]
        subst hgeneric
        exact typing_genericType h hb houtput hsearch
      · rw [if_neg hgeneric, if_neg hgeneric]
        exact typing_graph _

theorem typing_newBlockType (hb : P.Asked b) (hsearch : P.Searches I f g (P.Below b))
    (hfunctions : ∀ name definition, P.right.workspace.functionDefinition? name = some definition →
      name ∉ I → P.Searches (name :: I) f g fun _ => True) :
    P.Typing I Eq (P.left.newBlockType f (P.embed b)) (P.right.newBlockType g b) := by
  have hmatch := h.asked b hb
  have hreads : ∀ kind, (P.right.block b).kind = kind → (P.right.block b).isReader = true →
      ∀ n ∈ P.right.lookups (P.right.block b) kind,
        P.Typing I Eq (P.left.variableType (P.embed b) n) (P.right.variableType b n) := by
    rintro _ rfl hreader n hn
    exact typing_variableType h (twins_lookup h hb (h.scopes.found b (.inr ⟨hb, hreader⟩) n hn))
  unfold newBlockType
  dsimp only
  rw [hmatch.kind, hmatch.variableField?, hmatch.field?, hmatch.functionName?]
  split
  iterate 2 next hkind =>
    refine hreads _ hkind ?_ _ (.head _)
    unfold Block.isReader
    rw [hkind]
  · exact typing_functionTypeWith h _ (hfunctions _)
  · exact typing_outputType h hb hsearch

end Faithful

/-! ## Depth -/

/-- Functions may be in progress: each has a definition, and none is there twice. -/
structure InProgress (P : Pairing) (I : List String) : Prop where
  nodup : I.Nodup
  defined : ∀ name ∈ I, (P.right.workspace.functionDefinition? name).isSome

/-- A depth is enough for the search at a block while functions are in progress. -/
def Suffices (ws : Workspace) (I : List String) (b : BlockRef) (fuel : Nat) : Prop :=
  (ws.size + 1) * (ws.size - I.length) + ws.reach b ≤ fuel

/-- There are no more functions than blocks. -/
theorem length_le_of_defined (hnodup : I.Nodup)
    (hdefined : ∀ name ∈ I, (ws.functionDefinition? name).isSome) : I.length ≤ ws.size := by
  -- the definition of a function tells its name
  have hname : ∀ name d, ws.functionDefinition? name = some d →
      d < ws.size ∧ (ws.block d).functionName? = some name := by
    intro name d hd
    have hprop := find?_some hd
    rw [Bool.and_eq_true] at hprop
    exact ⟨mem_range.mp (mem_of_find?_eq_some hd), eq_of_beq hprop.2⟩
  have hsome : ∀ name ∈ I, ∃ d, ws.functionDefinition? name = some d := by
    intro name hmem
    exact Option.isSome_iff_exists.mp (hdefined name hmem)
  have hinjective : (I.map fun name => (ws.functionDefinition? name).getD 0).Nodup := by
    refine hnodup.map_on ?_
    intro x hx y hy hxy
    obtain ⟨d, hd⟩ := hsome x hx
    obtain ⟨d', hd'⟩ := hsome y hy
    rw [hd, hd'] at hxy
    cases hxy
    have hxname := (hname x d hd).2
    rw [(hname y d hd').2] at hxname
    exact (Option.some.inj hxname).symm
  have hsub : (I.map fun name => (ws.functionDefinition? name).getD 0) ⊆ List.range ws.size := by
    intro d hd
    obtain ⟨name, hmem, rfl⟩ := mem_map.mp hd
    obtain ⟨d, hd⟩ := hsome name hmem
    rw [hd]
    exact mem_range.mpr (hname name d hd).1
  have hle := (subperm_of_subset hinjective hsub).length_le
  rwa [length_map, length_range] at hle

theorem Suffices.below (hws : ws.Sound) {b t : BlockRef} {fuel : Nat}
    (h : Suffices ws I b (fuel + 1)) (ht : t ∈ ws.children b) : Suffices ws I t fuel := by
  have hlt := reach_lt hws ht
  unfold Suffices at h ⊢
  omega

/-- The search of another function may go as deep as there are blocks. -/
theorem Suffices.enter {b t : BlockRef} {fuel : Nat} (h : Suffices ws I b (fuel + 1))
    (hb : b < ws.size) (hI : (name :: I).length ≤ ws.size) : Suffices ws (name :: I) t fuel := by
  have hpos := reach_pos hb
  have hle : ws.reach t ≤ ws.size := reach_le t
  rw [length_cons] at hI
  unfold Suffices at h ⊢
  have hstep : ws.size - I.length = ws.size - (name :: I).length + 1 := by
    rw [length_cons]
    omega
  rw [hstep, Nat.mul_add, Nat.mul_one] at h
  omega

section Faithful

variable (h : P.Faithful)
include h

theorem InProgress.left_length_le (hI : P.InProgress I) : I.length ≤ P.left.workspace.size := by
  refine length_le_of_defined hI.nodup ?_
  intro name hname
  rw [h.definition, Option.isSome_map]
  exact hI.defined name hname

/-- The search for the type of a block takes the same course, if its depth suffices. -/
theorem typing_blockTypeFrom (n m : Nat) (hb : P.Asked b) (hI : P.InProgress I)
    (hleft : Suffices P.left.workspace I (P.embed b) n)
    (hright : Suffices P.right.workspace I b m) :
    P.Typing I Eq (P.left.blockTypeFrom n (P.embed b)) (P.right.blockTypeFrom m b) := by
  induction n generalizing m b I with
  | zero =>
    have hpos := reach_pos (h.reads.lt b hb).1
    unfold Suffices at hleft
    omega
  | succ n ih =>
    cases m with
    | zero =>
      have hpos := reach_pos (h.reads.lt b hb).2
      unfold Suffices at hright
      omega
    | succ m =>
      unfold blockTypeFrom
      refine .bind_get ?_
      intro c d hS
      rw [hS.blockNodes]
      split
      · exact .pure rfl
      · refine typing_newBlockType h hb ?_ ?_
        · intro t ht hbelow
          exact ih m ht hI (hleft.below h.left_sound hbelow.left)
            (hright.below h.right_sound hbelow.right)
        · intro name definition hdef hout t ht _
          have henter : P.InProgress (name :: I) := by
            refine ⟨nodup_cons.mpr ⟨hout, hI.nodup⟩, ?_⟩
            intro x hx
            rcases mem_cons.mp hx with rfl | hx
            · rw [hdef]
              rfl
            · exact hI.defined x hx
          refine ih m ht henter ?_ ?_
          · exact hleft.enter (h.reads.lt b hb).1 (henter.left_length_le h)
          · exact hright.enter (h.reads.lt b hb).2
              (length_le_of_defined henter.nodup henter.defined)

omit h in
theorem suffices_square (ws : Workspace) (I : List String) (b : BlockRef) :
    Suffices ws I b ((ws.size + 1) * (ws.size + 1)) := by
  have hle : ws.reach b ≤ ws.size := reach_le b
  have hmul : (ws.size + 1) * (ws.size - I.length) ≤ (ws.size + 1) * ws.size :=
    Nat.mul_le_mul_left _ (Nat.sub_le _ _)
  unfold Suffices
  rw [Nat.mul_add, Nat.mul_one]
  omega

theorem searches_blockType (hI : P.InProgress I) (X : BlockRef → Prop) :
    P.Searches I P.left.blockType P.right.blockType X :=
  fun _ ht _ => typing_blockTypeFrom h _ _ ht hI (suffices_square _ _ _) (suffices_square _ _ _)

omit h in
theorem inProgress_nil : P.InProgress [] :=
  ⟨nodup_nil, fun _ hname => by cases hname⟩

theorem typing_blockType (hb : P.Asked b) :
    P.Typing [] Eq (P.left.blockType (P.embed b)) (P.right.blockType b) :=
  searches_blockType h inProgress_nil (fun _ => True) b hb trivial

theorem typing_functionType (name : String) :
    P.Typing [] Eq (P.left.functionType name) (P.right.functionType name) := by
  refine typing_functionTypeWith h name ?_
  intro definition hdef _
  refine searches_blockType h ⟨nodup_singleton name, ?_⟩ _
  intro x hx
  rw [mem_singleton.mp hx, hdef]
  rfl

end Faithful

end BlockProgram.Pairing
