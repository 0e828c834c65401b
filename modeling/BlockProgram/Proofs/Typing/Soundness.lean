import BlockProgram.Proofs.Scope.Walk
import BlockProgram.Proofs.Typing.Rules

/-!
# Inference is sound

After a program has been typed, every operand of a block without complaint has the type that the
rule of the block expects, or the dynamic type, when it is asked for (`infer_sound`). A type that
was pinned down when the rule was applied survives all rules applied later and the defaults at the
end.
-/

namespace BlockProgram

open TypeGraph Program Block

variable {b : BlockRef} {t : TypeName}

variable {p : Program} {c : Compilation}

/-! ## Operands -/

def expecting (t : TypeName) (inputs : List String) : List (String × TypeName) :=
  inputs.map fun i => (i, t)

/-- The inputs of a block that its typing rule expects to have a fixed type. -/
def Block.operands (b : Block) : List (String × TypeName) :=
  match b.kind with
  | .arithmetic _ | .modulo | .mathBinary _ | .mathUnary _ =>
    expecting .number (b.valueInputs.map (·.name))
  | .compare op => if op.isEquality then [] else expecting .number ["A", "B"]
  | .boolOperation _ => expecting .boolean ["A", "B"]
  | .negate => expecting .boolean ["BOOL"]
  | .textLength => expecting .text ["VALUE"]
  | .conditional => expecting .boolean ((b.numberedInputs "IF").map (·.name))
  | .repeatTimes => expecting .number ["TIMES"]
  | .whileLoop => expecting .boolean ["COND"]
  | .forRange => expecting .number (if b.hasInput "FROM" then ["FROM", "TO"] else ["TO"])
  | .variableChange => expecting .number ["VALUE"]
  | .listIndexGet | .listIndexSet => expecting .number ["INDEX"]
  | _ => []

/-- The operands of a block are pinned down, and so is the variable it changes. -/
structure Settled (p : Program) (b : BlockRef) (c : Compilation) : Prop where
  operands : ∀ e ∈ (p.block b).operands, e.2 ∈ operandTypes ∧ Pinned p c b e.1 e.2
  changed : (p.block b).kind = .variableChange →
    ∃ v t, c.variableAt? b ((p.block b).variableField?.getD "") = some v ∧
      c.graph.typeAt (c.binding v).node = some t ∧ (t = .number ∨ t = .any)

theorem Settled.advance {c' : Compilation} (h : Settled p b c) (hadv : Advances c c') :
    Settled p b c' where
  operands e he := ⟨(h.operands e he).1, (h.operands e he).2.advance hadv (h.operands e he).1⟩
  changed hk := by
    obtain ⟨v, t, hv, ht, hor⟩ := h.changed hk
    refine ⟨v, t, by rw [hadv.variableAt?_eq, hv], ?_, hor⟩
    rw [hadv.binding_eq]
    refine hadv.graph.type_eq _ t ht ?_
    rcases hor with rfl | rfl <;> decide

theorem settled_of_pinned {inputs : List String} (hops : (p.block b).operands = expecting t inputs)
    (ht : t ∈ operandTypes) (hk : (p.block b).kind ≠ .variableChange)
    (h : ∀ i ∈ inputs, t ∈ operandTypes → Pinned p c b i t) : Settled p b c where
  operands e he := by
    rw [hops] at he
    obtain ⟨i, hi, rfl⟩ := List.mem_map.mp he
    exact ⟨ht, h i hi ht⟩
  changed hk' := absurd hk' hk

/-! ## Rules -/

theorem moves_expectOperands (hc : Idle p c) {inputs : List String}
    (hops : (p.block b).operands = expecting t inputs) (ht : t ∈ operandTypes)
    (hk : (p.block b).kind ≠ .variableChange) :
    Moves (Proceeds p) (p.expectInputs b t inputs) c (fun _ c' => Settled p b c') :=
  (moves_expectInputs hc b t inputs).imp (fun _ _ _ h => settled_of_pinned hops ht hk h)

/-- A rule for a block without operands of fixed type. -/
theorem Moves.settled {m : TypingM Unit} (h : Moves (Proceeds p) m c (fun _ _ => True))
    (hops : (p.block b).operands = []) (hk : (p.block b).kind ≠ .variableChange) :
    Moves (Proceeds p) m c (fun _ c' => Settled p b c') := by
  refine h.imp ?_
  intro _ c' _ _
  refine ⟨?_, fun hk' => absurd hk' hk⟩
  intro e he
  rw [hops] at he
  cases he

theorem moves_change (hc : Idle p c) (hk : (p.block b).kind = .variableChange) :
    Moves (Proceeds p) (do
      let n ← p.variableType b ((p.block b).variableField?.getD "")
      unite n numberNode
      p.expectInputs b .number ["VALUE"] : TypingM Unit) c
      (fun _ c' => Settled p b c') := by
  refine .bind_idle hc (moves_variableType hc.consistent b _) ?_
  rintro n c1 hc1 _ ⟨hn, v, hv, rfl⟩
  have hoperand : .number ∈ operandTypes := by decide
  have hnumber := hc1.consistent.primitives.number
  have hunite := moves_unite hc1.consistent.graph hn (lt_size_of_typeAt hnumber)
  refine .bind_idle hc1 (moves_unify hunite) ?_
  rintro _ c2 hc2 h2 ⟨_, hcases⟩
  -- the variable is a number or dynamic from here on
  have htype : ∃ t, c2.graph.typeAt (c1.binding v).node = some t ∧ (t = .number ∨ t = .any) := by
    rcases hcases with hdyn | hdyn | ⟨hsame, _⟩
    · exact ⟨_, h2.graph.type_eq _ _ hdyn (by decide), .inr rfl⟩
    · rw [hnumber] at hdyn
      exact absurd (Option.some.inj hdyn) (by decide)
    · exact ⟨_, hsame.trans hc2.consistent.primitives.number, .inl rfl⟩
  refine (moves_expectInputs hc2 b .number ["VALUE"]).imp ?_
  intro _ c3 h3 hpinned
  obtain ⟨_, hadv3⟩ := h3 hc2.consistent
  obtain ⟨t, ht, hor⟩ := htype
  refine ⟨?_, fun _ => ⟨v, t, ?_, ?_, hor⟩⟩
  · intro e he
    simp only [Block.operands, hk, expecting, List.mem_map] at he
    obtain ⟨i, hi, rfl⟩ := he
    exact ⟨hoperand, hpinned i hi hoperand⟩
  · rw [hadv3.variableAt?_eq, h2.variableAt?_eq, hv]
  · rw [hadv3.binding_eq, h2.binding_eq]
    refine hadv3.graph.type_eq _ t ht ?_
    rcases hor with rfl | rfl <;> decide

theorem moves_itemRead (hc : Idle p c) (hk : (p.block b).kind = .listIndexGet) :
    Moves (Proceeds p) (do
      p.expectInputs b .array ["LIST"]
      p.expectInputs b .number ["INDEX"]
      let _ ← p.blockType b : TypingM Unit) c (fun _ c' => Settled p b c') := by
  refine .bind_idle hc (moves_expectInputs hc b _ ["LIST"]) ?_
  intro _ c1 hc1 _ _
  refine .bind_idle hc1 (moves_expectInputs hc1 b _ ["INDEX"]) ?_
  intro _ c2 hc2 _ hpinned
  refine .bind_idle hc2 (moves_blockType hc2.consistent b) ?_
  intro _ c3 _ h3 _
  refine .pure _ (Settled.advance ?_ h3)
  exact settled_of_pinned (by simp [Block.operands, hk]) (by decide) (by simp [hk]) hpinned

theorem moves_itemWrite (hc : Idle p c) (hk : (p.block b).kind = .listIndexSet) :
    Moves (Proceeds p) (do
      let list ← p.expectInput b "LIST" .array
      p.expectInputs b .number ["INDEX"]
      let value ← p.inputType b "VALUE"
      TypeGraph.linkElement list value : TypingM Unit) c (fun _ c' => Settled p b c') := by
  refine .bind_idle hc (moves_expectInput hc b "LIST" _) ?_
  rintro list c1 hc1 _ ⟨hl, _⟩
  refine .bind_idle hc1 (moves_expectInputs hc1 b _ ["INDEX"]) ?_
  intro _ c2 hc2 h2 hpinned
  refine .bind_idle hc2 (moves_inputType hc2 b "VALUE") ?_
  intro value c3 hc3 h3 hvalue
  refine (moves_link hc3 (h3.lt (h2.lt hl)) hvalue).imp ?_
  intro _ c4 h4 _
  refine Settled.advance ?_ (h3.trans (h4 hc3.consistent).2)
  exact settled_of_pinned (by simp [Block.operands, hk]) (by decide) (by simp [hk]) hpinned

/-- The rule of a block, if it succeeds, settles the block. -/
theorem moves_typeBlock (hc : Idle p c) (b : BlockRef) :
    Moves (Proceeds p) (p.typeBlock b) c (fun _ c' => Settled p b c') := by
  unfold typeBlock
  dsimp only
  split
  iterate 4 next hk =>
    exact moves_expectOperands hc (by simp [Block.operands, hk]) (by decide) (by simp [hk])
  · next op hk =>
    split
    · next heq =>
      refine Moves.settled ?_ (by simp [Block.operands, hk, heq]) (by simp [hk])
      refine .bind_idle hc (moves_inputType hc b "A") ?_
      intro l c1 hc1 _ hl
      refine .bind_idle hc1 (moves_inputType hc1 b "B") ?_
      intro r c2 hc2 h2 hr
      exact moves_unite_typing hc2 (h2.lt hl) hr
    · next heq =>
      exact moves_expectOperands hc (by simp [Block.operands, hk, heq]) (by decide) (by simp [hk])
  iterate 7 next hk =>
    exact moves_expectOperands hc (by simp [Block.operands, hk]) (by decide) (by simp [hk])
  · -- `for … of`
    next hk =>
    refine Moves.settled ?_ (by simp [Block.operands, hk]) (by simp [hk])
    refine .bind_idle hc (moves_expectInput hc b "LIST" _) ?_
    rintro list c1 hc1 _ ⟨hl, _⟩
    refine .bind_idle hc1 (moves_variableType hc1.consistent b _) ?_
    rintro n c2 hc2 h2 ⟨hn, _⟩
    exact moves_link hc2 (h2.lt hl) hn
  · -- assignments
    next hk =>
    refine Moves.settled ?_ (by simp [Block.operands, hk]) (by simp [hk])
    refine .bind_idle hc (moves_variableType hc.consistent b _) ?_
    rintro n c1 hc1 _ ⟨hn, _⟩
    refine .bind_idle hc1 (.lift (runs_attach hc1.consistent b "VALUE" none)) ?_
    intro value c2 hc2 h2 _
    exact moves_assign hc2 (h2.lt hn) value
  · next hk => exact moves_change hc hk
  · next hk => exact moves_itemRead hc hk
  · next hk => exact moves_itemWrite hc hk
  · next hk =>
    refine Moves.settled ?_ (by simp [Block.operands, hk]) (by simp [hk])
    exact (moves_expectInputs hc b _ _).imp (fun _ _ _ _ => trivial)
  · -- lists written out
    next hk =>
    refine Moves.settled ?_ (by simp [Block.operands, hk]) (by simp [hk])
    refine .bind_idle hc (moves_blockType hc.consistent b) ?_
    intro list c1 hc1 _ _
    refine .bind_get ?_
    exact moves_typeItems hc1 list _
  · -- definitions of functions
    next hk =>
    refine Moves.settled ?_ (by simp [Block.operands, hk]) (by simp [hk])
    cases (p.block b).functionName? with
    | none => exact .pure _ trivial
    | some name =>
      refine .bind_idle hc (moves_functionTypeWith (typer_blockType p) hc.consistent name) ?_
      intro _ _ _ _ _
      exact .pure _ trivial
  iterate 2 next hk =>
    exact (moves_typeFunctionCall hc b).settled (by simp [Block.operands, hk]) (by simp [hk])
  · next name hk =>
    exact (moves_typeHostCall hc b name).settled (by simp [Block.operands, hk]) (by simp [hk])
  · have hops : (p.block b).operands = [] := by
      unfold Block.operands
      split <;> simp_all
    refine Moves.settled (.pure _ trivial) hops ?_
    simp_all

/-! ## The pass over all blocks -/

def Clean (p : Program) (b : BlockRef) (c : Compilation) : Prop :=
  ∀ d ∈ c.diagnostics, d.block ≠ (p.block b).id

theorem not_clean_report (b : BlockRef) (message : String) :
    ¬ Clean p b (p.report b message c).2 := by
  intro h
  have hmem : (⟨(p.block b).id, message⟩ : Diagnostic) ∈ (p.report b message c).2.diagnostics := by
    show _ ∈ (c.addDiagnostic ⟨(p.block b).id, message⟩).diagnostics
    unfold Compilation.addDiagnostic
    split
    · next hmem => exact hmem
    · exact List.mem_append_right _ (.head _)
  exact h _ hmem rfl

theorem moves_checkBlock (hc : Idle p c) (b : BlockRef) :
    Moves (Proceeds p) (p.checkBlock b) c (fun _ c' => Clean p b c' → Settled p b c') := by
  have hrule := moves_typeBlock hc b
  unfold Moves Ensures checkBlock
  cases hm : p.typeBlock b c with
  | ok u c' =>
    obtain ⟨hproceeds, hsettled⟩ := hrule.of_ok hm
    exact ⟨hproceeds, fun _ => hsettled⟩
  | error e c' =>
    have hproceeds := hrule.of_error hm
    cases e with
    | mismatch m =>
      refine ⟨?_, fun hclean => absurd hclean (not_clean_report b m.message)⟩
      exact trans_of (Proceeds p) hproceeds (Proceeds.report b m.message)
    | fault f => exact hproceeds

theorem Clean.before {c' : Compilation} (h : Clean p b c') (hadv : Advances c c') : Clean p b c :=
  fun d hd => h d (hadv.diagnostics hd)

theorem Advances.isChecked_eq {c c' : Compilation} (h : Advances c c') (b : BlockRef) :
    p.isChecked c' b = p.isChecked c b := by
  unfold isChecked
  rw [h.isLive_eq, h.blockScope]

theorem defaultType?_ne {isParameter isArray : Bool} {u : TypeName}
    (h : defaultType? isParameter isArray = some u) : u ≠ .array := by
  cases isParameter <;> cases isArray <;> cases h <;> decide

/-- A variable has a settled type after its turn, unless it is a parameter that nothing is known
about. -/
theorem runs_settleVariable (hc : Idle p c) (v : BindingId) :
    Runs (Proceeds p) (settleVariable v) c (fun _ c' =>
      ((c.binding v).isParameter = true → c.graph.Definite (c.binding v).node) →
        TypeName.isOpen (c'.graph.typeAt (c.binding v).node) = false) := by
  have hresolve := (runs_resolvedType hc.consistent.graph (c.binding v).node).mono
    fun _ h => h.changes
  unfold settleVariable
  refine .bind_get ?_
  refine .bind (runs_graph hresolve) ?_
  rintro t c1 h1 ⟨_, ht⟩
  have hc1 := hc.proceed h1
  obtain ⟨_, hadv1⟩ := h1 hc.consistent
  split
  · next hopen =>
    have hread := (runs_isArrayNode hc1.consistent.graph (c.binding v).node).mono
      fun _ h => h.changes
    refine .bind (runs_graph hread) ?_
    rintro isArray c2 h2 ⟨_, hlist, hsame⟩
    have hc2 := hc1.proceed h2
    obtain ⟨_, hadv2⟩ := h2 hc1.consistent
    rw [ht] at hopen
    cases hdefault : defaultType? (c.binding v).isParameter isArray with
    | none =>
      refine .pure _ fun hparameter => ?_
      -- no default is left for a parameter that is no list
      have hknown : (c.binding v).isParameter = true ∧ isArray = false := by
        revert hdefault
        cases (c.binding v).isParameter <;> cases isArray <;> simp [defaultType?]
      rcases (hparameter hknown.1).extends hadv1.graph with hsettled | hmarked
      · rw [hopen] at hsettled
        cases hsettled
      · rw [hknown.2, hmarked, Bool.true_or] at hlist
        cases hlist
    | some u =>
      have hlt := hadv2.lt (hadv1.lt (hc.consistent.binding_lt v))
      have hset := runs_setType hc2.consistent.graph (c.binding v).node hlt u
        (by rw [hsame.typeAt_eq]; exact hopen)
      refine (runs_graph hset).imp ?_
      rintro _ c3 _ ⟨_, htype⟩ _
      exact isOpen_eq_false_iff.mpr ⟨u, htype, defaultType?_ne hdefault⟩
  · next hclosed =>
    refine .pure _ fun _ => ?_
    rw [← ht]
    exact Bool.eq_false_iff.mpr hclosed

/-- What is settled stays so. -/
theorem settled_stable (b : BlockRef) (d d' : Compilation) (hd : Idle p d)
    (hsettled : p.isChecked d b → Clean p b d → Settled p b d) (h : Proceeds p d d') :
    p.isChecked d' b → Clean p b d' → Settled p b d' := by
  intro hchecked hclean
  obtain ⟨_, hadv⟩ := h hd.consistent
  rw [hadv.isChecked_eq] at hchecked
  exact (hsettled hchecked (hclean.before hadv)).advance hadv

theorem moves_checkEach (hc : Idle p c) (l : List BlockRef) : Moves (Proceeds p) (p.checkEach l) c
      (fun _ c' => ∀ b ∈ l, p.isChecked c' b → Clean p b c' → Settled p b c') := by
  refine Moves.forM (R := Proceeds p) (I := Idle p) (fun _ _ => Idle.proceed) settled_stable l ?_ hc
  intro b _ d hd
  refine .bind_get ?_
  split
  · exact (moves_checkBlock hd b).imp (fun _ _ _ h _ => h)
  · next hchecked => exact .pure _ fun h => absurd h hchecked

/-- The pass over some blocks settles every one that it does not complain about. -/
theorem moves_inferFrom (hc : Idle p c) (l : List BlockRef) : Moves (Proceeds p) (p.inferFrom l) c
      (fun _ c' => ∀ b ∈ l, p.isChecked c' b → Clean p b c' → Settled p b c') := by
  refine .bind (moves_checkEach hc l) fun _ c1 h1 hsettled => .bind_get ?_
  have hc1 := hc.proceed h1
  refine (Moves.loop (I := Idle p) (fun _ _ => Idle.proceed) _ ?_ hc1).imp ?_
  · intro v _ d hd
    exact .lift ((runs_settleVariable hd v).imp fun _ _ _ _ => trivial)
  · intro _ c2 h2 _ b hb
    exact settled_stable b c1 c2 hc1 (hsettled b hb) h2

theorem moves_infer (hc : Idle p c) : Moves (Proceeds p) p.infer c
      (fun _ c' => ∀ b ∈ p.workspace.refs, p.isChecked c' b → Clean p b c' → Settled p b c') :=
  moves_inferFrom hc p.workspace.refs

/-! ## Asking afterwards -/

/-- The type of what is plugged into an input or stands in for it. -/
def Program.operandType (p : Program) (b : BlockRef) (input : String) :
    CompileM (Option TypeName) := do
  let target ← p.attach b input none
  p.targetTypeName target

theorem operandType_of_pinned (hc : Idle p c) {input : String} (ht : t ∈ operandTypes)
    (h : Pinned p c b input t) :
    ∃ u c', p.operandType b input c = .ok (some u) c' ∧ (u = t ∨ u = .any) := by
  obtain ⟨target, n, u, htarget, hanswers, hu, hor⟩ := h
  have hne := ne_array_of_operand ht hor
  have hlist : c.graph.typeAt n ≠ some .array := by
    rw [hu]
    exact fun harray => hne (Option.some.inj harray)
  -- the node that is found now has the type of the one that was found before
  obtain ⟨n', c1, hfound⟩ := typeOfTarget_ok_of_answers hanswers
  obtain ⟨h1, _, hanswers'⟩ := (moves_typeOfTarget hc.consistent target).of_ok hfound
  obtain ⟨hc1, hadv1⟩ := h1 hc.consistent
  have hsame := (hanswers.advance htarget hadv1 hlist).typeAt_eq (hanswers' hc.inProgress)
  have hu1 : c1.graph.typeAt n' = some u := by
    rw [← hsame]
    exact hadv1.graph.type_eq n u hu hne
  have hresolve := runs_resolvedType hc1.graph n'
  have hu2 : (resolvedType n' c1.graph).1 = some u := by
    rw [hresolve.2]
    exact (hresolve.1.changes.extends hc1.graph).type_eq n' u hu1 hne
  refine ⟨u, { c1 with graph := (resolvedType n' c1.graph).2 }, ?_, hor⟩
  have hsettled : p.targetTypeName target c =
      .ok (some u) { c1 with graph := (resolvedType n' c1.graph).2 } := by
    unfold targetTypeName settledType
    rw [hfound]
    dsimp only
    rw [hu2]
  show (p.targetTypeName (p.attach b input none c).1) (p.attach b input none c).2 = _
  rw [attach_of_attached none htarget]
  exact hsettled

theorem idle_track (p : Program) (disabled : List BlockRef) (taken : List String) :
    Idle p (p.track (.fresh disabled taken)).2 := by
  have hsteps := steps_track_fresh disabled taken p
  exact ⟨hsteps.consistent (fresh_consistent disabled taken p), hsteps.inProgress_eq⟩

/-- Once a program has been typed, each operand of a live, visited block without a diagnostic has
the type that the rule of the block expects, or the dynamic type; so has the variable that a block
changes. -/
theorem infer_sound (p : Program) (disabled : List BlockRef) (taken : List String) (c : Compilation)
    (hinfer : p.infer (p.track (.fresh disabled taken)).2 = .ok () c) (b : BlockRef)
    (hlive : p.isLive c b = true) (hvisited : c.blockScope.contains b = true)
    (hclean : ∀ d ∈ c.diagnostics, d.block ≠ (p.block b).id) :
    (∀ e ∈ (p.block b).operands, ∃ u c',
      p.operandType b e.1 c = .ok (some u) c' ∧ (u = e.2 ∨ u = TypeName.any)) ∧
    ((p.block b).kind = .variableChange → ∃ v t,
      p.lookup b ((p.block b).variableField?.getD "") c = .ok v c ∧
        (resolvedType (c.binding v).node c.graph).1 = some t ∧
        (t = TypeName.number ∨ t = TypeName.any)) := by
  have hstart := idle_track p disabled taken
  obtain ⟨hproceeds, hsettled⟩ := (moves_infer hstart).of_ok hinfer
  have hc := hstart.proceed hproceeds
  rcases Nat.lt_or_ge b p.workspace.size with hb | hb
  · have hchecked : p.isChecked c b = true := by
      unfold isChecked
      rw [hlive, hvisited]
      rfl
    have hblock := hsettled b (List.mem_range.mpr hb) hchecked hclean
    refine ⟨?_, ?_⟩
    · intro e he
      obtain ⟨htype, hpinned⟩ := hblock.operands e he
      exact operandType_of_pinned hc htype hpinned
    · intro hk
      obtain ⟨v, t, hv, ht, hor⟩ := hblock.changed hk
      refine ⟨v, t, lookup_of_some hv, ?_, hor⟩
      have hresolve := runs_resolvedType hc.consistent.graph (c.binding v).node
      rw [hresolve.2]
      refine (hresolve.1.changes.extends hc.consistent.graph).type_eq _ t ht ?_
      rcases hor with rfl | rfl <;> decide
  · -- there is no such block, so the empty one stands for it
    have hdefault : p.block b = default := by
      show (p.workspace.blocks[b]?).getD default = default
      rw [Array.getElem?_eq_none hb]
      rfl
    rw [hdefault]
    refine ⟨?_, ?_⟩
    · intro e he
      cases he
    · intro hk
      cases hk

/-- A loop that runs `n` times and changes `n`, by an amount that is left open. -/
def counting : Program where
  workspace := {
    blocks := #[
      { id := "repeat", tag := "", kind := .repeatTimes,
        inputs := [⟨"TIMES", .value, some 1⟩, ⟨"DO", .statement, some 2⟩] },
      { id := "times", tag := "", kind := .variableGet, fields := [⟨"VAR", "n"⟩],
        output := some [TypeName.generic] },
      { id := "change", tag := "", kind := .variableChange, fields := [⟨"VAR", "n"⟩],
        inputs := [⟨"VALUE", .value, none⟩] }]
    parents := #[none, some 0, some 0] }
  surface := {}

theorem infer_sound_counting : ∃ c,
    counting.infer (counting.track (.fresh [] [])).2 = .ok () c ∧
    counting.isLive c 2 = true ∧ c.blockScope.contains 2 = true ∧ c.diagnostics = [] ∧
    ("VALUE", TypeName.number) ∈ (counting.block 2).operands ∧
    (∃ u c', counting.operandType 2 "VALUE" c = .ok (some u) c' ∧
      (u = TypeName.number ∨ u = TypeName.any)) ∧
    ∃ v t, counting.lookup 2 "n" c = .ok v c ∧
      (resolvedType (c.binding v).node c.graph).1 = some t ∧
      (t = TypeName.number ∨ t = TypeName.any) := by
  obtain ⟨_, c, hinfer, hlive, hvisited, hnone⟩ := Succeeds.exists_ok
    (by decide +kernel : Succeeds counting.infer (counting.track (.fresh [] [])).2 fun _ c =>
      counting.isLive c 2 = true ∧ c.blockScope.contains 2 = true ∧ c.diagnostics = [])
  have hoperand : ("VALUE", .number) ∈ (counting.block 2).operands := List.mem_cons_self
  have hsound := infer_sound counting [] [] c hinfer 2 hlive hvisited (by rw [hnone]; simp)
  exact ⟨c, hinfer, hlive, hvisited, hnone, hoperand, hsound.1 _ hoperand, hsound.2 rfl⟩

end BlockProgram
