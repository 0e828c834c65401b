import BlockProgram.Proofs.Emit.Expressions

/-!
# What is written for a statement

As for expressions, there is one lemma for each function that makes code. All but a start block make
a single line, which gets the id of the block; a start block has the lines of its chain. So an
emitter of any depth accounts for the declarations below the blocks it writes
(`emits_emitterFrom`), if no block is written twice, nothing that is used is declared in front of a
value, and no code is written by hand.
-/

namespace BlockProgram

open Compilation Program List

variable {p : Program} {c : Compilation} {b : BlockRef} {e : Emitter}

/-- The lines of a block before it is named: at most one. -/
def Unnamed (p : Program) (b : BlockRef) (M : List BlockRef → List Mark → Prop)
    (lines : List Code) : Prop :=
  lines = [] ∨ ∃ code, lines = [code] ∧ M (p.written (p.block b)) code.marks

theorem Yields.line {M : List BlockRef → List Mark → Prop} {m : CompileM Code}
    (h : YieldsOwn p c b M m) : Yields p c (do return [← m]) (Unnamed p b M) :=
  h.bind fun code hcode => .pure (.inr ⟨code, rfl, hcode⟩)

section Writing

variable {M : List BlockRef → List Mark → Prop} (hb : EmitsPlugged p c e b M)

/-! ## Assignments -/

theorem yields_assignmentHead (v : BindingId) (target : Target) (value : Code) :
    Yields p c (p.assignmentHead b v target value) fun head =>
      ∃ r, head = c.outputName v ++ r ∨ head = "let " ++ c.outputName v ++ r := by
  unfold assignmentHead
  refine .bind_get fun d hadv => ?_
  rw [outputName_of_advances hadv]
  dsimp only
  split
  · refine (yields_variableTypeName v).bind fun declared _ => ?_
    refine (yields_targetTypeName target).bind fun assigned _ => .pure ?_
    unfold declaringHead
    split
    · next t =>
      split
      · exact ⟨": " ++ t ++ " = ", .inr (by simp only [String.append_assoc])⟩
      · exact ⟨_, .inr rfl⟩
    · exact ⟨_, .inr rfl⟩
  · exact .pure ⟨_, .inl rfl⟩

include hb

theorem yields_emitSet (hkind : (p.block b).kind = .variableSet) :
    YieldsOwn p c b M (p.emitSet e b) := by
  have hnames := p.writtenInputs_of_kind hkind
  have hn : "VALUE" ∈ p.writtenInputs (p.block b) := hnames ▸ mem_singleton_self _
  unfold emitSet
  refine (yields_lookup b _).bind fun v _ => ?_
  refine (yields_attach b "VALUE").bind fun target htarget => ?_
  refine (yields_emitTarget hb hn htarget).bind fun value hvalue => ?_
  refine (yields_assignmentHead v target value).bind fun head _ => .pure ?_
  rw [Code.marks_statement]
  exact (Pieces.text hb.toAccounting head (.cons hvalue (.nil []))).written hb hnames

theorem yields_emitChange (hkind : (p.block b).kind = .variableChange) :
    YieldsOwn p c b M (p.emitChange e b) := by
  have hnames := p.writtenInputs_of_kind hkind
  unfold emitChange
  refine (yields_variableName b _).bind fun name _ => ?_
  refine (yields_emitInput_written hb hnames).bind fun value h => .pure ?_
  simpa using h

theorem yields_emitIndexSet (hkind : (p.block b).kind = .listIndexSet) :
    YieldsOwn p c b M (p.emitIndexSet e b) := by
  have hnames : p.writtenInputs (p.block b) = ["LIST", "INDEX", "VALUE"] :=
    p.writtenInputs_of_kind hkind
  unfold emitIndexSet
  refine (yields_emitInput hb (by simp [hnames])).bind fun list hlist => ?_
  refine (yields_emitInput hb (by simp [hnames])).bind fun index hindex => ?_
  refine (yields_emitInput hb (by simp [hnames])).bind fun value hvalue => .pure ?_
  have hmade :=
    (Pieces.cons hlist (.cons hindex (.cons hvalue (.nil [])))).written hb hnames
  simpa using hmade

/-! ## Conditions and loops -/

theorem yields_emitBranches (names : List String) (hnames : names ⊆ p.writtenInputs (p.block b))
    (lead : String) :
    Yields p c (p.emitBranches e b lead names) (Pieces M (names.flatMap fun n =>
      ((p.block b).inputTarget? n).toList ++ ((p.block b).inputTarget? (bodyInput n)).toList)) := by
  induction names generalizing lead with
  | nil => exact .pure (.nil _)
  | cons n names ih =>
    have hn := hnames (.head _)
    unfold emitBranches
    refine (yields_emitInput hb hn).bind fun test htest => ?_
    refine (yields_emitBody hb fun x hx => mem_targets_of_inputTarget hx).bind fun body hbody => ?_
    refine (ih (fun x hx => hnames (.tail n hx)) _).bind fun rest hrest => .pure ?_
    rw [flatMap_cons, append_assoc]
    exact .text hb.toAccounting lead (.cons htest (.text hb.toAccounting ") " (.cons hbody hrest)))

theorem made_conditionalCode {ts us : List BlockRef} {branches : List Code}
    {otherwise : Option Code} (hbranches : Pieces M ts branches)
    (hotherwise : Pieces M us otherwise.toList) :
    M (ts ++ us) (conditionalCode branches otherwise).marks := by
  have hmade := (hbranches.append hotherwise).made hb.toAccounting
  unfold conditionalCode
  cases otherwise with
  | some code =>
    dsimp only
    split
    · next hempty =>
      rw [List.isEmpty_iff.mp hempty] at hmade
      simpa using hmade
    · simpa [Code.partMarks_append] using hmade
  | none =>
    dsimp only
    split
    · simpa using hb.braces (hb.nil (ts ++ us))
    · simpa using hmade

theorem yields_otherwise :
    Yields p c (((p.block b).input? "ELSE").mapM fun i => p.emitBody e i.target) fun otherwise =>
      Pieces M ((p.block b).plugged ["ELSE"]) otherwise.toList := by
  have hplugged : (p.block b).plugged ["ELSE"] = ((p.block b).inputTarget? "ELSE").toList :=
    flatMap_singleton _ _
  rw [hplugged]
  cases helse : (p.block b).input? "ELSE" with
  | none => exact .pure (.nil _)
  | some i =>
    have htarget : (p.block b).inputTarget? "ELSE" = i.target := by
      unfold Block.inputTarget?
      rw [helse]
      rfl
    rw [htarget]
    refine (yields_emitBody hb fun x hx => ?_).map fun code h => .singleton h
    exact mem_targets_of_inputTarget (htarget.trans hx)

theorem yields_emitConditional (hkind : (p.block b).kind = .conditional) :
    YieldsOwn p c b M (p.emitConditional e b) := by
  have hnames : p.writtenInputs (p.block b) = ((p.block b).numberedInputs "IF").map (·.name) :=
    p.writtenInputs_of_kind hkind
  unfold emitConditional
  refine (yields_emitBranches hb _ (hnames ▸ List.Subset.refl _) _).bind
    fun branches hbranches => ?_
  refine (yields_otherwise hb).bind fun otherwise hotherwise => .pure ?_
  refine hb.mono (made_conditionalCode hb hbranches hotherwise) ?_
  rw [p.written_of_kind hkind, kindBodies, ← append_assoc, subperm_append_right]
  -- the conditions can be put in front of the bodies
  have hperm := flatMap_append_perm (((p.block b).numberedInputs "IF").map (·.name))
    (fun n => ((p.block b).inputTarget? n).toList)
    (fun n => ((p.block b).inputTarget? (bodyInput n)).toList)
  rw [flatMap_map (f := fun i : Input => i.name)
    (g := fun n => ((p.block b).inputTarget? (bodyInput n)).toList)] at hperm
  unfold Block.plugged
  rw [flatMap_map (f := fun i : Input => bodyInput i.name)]
  exact hperm.symm.subperm

/-- A loop over what one input gives. -/
theorem yields_loop {n : String} (hwritten : p.written (p.block b) =
      (p.block b).plugged [n] ++ (p.block b).plugged ["DO"])
    (hn : n ∈ p.writtenInputs (p.block b)) {f : Code → Code → Code}
    (hf : ∀ x body, (f x body).marks = x.marks ++ body.marks) :
    YieldsOwn p c b M (do return f (← p.emitInput e b n) (← p.emitLoopBody e b)) := by
  refine (yields_emitInput hb hn).bind fun x hx => ?_
  refine (yields_emitBody hb fun x hx => mem_targets_of_inputTarget hx).bind
    fun body hbody => .pure ?_
  rw [hf, hwritten]
  simpa [Block.plugged] using hb.append hx hbody

theorem yields_emitRepeat (hkind : (p.block b).kind = .repeatTimes) :
    YieldsOwn p c b M (p.emitRepeat e b) := by
  unfold emitRepeat
  refine (yields_variableName b _).bind fun i _ => ?_
  refine yields_loop hb (p.written_of_kind hkind)
    (p.writtenInputs_of_kind hkind ▸ mem_singleton_self _) fun _ _ => ?_
  simp

theorem yields_emitWhile (hkind : (p.block b).kind = .whileLoop) :
    YieldsOwn p c b M (p.emitWhile e b) := by
  unfold emitWhile
  refine yields_loop hb (p.written_of_kind hkind)
    (p.writtenInputs_of_kind hkind ▸ mem_singleton_self _) fun _ _ => ?_
  unfold loopCondition
  split <;> simp

theorem yields_emitForOf (hkind : (p.block b).kind = .forOf) :
    YieldsOwn p c b M (p.emitForOf e b) := by
  unfold emitForOf
  refine (yields_variableName b _).bind fun x _ => ?_
  refine yields_loop hb (p.written_of_kind hkind)
    (p.writtenInputs_of_kind hkind ▸ mem_singleton_self _) fun _ _ => ?_
  simp

theorem yields_emitForRange (hkind : (p.block b).kind = .forRange) :
    YieldsOwn p c b M (p.emitForRange e b) := by
  have hnames : p.writtenInputs (p.block b) = ["FROM", "TO"] := p.writtenInputs_of_kind hkind
  have hwritten : p.written (p.block b) =
      (p.block b).plugged ["FROM", "TO"] ++ (p.block b).plugged ["DO"] := p.written_of_kind hkind
  have hstart : Yields p c (p.emitFrom e b) fun code =>
      M ((p.block b).inputTarget? "FROM").toList code.marks := by
    unfold emitFrom
    split
    · exact yields_emitInput hb (by simp [hnames])
    · exact .pure (hb.text _ _)
  unfold emitForRange
  refine (yields_variableName b _).bind fun i _ => ?_
  refine hstart.bind fun start hstart => ?_
  refine (yields_emitInput hb (by simp [hnames])).bind fun stop hstop => ?_
  refine (yields_emitBody hb fun x hx => mem_targets_of_inputTarget hx).bind
    fun body hbody => .pure ?_
  rw [hwritten]
  have hmade := hb.append hstart (hb.append hstop hbody)
  simpa [Block.plugged] using hmade

/-! ## User functions -/

theorem yields_emitReturn (hkind : (p.block b).kind = .functionReturn) :
    YieldsOwn p c b M (p.emitReturn e b) := by
  unfold emitReturn
  split
  · have hnames := p.writtenInputs_of_kind hkind
    refine (yields_emitInput_written hb hnames).bind fun value h => .pure ?_
    simpa using h
  · refine .pure ?_
    simpa using hb.nil (p.written (p.block b))

theorem yields_emitFunctionDefinition (hkind : (p.block b).kind = .functionDefinition) :
    YieldsOwn p c b M (p.emitFunctionDefinition e b) := by
  have hwritten : p.written (p.block b) = (p.block b).body?.toList := p.written_of_kind hkind
  have hparameter : ∀ a ∈ (p.block b).args, Yields p c (p.emitParameter b a) fun _ => True := by
    intro a _
    unfold emitParameter
    refine (yields_lookup b a.name).bind fun v _ => ?_
    exact (yields_variableTypeName v).bind fun type _ => .bind_get fun d _ => .pure trivial
  unfold emitFunctionDefinition
  split
  · unfold emitFunction
    refine (Yields.mapM (P := fun _ _ => True) hparameter).bind fun parameters _ => ?_
    refine (yields_functionTypeName _).bind fun result _ => ?_
    refine (yields_emitBody hb fun x hx => mem_targets_of_body hx).bind fun body h => .pure ?_
    rw [hwritten]
    simpa using h
  · exact yields_fail b _ _

/-! ## Lines -/

omit hb in
theorem marks_expressionStatement (code : Code) :
    (expressionStatement code).marks = code.marks := by
  unfold expressionStatement
  split <;> simp

theorem yields_emitHostStatement {name : String} (hkind : (p.block b).kind = .hostCall name) :
    YieldsOwn p c b M (p.emitHostStatement e b name) := by
  unfold emitHostStatement
  refine (yields_emitHostCall hb hkind).bind fun call h => .pure ?_
  split
  · exact h
  · simpa using h

theorem yields_expressionLine :
    Yields p c (do return [expressionStatement (← p.expressionStep e b)]) (Unnamed p b M) := by
  refine (yields_expressionStep hb).bind fun code h => .pure (.inr ⟨_, rfl, ?_⟩)
  rwa [marks_expressionStatement]

theorem yields_emitLines (hstart : (p.block b).kind ≠ .onStart)
    (hraw : (p.block b).kind ≠ .rawStatement) : Yields p c (p.emitLines e b) (Unnamed p b M) := by
  have htext : ∀ s, Unnamed p b M [.statement [.ofText s]] := by
    intro s
    refine .inr ⟨_, rfl, ?_⟩
    simpa using hb.nil (p.written (p.block b))
  unfold emitLines
  dsimp only
  split
  · next hkind => exact absurd hkind hstart
  · next hkind => exact (yields_emitSet hb hkind).line
  · next hkind => exact (yields_emitChange hb hkind).line
  · next hkind => exact (yields_emitConditional hb hkind).line
  · next hkind => exact (yields_emitRepeat hb hkind).line
  · next hkind => exact (yields_emitWhile hb hkind).line
  · next hkind => exact (yields_emitForRange hb hkind).line
  · next hkind => exact (yields_emitForOf hb hkind).line
  · exact .pure (htext _)
  · exact .pure (htext _)
  · next hkind => exact (yields_emitIndexSet hb hkind).line
  · next hkind => exact (yields_emitFunctionDefinition hb hkind).line
  · next hkind =>
    have hnames := p.writtenInputs_of_kind hkind
    refine (yields_emitFunctionCall hb hnames).bind fun call h => ?_
    exact .pure (.inr ⟨_, rfl, by simpa using h⟩)
  · next hkind => exact (yields_emitReturn hb hkind).line
  · next hkind => exact absurd hkind hraw
  · next hkind => exact (yields_emitHostStatement hb hkind).line
  · unfold emitUnknown
    split
    · exact yields_expressionLine hb
    · exact (yields_report b _).bind fun _ _ => .pure (.inl rfl)
  · exact yields_expressionLine hb

end Writing

/-! ## All blocks -/

/-- Only what is plugged in is written. -/
theorem written_subset (b : BlockRef) : p.written (p.block b) ⊆ (p.block b).targets := by
  have hplugged : ∀ names, (p.block b).plugged names ⊆ (p.block b).targets := by
    intro names t ht
    obtain ⟨n, _, htn⟩ := mem_flatMap.mp ht
    exact mem_targets_of_inputTarget (Option.mem_toList.mp htn)
  have hbody : ∀ t ∈ (p.block b).body?.toList, t ∈ (p.block b).targets :=
    fun t ht => mem_targets_of_body (Option.mem_toList.mp ht)
  refine append_subset.mpr ⟨hplugged _, fun t ht => ?_⟩
  unfold kindBodies at ht
  split at ht
  · obtain ⟨i, hi, hit⟩ := exists_of_findSome?_eq_some (Option.mem_toList.mp ht)
    exact Workspace.mem_targets (mem_of_mem_filter hi) hit
  · exact (mem_append.mp ht).elim (fun ht => hplugged _ ht) fun ht => hplugged _ ht
  iterate 4 exact hplugged _ ht
  · exact hbody t ht
  · obtain ⟨_, _, ht⟩ := mem_flatMap.mp ht
    exact hbody t ht
  · cases ht

section Emitter

variable (hws : p.workspace.Sound) (hc : Sited p (p.isLive c) c)

include hws hc

/-- Code from blocks that are written once accounts for all that is plugged in. -/
theorem Made.spelled {ms : List Mark} (h : Made p c b (p.written (p.block b)) ms)
    (honce : (p.written (p.block b)).Nodup) :
    Spelled p c (Among p (p.block b).targets) (Among p (p.block b).targets) ms := by
  have hall : Made p c b (p.block b).targets ms :=
    h.mono hws hc (subperm_of_subset honce (written_subset b))
  exact hall (hws.nodup b).of_append_left (List.Subset.refl _)

theorem Unnamed.lined {lines : List Code} (h : Unnamed p b (Made p c b) lines)
    (hb : b < p.workspace.size) (honce : (p.written (p.block b)).Nodup) :
    Lined p c (p.workspace.Within b) (Among p (p.block b).targets)
      (nameLast (p.block b).id lines) := by
  rcases h with rfl | ⟨code, rfl, hcode⟩
  · exact .nil _ _
  · exact .singleton (Spelled.own hws hc hb (hcode.spelled hws hc honce))

theorem yields_startLines (he : Emits p c e) (hkind : (p.block b).kind = .onStart)
    (hb : b < p.workspace.size) (honce : (p.written (p.block b)).Nodup) :
    Yields p c (p.emitLines e b) fun lines => Lined p c (p.workspace.Within b)
      (Among p (p.block b).targets) (nameLast (p.block b).id lines) := by
  have hwritten : p.written (p.block b) =
      ((p.block b).statementInputs.findSome? (·.target)).toList := p.written_of_kind hkind
  unfold emitLines
  dsimp only
  rw [hkind]
  refine (yields_emitChain hws hc he fun x hx => ?_).imp fun lines h => ?_
  · refine hws.child_lt b x (mem_append_left _ (written_subset b ?_))
    rw [hwritten, Option.mem_toList]
    exact hx
  · rw [← hwritten] at h
    have hmade : Made p c b (p.written (p.block b)) (Code.lineMarks lines) := fun _ _ => h.spelled
    exact .nameLast hws hc hb ⟨h.bare, hmade.spelled hws hc honce⟩

variable (hplain : ∀ b < p.workspace.size, p.isLive c b = true →
    ∀ n ∈ p.writtenInputs (p.block b), ∀ t, (p.block b).inputTarget? n = some t → Plain c t)
  (honce : ∀ b < p.workspace.size, p.isLive c b = true → (p.written (p.block b)).Nodup)
  (hraw : ∀ b < p.workspace.size, p.kind b ≠ .rawStatement)

include hplain honce hraw

/-- The emitter accounts for all declarations, to any depth. -/
theorem emits_emitterFrom (fuel : Nat) : Emits p c (p.emitterFrom fuel) := by
  induction fuel with
  | zero =>
    refine ⟨fun b _ _ => .pure ?_, fun b _ _ => .pure (.nil _ _)⟩
    rw [Code.marks_ofText]
    exact .nil _ _
  | succ fuel ih =>
    refine ⟨fun b hb hlive => ?_, fun b hb hlive => ?_⟩
    · exact (yields_expressionStep (ih.plugged hws hc (hplain b hb hlive))).imp
        fun code h => h.spelled hws hc (honce b hb hlive)
    · by_cases hstart : (p.block b).kind = .onStart
      · exact (yields_startLines hws hc ih hstart hb (honce b hb hlive)).bind fun lines h => .pure h
      · exact (yields_emitLines (ih.plugged hws hc (hplain b hb hlive)) hstart (hraw b hb)).bind
          fun lines h => .pure (h.lined hws hc hb (honce b hb hlive))

end Emitter

end BlockProgram
