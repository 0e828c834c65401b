import BlockProgram.Proofs.Compile.Success
import BlockProgram.Proofs.Emit.Statements
import BlockProgram.Proofs.Typing.Soundness

/-!
# No declaration is lost

Scope tracking notes in front of which block a variable is declared, and the emitter writes the
declarations that it comes upon: those in front of statements, and those at the top. If values are
plain (`Program.PlainValues`), this is all of them. Every variable that is used in the output
without being declared by a use is declared once, in front of all its uses and in braces that
contain them all (`compile_declares`).

A declaration can be lost in front of a value. A use of the host whose handler has parameters may
stand as one. A variable that is used in its handler and among its arguments is to be declared in
front of it, where no statement begins (`compile_omits_declaration`).
-/

namespace BlockProgram

open Compilation Workspace Code List Program

variable {lines : List Code} {L : BlockRef → Bool}

variable {p : Program} {c : Compilation}

/-! ## Programs with plain values -/

/-- What is written as a value stands in a value input and declares no variables for what is plugged
into it, and no block is written twice. -/
structure Program.PlainValues (p : Program) : Prop where
  scopeless : ∀ b < p.workspace.size, p.live b = true →
    ∀ t ∈ (p.block b).plugged (p.writtenInputs (p.block b)), p.ownNames (p.block t) = []
  value : ∀ b < p.workspace.size, p.live b = true →
    ∀ t ∈ (p.block b).plugged (p.writtenInputs (p.block b)), ∀ i ∈ (p.block b).inputs,
      i.target = some t → i.kind = .value
  once : ∀ b < p.workspace.size, p.live b = true → (p.written (p.block b)).Nodup

instance decidablePlainValues (p : Program) : Decidable p.PlainValues :=
  decidable_of_iff (_ ∧ _ ∧ _) ⟨fun ⟨h₁, h₂, h₃⟩ => ⟨h₁, h₂, h₃⟩, fun ⟨h₁, h₂, h₃⟩ => ⟨h₁, h₂, h₃⟩⟩

/-- What is plugged into value inputs only is no statement. -/
theorem not_isStatement (hws : p.workspace.Sound) {b t : BlockRef} (ht : t ∈ (p.block b).targets)
    (hvalue : ∀ i ∈ (p.block b).inputs, i.target = some t → i.kind = .value) :
    ¬ p.IsStatement t := by
  rintro ⟨o, i, hi, hkind, x, hix, hmem⟩
  have hx : x ∈ (p.block o).targets := mem_targets hi hix
  have hlt := hws.child_lt o x (mem_append_left _ hx)
  have hparent := parent_of_target hws ht
  rcases eq_or_next_of_mem_chain hws hlt hmem with rfl | ⟨y, hy⟩
  · rw [parent_of_target hws hx] at hparent
    cases hparent
    rw [hvalue i hi hix] at hkind
    cases hkind
  · rw [hws.parent_eq y t (next_mem_children hy)] at hparent
    cases hparent
    exact next_ne_of_target hws ht hy

/-- Where values are plain, no declaration belongs in front of one. -/
theorem Program.PlainValues.plain (h : p.PlainValues) (hws : p.workspace.Sound)
    (hc : Sited p p.live c) {b : BlockRef} (hb : b < p.workspace.size) (hlive : p.live b = true)
    {n : String} (hn : n ∈ p.writtenInputs (p.block b)) {t : BlockRef}
    (ht : (p.block b).inputTarget? n = some t) : Plain c t := by
  have hplugged : t ∈ (p.block b).plugged (p.writtenInputs (p.block b)) :=
    mem_flatMap.mpr ⟨n, hn, Option.mem_toList.mpr ht⟩
  intro v hv
  refine eq_nil_iff_forall_not_mem.mpr fun r hr => ?_
  rcases (hc.below v t hv r hr).2.position with hnames | hstatement
  · exact hnames (h.scopeless b hb hlive t hplugged)
  · exact not_isStatement hws (mem_targets_of_inputTarget ht) (h.value b hb hlive t hplugged)
      hstatement

/-! ## Top blocks -/

theorem lineMarks_separateFirst (lines : List Code) :
    lineMarks (separateFirst lines) = lineMarks lines := by
  cases lines with
  | nil => rfl
  | cons line lines =>
    show lineMarks (line.separated true :: lines) = _
    rw [lineMarks_cons, lineMarks_cons, ownLine_separated, marks_separated]

theorem IsLink.lined (hws : p.workspace.Sound) (hc : Sited p L c) {x : BlockRef}
    (h : IsLink p c x lines) : Lined p c (p.workspace.Under x) (p.workspace.Under x) lines := by
  obtain ⟨declarations, own, rfl, hdeclarations, hown⟩ := h
  have hlink := hown.link hws hc (.nil _ _) hdeclarations
  rwa [append_nil] at hlink

theorem spelled_tops (hc : Sited p L c) {tops : List BlockRef} {liness : List (List Code)}
    (h : List.Forall₂ (fun t lines => Spelled p c (p.workspace.Under t) (p.workspace.Under t)
      (lineMarks lines)) tops liness) (hparent : ∀ t ∈ tops, p.workspace.parent? t = none)
    (hnodup : tops.Nodup) :
    Spelled p c (Among p tops) (Among p tops) (lineMarks liness.flatten) := by
  induction h with
  | nil =>
    rw [flatten_nil, lineMarks_nil]
    exact .nil _ _
  | @cons t lines tops liness hfirst _ ih =>
    obtain ⟨ht, hrest⟩ := nodup_cons.mp hnodup
    have hothers := ih (fun u hu => hparent u (.tail t hu)) hrest
    have hapart : ∀ x, p.workspace.Under t x → ¬ Among p tops x := by
      rintro x hx ⟨u, hu, hux⟩
      have heq : t = u := eq_of_under_of_top (hparent t (.head _)) (hparent u (.tail t hu)) hx hux
      exact ht (heq ▸ hu)
    have hamong : ∀ x, p.workspace.Under t x ∨ Among p tops x ↔ Among p (t :: tops) x :=
      fun x => by simp [Among]
    rw [flatten_cons, lineMarks_append]
    refine (hfirst.append hc hothers ?_ ?_ hapart).congr hamong hamong
    · exact fun k hk x hx => hapart x (hk.trans hx)
    · exact fun k hk x hx htx => hapart x htx (among_under hk hx)

/-! ## The whole program -/

theorem ids_lineMarks_eq_nil (h : ∀ line ∈ lines, line.marks.filterMap Mark.id? = []) :
    (lineMarks lines).filterMap Mark.id? = [] := by
  induction lines with
  | nil => rfl
  | cons line lines ih =>
    obtain ⟨hline, hlines⟩ := forall_mem_cons.mp h
    rw [lineMarks_cons, filterMap_append, filterMap_append, filterMap_ownLine, hline, ih hlines]
    rfl

theorem ids_braces_eq_nil (head : String) (h : ∀ line ∈ lines, line.marks = []) :
    (ofParts [.ofText head, .braces lines]).marks.filterMap Mark.id? = [] := by
  have hinner : (lineMarks lines).filterMap Mark.id? = [] :=
    ids_lineMarks_eq_nil fun line hline => by rw [h line hline]; rfl
  rw [marks_ofParts, partMarks_cons, partMarks_cons, partMarks_nil,
    marks_ofText, marks_braces, nil_append, append_nil]
  show (lineMarks lines ++ [Mark.closes]).filterMap Mark.id? = []
  rw [filterMap_append, hinner]
  rfl

/-- Enums and kinds are not made from blocks. -/
theorem ids_hostDeclarations (p : Program) :
    (lineMarks p.hostDeclarations).filterMap Mark.id? = [] := by
  refine ids_lineMarks_eq_nil fun line hline => ?_
  rcases mem_append.mp hline with h | h
  · obtain ⟨info, _, hinfo⟩ := mem_filterMap.mp h
    unfold EnumInfo.declaration? at hinfo
    dsimp only at hinfo
    split at hinfo
    · cases hinfo
    · cases hinfo
      exact ids_braces_eq_nil _ (by simp)
  · obtain ⟨kind, _, hkind⟩ := mem_filterMap.mp h
    unfold KindInfo.declaration? at hkind
    dsimp only at hkind
    split at hkind
    · cases hkind
    · cases hkind
      exact ids_braces_eq_nil _ (by simp [KindInfo.memberLine])

/-- The variables that are declared at the top of the program. -/
def shownAtTop (c : Compilation) : List BindingId :=
  c.rootDeclarations.filter fun v => !(c.binding v).isHidden

theorem yields_emitRootDeclarations : Yields p c (liftM emitRootDeclarations) fun lines =>
      List.Forall₂ (Shows p c) ((shownAtTop c).map .declares) (lineMarks lines) := by
  show Yields p c (get >>= fun d => liftM ((d.rootDeclarations.filter fun v =>
    !(d.binding v).isHidden).mapM emitDeclaration) >>= fun lines =>
      pure (separateFirst lines)) _
  refine .bind_get fun d hadv => ?_
  have hshown : (d.rootDeclarations.filter fun v => !(d.binding v).isHidden) = shownAtTop c := by
    unfold shownAtTop
    rw [hadv.rootDeclarations]
    simp only [hadv.binding_eq]
  rw [hshown, liftM_mapM]
  refine (Yields.mapM fun v _ => yields_emitDeclaration v).bind fun lines h => .pure ?_
  rw [lineMarks_separateFirst]
  exact shows_declarations h

/-- The declarations at the top and the code of all top blocks together introduce every variable
that has a place. -/
theorem introduced_of_tops (hc : Sited p L c) {tops : List BlockRef}
    (hparent : ∀ t ∈ tops, p.workspace.parent? t = none) {l : List Sign}
    (h : Accounts p c (Among p tops) (Among p tops) l) {v : BindingId}
    (hdeclared : (c.binding v).declared = none) (hshown : (c.binding v).isHidden = false) :
    Introduced c v ((shownAtTop c).map .declares ++ l) := by
  by_cases hm : Mentions c v l
  · obtain ⟨r, hr, hrl⟩ := hm
    rcases hc.somewhere v hdeclared (ne_nil_of_mem hr) with hroot | ⟨k, hk⟩
    · have hv : v ∈ shownAtTop c := mem_filter.mpr ⟨hroot, by rw [hshown]; rfl⟩
      exact introduced_of_declares hv h.balanced
    · -- the place is below the top block that the use is below
      obtain ⟨t, ht, htr⟩ := h.parts r hrl
      have htk : p.workspace.Under t k := by
        rcases (hc.below v k hk r hr).1.total htr with htk | hkt
        · exact htk
        · rcases Relation.ReflTransGen.cases_head hkt with rfl | ⟨y, hy, _⟩
          · exact .refl
          · rw [hparent t ht] at hy
            cases hy
      exact (h.introduced v k ⟨t, ht, htk⟩ hk).append_left (not_mentions_declares _)
  · exact .inl fun hboth => (mentions_append.mp hboth).elim (not_mentions_declares _) hm

/-- No variable is declared both at the top and in front of a block. -/
theorem declaredIn_nodup (hc : Sited p L c) {R S : BlockRef → Prop} {l : List Sign}
    (h : Accounts p c R S l) : (declaredIn ((shownAtTop c).map .declares ++ l)).Nodup := by
  rw [declaredIn_append, declaredIn_declares]
  refine nodup_append'.mpr ⟨hc.nodup_root.filter _, h.once, fun v hv hvl => ?_⟩
  obtain ⟨k, _, hk⟩ := h.sites v (mem_declaredIn.mp hvl)
  exact hc.apart v (mem_of_mem_filter hv) k hk

theorem sited_tracked (hws : p.workspace.Sound) : Sited p p.live p.tracked := by
  unfold tracked
  exact track_sited hws p.selectTops.disabled p.takenNames rfl

theorem idle_tracked (p : Program) : Idle p p.tracked := by
  unfold tracked
  exact idle_track p p.selectTops.disabled p.takenNames

/-- The stages of a compilation that succeeds. -/
theorem stages_of_compile {options : CompileOptions} {out : Output}
    (h : p.compile options = .ok out) : ∃ d code d', p.infer p.tracked = .ok () d ∧
      p.emitProgram (p.tops p.selectTops) d = .ok code d' ∧
      out = p.output options p.selectTops d' code := by
  have htracked : p.tracked = (p.track (p.start p.selectTops)).2 := by
    unfold tracked
    rfl
  unfold compile at h
  dsimp only at h
  rw [← htracked] at h
  cases hinfer : p.infer p.tracked with
  | error f d =>
    rw [hinfer] at h
    cases h
  | ok _ d =>
    rw [hinfer] at h
    dsimp only at h
    cases hemit : p.emitProgram (p.tops p.selectTops) d with
    | error f d' =>
      rw [hemit] at h
      cases h
    | ok code d' =>
      rw [hemit] at h
      cases h
      exact ⟨d, code, d', rfl, hemit, rfl⟩

section Compile

variable (hws : p.workspace.Sound) (hraw : ∀ b < p.workspace.size, p.kind b ≠ .rawStatement)
  (hplain : p.PlainValues)

include hws hraw hplain

theorem yields_emitTop {top : BlockRef × TopRole} (htop : top ∈ p.tops p.selectTops) :
    Yields p p.tracked (p.emitTop top) fun lines => Spelled p p.tracked
      (p.workspace.Under top.1) (p.workspace.Under top.1) (lineMarks lines) := by
  have hsited := sited_tracked hws
  have hlive : p.isLive p.tracked = p.live := (tracked_tracked hws).live_eq
  have hc : Sited p (p.isLive p.tracked) p.tracked := hlive ▸ hsited
  have he : Emits p p.tracked p.emitter := by
    refine emits_emitterFrom hws hc (fun b hb hb' n hn t ht => ?_) (fun b hb hb' => ?_) hraw _
    · exact hplain.plain hws hsited hb (hlive ▸ hb') hn ht
    · exact hplain.once b hb (hlive ▸ hb')
  obtain ⟨hmem, -⟩ := mem_tops_selectTops htop
  have hlt : top.1 < p.workspace.size := mem_range.mp (mem_filter.mp hmem).1
  have htoplive : p.isLive p.tracked top.1 = true := by
    rw [hlive]
    exact isLive_of_mem_tops hws htop rfl
  have hlines : Yields p p.tracked (p.emitTopLines top.1 top.2)
      (Lined p p.tracked (p.workspace.Under top.1) (p.workspace.Under top.1)) := by
    have hlink := (yields_emitLink he hlt htoplive).imp fun lines h => h.lined hws hc
    cases top.2 with
    | start => exact hlink
    | container => exact hlink
    | looseChain => exact yields_emitChain_some hws hc he hlt
  refine hlines.bind fun lines h => .pure ?_
  rw [lineMarks_separateFirst]
  exact h.spelled

theorem yields_emitProgram :
    Yields p p.tracked (p.emitProgram (p.tops p.selectTops)) fun code => ∃ lines signs,
      code = p.hostDeclarations ++ lines ∧
      List.Forall₂ (Shows p p.tracked) signs (lineMarks lines) ∧ (declaredIn signs).Nodup ∧
      ∀ v, (p.tracked.binding v).declared = none → (p.tracked.binding v).isHidden = false →
        Introduced p.tracked v signs := by
  have hc := sited_tracked hws
  have hparent : ∀ t ∈ (p.tops p.selectTops).map Prod.fst, p.workspace.parent? t = none := by
    intro t ht
    obtain ⟨top, htop, rfl⟩ := mem_map.mp ht
    simpa using (mem_filter.mp (mem_tops_selectTops htop).1).2
  unfold emitProgram
  refine yields_emitRootDeclarations.bind fun declarations hdeclarations => ?_
  refine (Yields.mapM fun top htop => yields_emitTop hws hraw hplain htop).bind
    fun liness h => .pure ?_
  obtain ⟨l, hl, haccounts⟩ := spelled_tops hc (forall₂_map_left_iff.mpr h) hparent
    (nodup_arrange _)
  refine ⟨declarations ++ liness.flatten, (shownAtTop p.tracked).map .declares ++ l,
    append_assoc _ _ _, ?_, declaredIn_nodup hc haccounts, ?_⟩
  · rw [lineMarks_append]
    exact rel_append hdeclarations hl
  · exact fun v hdeclared hshown => introduced_of_tops hc hparent haccounts hdeclared hshown

end Compile

/-- The output of a program with plain values and without code written by hand. Signs show what its
code was made from: they name the same blocks as its source map. A variable that is used in the code
without being declared by a use is declared there once, in front of all its uses, and the braces
that are open around the declaration are not closed before the last use. -/
theorem compile_declares {surface : Surface} {specs : List BlockSpec} {vars : List VariableModel}
    (hbuild : Workspace.build surface specs vars = .ok p.workspace)
    (hraw : ∀ b < p.workspace.size, p.kind b ≠ .rawStatement) (hplain : p.PlainValues)
    {options : CompileOptions} {out : Output} (hout : p.compile options = .ok out) :
    ∃ d code signs, out = p.output options p.selectTops d (p.hostDeclarations ++ code) ∧
      List.Forall₂ (Shows p p.tracked) signs (Code.lineMarks code) ∧
      out.map.map (·.id) = signs.filterMap (Sign.id? p) ∧ (declaredIn signs).Nodup ∧
      ∀ v, (p.tracked.binding v).declared = none → (p.tracked.binding v).isHidden = false →
        Mentions p.tracked v signs → ∃ before inner after,
          signs = before ++ .declares v :: (inner ++ after) ∧ Balanced inner ∧
          ¬ Mentions p.tracked v before ∧ ¬ Mentions p.tracked v after := by
  have hws := build_sound hbuild
  have hidle := idle_tracked p
  obtain ⟨c, code, d, hinfer, hemit, rfl⟩ := stages_of_compile hout
  obtain ⟨hc, hadv⟩ := (Ensures.of_ok (moves_infer hidle) hinfer).1 hidle.consistent
  obtain ⟨lines, signs, rfl, hsigns, honce, hintroduced⟩ :=
    (Ensures.of_ok (yields_emitProgram hws hraw hplain c hc hadv) hemit).2
  refine ⟨d, lines, signs, rfl, hsigns, ?_, honce, fun v hdeclared hshown hmentions => ?_⟩
  · show (Code.layOut _).map.map (·.id) = _
    rw [Code.ids_layOut, Code.lineMarks_append, filterMap_append, ids_hostDeclarations,
      nil_append, filterMap_of_shows hsigns]
  · exact (hintroduced v hdeclared hshown).resolve_left fun h => h hmentions

/-- A loop around a choice, which sets `x` either way. -/
def choosingBlocks : List BlockSpec :=
  [{ id := "loop", tag := "controls_repeat_ext",
     inputs := [("TIMES", .value, none), ("DO", .statement, some "choice")] },
   { id := "choice", tag := "controls_if",
     inputs := [("IF0", .value, none), ("DO0", .statement, some "first"),
       ("ELSE", .statement, some "second")] },
   { id := "first", tag := "variables_set", fields := [⟨"VAR", "x"⟩],
     inputs := [("VALUE", .value, none)] },
   { id := "second", tag := "variables_set", fields := [⟨"VAR", "x"⟩],
     inputs := [("VALUE", .value, none)] }]

def choosing : Program :=
  .ofBlocks choosingBlocks

/-- `x` is declared in the loop, in front of the choice. -/
theorem compile_declares_choice : choosing.PlainValues ∧
    (choosing.tracked.binding 1).references = [2, 3] ∧ choosing.tracked.outputName 1 = "x" ∧
    ∃ out, choosing.compile {} = .ok out ∧
      out.source = "for (let index = 0; index < 0; index++) \x7b\n    let x = 0;\n" ++
        "    if (false) \x7b\n        x = 0;\n    \x7d else \x7b\n        x = 0;\n" ++
        "    \x7d\n\x7d\n" ∧
      ∃ signs before inner after, out.map.map (·.id) = signs.filterMap (Sign.id? choosing) ∧
        signs = before ++ .declares 1 :: (inner ++ after) ∧ Balanced inner ∧
        ¬ Mentions choosing.tracked 1 before ∧ ¬ Mentions choosing.tracked 1 after := by
  have hbuild : build {} choosingBlocks [] = .ok choosing.workspace := by decide +kernel
  have hraw : ∀ b < choosing.workspace.size, choosing.kind b ≠ .rawStatement := by decide +kernel
  have hplain : choosing.PlainValues := by decide +kernel
  have hx : (choosing.tracked.binding 1).declared = none ∧
      (choosing.tracked.binding 1).isHidden = false ∧
      (choosing.tracked.binding 1).references = [2, 3] ∧ choosing.tracked.outputName 1 = "x" := by
    decide +kernel
  obtain ⟨hdeclared, hshown, hreferences, hname⟩ := hx
  have hresult : (choosing.compile {}).map (fun out => (out.source, out.map.map (·.id))) =
      .ok ("for (let index = 0; index < 0; index++) \x7b\n    let x = 0;\n" ++
        "    if (false) \x7b\n        x = 0;\n    \x7d else \x7b\n        x = 0;\n" ++
        "    \x7d\n\x7d\n",
        ["loop", "choice", "first", "second"]) := by decide +kernel
  refine ⟨hplain, hreferences, hname, ?_⟩
  cases hout : choosing.compile {} with
  | error f =>
    rw [hout] at hresult
    cases hresult
  | ok out =>
    rw [hout] at hresult
    obtain ⟨hsource, hmap⟩ := Prod.mk.inj (Except.ok.inj hresult)
    obtain ⟨_, _, signs, _, hsigns, hids, _, hall⟩ :=
      compile_declares hbuild hraw hplain hout
    have hfirst : "first" ∈ signs.filterMap (Sign.id? choosing) := by
      rw [← hids, hmap]
      decide
    obtain ⟨b, hb, hid, hmem⟩ := exists_block_of_id hsigns hfirst
    have heq : ∀ b < choosing.workspace.size, (choosing.block b).id = "first" → b = 2 := by
      decide +kernel
    have hmentions : Mentions choosing.tracked 1 signs :=
      ⟨2, by rw [hreferences]; exact mem_cons_self, heq b hb hid ▸ hmem⟩
    obtain ⟨before, inner, after, hsplit, hrest⟩ := hall 1 hdeclared hshown hmentions
    exact ⟨out, rfl, hsource, signs, before, inner, after, hids, hsplit, hrest⟩

/-- A host with a function that takes a number and a handler, and gives a number. -/
def callHost : Surface :=
  Surface.addSymbol {}
    { nameSpace := "control", name := "run", result := .number
      parameters := [{ name := "arg", type := .number }]
      handler := some [⟨"t", .number⟩], blockType := some "control_run" }

/-- `y` is set to a call that reads `x` and sets it in its handler. -/
def callBlocks : List BlockSpec :=
  [{ id := "set", tag := "variables_set", fields := [⟨"VAR", "y"⟩],
     inputs := [("VALUE", .value, some "call")] },
   { id := "call", tag := "control_run",
     inputs := [("arg", .value, some "get"), ("HANDLER", .statement, some "inner")] },
   { id := "get", tag := "variables_get", fields := [⟨"VAR", "x"⟩] },
   { id := "inner", tag := "variables_set", fields := [⟨"VAR", "x"⟩],
     inputs := [("VALUE", .value, none)] }]

def valueCall : Program where
  workspace :=
    match build callHost callBlocks [] with
    | .ok ws => ws
    | .error _ => {}
  surface := callHost

/-- The declaration of `x` belongs in front of the call, which is no statement, and is lost. -/
theorem compile_omits_declaration :
    Workspace.build callHost callBlocks [] = .ok valueCall.workspace ∧
    (∀ b < valueCall.workspace.size, valueCall.kind b ≠ .rawStatement) ∧ ¬ valueCall.PlainValues ∧
    (valueCall.tracked.binding 2).declared = none ∧ (valueCall.tracked.binding 2).isHidden = false ∧
    (valueCall.tracked.binding 2).references = [2, 3] ∧ valueCall.tracked.outputName 2 = "x" ∧
    valueCall.tracked.declarationsAt 1 = [2] ∧
    (valueCall.compile {}).map (fun out => (out.source, out.map.map (·.id))) =
      .ok ("let y = control.run(x, function (t) \x7b\n    x = 0;\n\x7d);\n",
        ["set", "call", "get", "inner"]) := by
  decide +kernel

end BlockProgram
