import BlockProgram.Proofs.Agreement.Tracking

/-!
# The same output

Programs that agree where they are enabled compile to the same output, or end in the same fault
(`Agrees.compile_eq`). What is reached is what is enabled; what is asked for are also the lists that
generic results are read from.
-/

namespace BlockProgram

open Compilation List Workspace Program

/-- Tracking leaves alone what typing notes. -/
structure Untyped (c : Compilation) : Prop where
  placeholders : c.placeholders = #[]
  blockNodes : c.blockNodes = {}
  functionNodes : c.functionNodes = {}
  diagnostics : c.diagnostics = []
  inProgress : c.inProgress = []

theorem untyped_tracked (p : Program) : Untyped p.tracked := by
  unfold tracked
  refine (steps_track_fresh p.selectTops.disabled p.takenNames p).invariant (J := Untyped) ?_
    ⟨rfl, rfl, rfl, rfl, rfl⟩
  intro c c' hstep hc
  cases hstep <;> exact { hc with }

variable {e : BlockRef → BlockRef} {p q : Program} {off : List BlockRef} {w : ScopeMap}
  {c d : Compilation} {b : BlockRef}

theorem isRead_receiver (hb : p.IsRead b) {t : BlockRef} (ht : p.receiver? b = some t) :
    p.IsRead t := by
  obtain ⟨r, hr, henabled, hreads⟩ := hb
  exact ⟨r, hr, henabled, hreads.tail ht⟩

theorem IsRead.lt (hws : p.workspace.Sound) (hb : p.IsRead b) : b < p.workspace.size := by
  obtain ⟨r, hr, _, hreads⟩ := hb
  rcases Relation.ReflTransGen.cases_tail hreads with rfl | ⟨x, _, hx⟩
  · exact hr
  · obtain ⟨_, i, hi, hit⟩ := Pairing.exists_input_of_receiver hx
    exact hws.child_lt x b (Pairing.mem_children_of_input hi hit)

/-- Two programs that agree where they are enabled, side by side. -/
def sideBySide (e : BlockRef → BlockRef) (p q : Program) (c d : Compilation) : Pairing where
  left := p
  right := q
  embed := e
  leftScopes := c
  rightScopes := d
  Reached b := b < q.workspace.size ∧ q.workspace.isEnabled b = true
  Asked := q.IsRead
  MayFail := True

namespace Agrees

variable (h : Agrees e p q) (hS : Parallel e q off w c d)
include h hS

omit h in
theorem disabled_eq : c.disabled = d.disabled.map e := by
  rw [hS.leftOff, hS.rightOff]

theorem sameChain {first first' : Option BlockRef} (hchain : SameEnabled e p q first first') :
    (sideBySide e p q c d).SameChain first first' :=
  h.filter_live_of_enabled (disabled_eq hS) hchain

theorem matchesBlock (hb : AgreesBlock e p q b) : (sideBySide e p q c d).Matches b := by
  refine ⟨hb.tag, hb.kind, hb.fields, hb.read Block.mutation fun _ => rfl,
    hb.read Block.output fun _ => rfl, hb.read Block.signature fun _ => rfl, ?_,
    fun hkind => h.sameChain hS (hb.start hkind)⟩
  exact hb.inputs.imp fun i j hij => ⟨hij.name, hij.kind, hij.target, h.sameChain hS hij.chain⟩

theorem returnsOf_eq {f : BlockRef} (hf : f < q.workspace.size) :
    p.returnsOf c (e f) = (q.returnsOf d f).map e := by
  have hsplit : ∀ (p : Program) c d, p.returnsOf c d =
      ((p.workspace.descendants d).filter (p.isLive c)).filter (p.kind · == .functionReturn) := by
    intro p c d
    rw [filter_filter]
    rfl
  rw [hsplit, hsplit, h.filter_live_of_enabled (disabled_eq hS) (h.descendants f hf),
    filter_map]
  refine congrArg _ (filter_congr fun b hb => ?_)
  obtain ⟨hbelow, hlive⟩ := mem_filter.mp hb
  have hlt := ((mem_descendants h.right_sound hf).mp hbelow).lt h.right_sound hf
  have hblock := h.blockAt hlt ((isLive_iff h.right_sound).mp hlive).1
  show (p.kind (e b) == _) = _
  rw [hblock.kind]

omit h hS in
theorem mem_returnsOf (hws : q.workspace.Sound) {name : String} {f r : BlockRef}
    (hf : q.workspace.functionDefinition? name = some f) (hr : r ∈ q.returnsOf d f) :
    r < q.workspace.size ∧ q.workspace.isEnabled r = true ∧ q.kind r = .functionReturn := by
  have hflt := mem_range.mp (mem_of_find?_eq_some hf)
  obtain ⟨hbelow, hprop⟩ := mem_filter.mp hr
  rw [Bool.and_eq_true] at hprop
  have hlt := ((mem_descendants hws hflt).mp hbelow).lt hws hflt
  exact ⟨hlt, ((isLive_iff hws).mp hprop.2).1, eq_of_beq hprop.1⟩

omit hS in
theorem closedReads : (sideBySide e p q c d).ClosedReads := by
  have hlive : ∀ b, (sideBySide e p q c d).rightLive b = true → q.workspace.isEnabled b = true :=
    fun b hb => ((isLive_iff h.right_sound).mp hb).1
  have htarget : ∀ b i t, i ∈ (q.block b).inputs → i.target = some t → t < q.workspace.size :=
    fun b i t hi ht => h.right_sound.child_lt b t (Pairing.mem_children_of_input hi ht)
  refine ⟨?_, fun b hb => ⟨b, hb.1, hb.2, .refl⟩, fun b t hb ht => isRead_receiver hb ht,
    ?_, ?_, ?_,
    ?_⟩
  · intro b hb
    have hlt := IsRead.lt h.right_sound hb
    exact ⟨(h.lt b).mpr hlt, hlt⟩
  · intro b _ _ i hi t hit ht
    exact ⟨t, htarget b i t (mem_of_mem_filter hi) hit, hlive t ht, .refl⟩
  · exact fun b _ i hi _ t hit ht => ⟨htarget b i t hi hit, hlive t ht⟩
  · intro b _ i hi _ x hx ht
    refine ⟨?_, hlive x ht⟩
    have hx : x ∈ q.workspace.chain i.target := hx
    cases hit : i.target with
    | none =>
      rw [hit, chain_none] at hx
      cases hx
    | some t =>
      rw [hit] at hx
      have hlt := htarget b i t hi hit
      exact (under_of_mem_chain h.right_sound hlt hx).lt h.right_sound hlt
  · intro name f hf r hr
    obtain ⟨hlt, henabled, _⟩ := mem_returnsOf h.right_sound hf hr
    exact ⟨hlt, henabled⟩

theorem matchesScopes : (sideBySide e p q c d).MatchesScopes := by
  refine ⟨?_, ?_, fun _ _ _ _ => .inl trivial, fun _ _ _ _ => .inl trivial,
    fun _ _ _ => .inl trivial, hS.binding_eq, hS.bindings_size, fun b _ => hS.declarations b,
    hS.rootDeclarations, ?_⟩
  · intro b _
    show (c.blockScope.get? (e b)).isSome = (d.blockScope.get? b).isSome
    rw [hS.blockScope, Option.isSome_map]
  · intro b n _
    show (c.blockScope.get? (e b)).bind _ = (d.blockScope.get? b).bind _
    rw [hS.blockScope]
    cases hb : d.blockScope.get? b with
    | none => rfl
    | some s => exact hS.find?_eq (hS.placed_lt b s hb) n
  · intro name a
    show ((p.functionScope? c name).bind _) = (q.functionScope? d name).bind _
    unfold functionScope?
    rw [h.definition]
    cases hf : q.workspace.functionDefinition? name with
    | none => rfl
    | some f =>
      have hkind : q.kind f = .functionDefinition := by
        have hprop := find?_some hf
        rw [Bool.and_eq_true] at hprop
        exact eq_of_beq hprop.1
      show ((c.blockScope.get? (e f)).bind fun s =>
          if (c.scope s).first = some (e f) then some s else none).bind _ =
        ((d.blockScope.get? f).bind fun s =>
          if (d.scope s).first = some f then some s else none).bind _
      rw [hS.blockScope]
      cases hs : d.blockScope.get? f with
      | none => rfl
      | some s =>
        have halike := hS.scopes s (hS.placed_lt f s hs)
        rw [Option.map_some, Option.bind_some, Option.bind_some]
        simp only [halike.first f hkind]
        split
        · show (c.scope (w.image s)).declared.get? a = (d.scope s).declared.get? a
          rw [halike.declared]
        · rfl

theorem faithful : (sideBySide e p q c d).Faithful where
  left_sound := h.left_sound
  right_sound := h.right_sound
  surface := h.surface
  vars := h.vars
  injective := h.injective
  live := h.isLive (disabled_eq hS)
  ids := h.ids
  asked b hb := h.matchesBlock hS (h.block b hb)
  definition := h.definition
  returns _ _ hf := h.returnsOf_eq hS (mem_range.mp (mem_of_find?_eq_some hf))
  ownCall name _ hf r hr := by
    obtain ⟨hlt, henabled, hkind⟩ := mem_returnsOf h.right_sound hf hr
    exact h.ownCall r hlt henabled hkind name
  typed b name hb := h.typed b hb.1 hb.2 name
  reads := h.closedReads
  scopes := h.matchesScopes hS

omit h in
/-- The states in which typing starts are abreast. -/
theorem abreast (hleft : Untyped c) (hright : Untyped d) :
    (sideBySide e p q c d).Abreast [] c d := by
  refine ⟨⟨rfl, rfl, rfl, rfl, rfl, rfl⟩, ⟨rfl, rfl, rfl, rfl, rfl, rfl⟩, hS.graph, ?_, ?_, ?_, ?_,
    hleft.inProgress, hright.inProgress⟩
  · rw [hleft.placeholders, hright.placeholders, Array.map_empty]
  · intro b
    rw [hleft.blockNodes, hright.blockNodes]
    rfl
  · rw [hleft.functionNodes, hright.functionNodes]
  · rw [hleft.diagnostics, hright.diagnostics]

theorem filter_checked : p.workspace.refs.filter (p.isChecked c) =
    (q.workspace.refs.filter (q.isChecked d)).map e := by
  refine h.filter_refs ?_ ?_
  · intro b _
    show (p.isLive c (e b) && (c.blockScope.get? (e b)).isSome) =
      (q.isLive d b && (d.blockScope.get? b).isSome)
    rw [h.isLive (disabled_eq hS), hS.blockScope, Option.isSome_map]
  · intro x hx hchecked
    unfold isChecked at hchecked
    rw [Bool.and_eq_true] at hchecked
    exact h.covers_live hx hchecked.1

omit hS in
theorem startsAlike : (sideBySide e p q p.tracked q.tracked).StartsAlike := by
  obtain ⟨w, hS⟩ := parallel_track h
  have hlive : ∀ b, q.isLive q.tracked b = true → q.workspace.isEnabled b = true :=
    fun b hb => ((isLive_iff h.right_sound).mp hb).1
  refine ⟨?_, ?_, abreast hS (untyped_tracked p) (untyped_tracked q),
    h.filter_live (disabled_eq hS), ?_, h.filter_checked hS, ?_, h.tops_eq, ?_, ?_⟩
  · show p.tracked = _
    unfold tracked
    rfl
  · show q.tracked = _
    unfold tracked
    rfl
  · intro b hb hlv
    have hblock := h.blockAt (mem_range.mp hb) (hlive b hlv)
    exact ⟨hblock.read Block.shadow fun _ => rfl, hblock.tag⟩
  · intro b hb hchecked
    have hchecked : (q.isLive q.tracked b && q.tracked.blockScope.contains b) = true := hchecked
    rw [Bool.and_eq_true] at hchecked
    exact ⟨mem_range.mp hb, hlive b hchecked.1⟩
  · rintro ⟨b, role⟩ htop
    obtain ⟨hmem, henabled, _, _⟩ := mem_tops_selectTops htop
    have hlt := mem_range.mp (mem_of_mem_filter hmem)
    cases role with
    | start => exact ⟨hlt, henabled⟩
    | container => exact ⟨hlt, henabled⟩
    | looseChain =>
      refine ⟨h.sameChain hS (h.chain b hlt henabled), ?_⟩
      intro x hx hlv
      exact ⟨(under_of_mem_chain h.right_sound hlt hx).lt h.right_sound hlt, hlive x hlv⟩
  · show p.selectTops.disabled = q.selectTops.disabled.map e
    rw [h.selectTops_eq]
    rfl

omit hS in
/-- Programs that agree where they are enabled have the same output. -/
theorem compile_eq (options : CompileOptions) : p.compile options = q.compile options := by
  obtain ⟨w, hS⟩ := parallel_track h
  exact Pairing.compile_eq (h.faithful hS) h.startsAlike options

end Agrees

end BlockProgram
