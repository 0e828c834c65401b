import BlockProgram.Proofs.Pairing.Compile
import BlockProgram.Proofs.Scope.Coverage
import BlockProgram.Proofs.Scope.Names
import BlockProgram.Proofs.Text.Spelling

/-!
# Variables of raw code

Raw code is copied as it stands, while the variables that it declares are named like all others. So
a block that reads such a variable writes another name than the code does if a variable around it
has that name already (`raw_variable_renamed`), and only then (`outputName_eq_name_iff`).
-/

namespace BlockProgram

open Compilation Program

variable {p : Program} {c c' : Compilation}

/-! ## Where the variables are -/

/-- Raw code has declared its variables in the scope that it is placed in, unless it has a scope of
its own. -/
def RawPlaced (p : Program) (c : Compilation) : Prop :=
  ∀ b s, c.blockScope.get? b = some s → p.kind b = .rawStatement → p.ownNames (p.block b) = [] →
    ∀ n ∈ rawNames (p.block b), ∃ v, (c.scope s).declared.get? n = some v

theorem walkInvariant_rawPlaced : WalkInvariant p fun d => Orderly p d ∧ RawPlaced p d := by
  refine walkInvariant_placed ?_ ?_ fun b c hstart _ hraw => ?_
  · intro c c' b s hg h hraw hown n hn
    obtain ⟨v, hv⟩ := h hraw hown n hn
    exact ⟨v, hg.declared s n v hv⟩
  · intro b s c d inner c' t _ henter hg hopened hb hraw hown n hn
    cases hopened with
    | new hnames _ _ _ _ => exact absurd hown hnames
    | same _ hscope =>
      rw [hscope, henter.blockScope_eq, Table.get?_insert_self] at hb
      cases hb
      cases henter with
      | uses _ hused _ _ _ =>
        have hkind : (p.block b).kind = .rawStatement := hraw
        simp [Block.usedName?, hkind] at hused
      | apart _ _ _ hnames =>
        obtain ⟨v, hv⟩ := hnames hraw n hn
        exact ⟨v, hg.declared s n v hv⟩
  · cases hraw.symm.trans hstart

/-- Scopes other than the root declare no less when variables have moved to their owners. -/
theorem declared_narrowAll (ht : ScopeTree c) (hd : DeclaredOnce c) {s : ScopeId} {n : String}
    (hs : s ≠ rootScope) (h : ∃ v, (c.scope s).declared.get? n = some v) :
    ∃ v, (c.narrowAll.scope s).declared.get? n = some v := by
  refine narrowAll_induction (J := fun d => ∃ v, (d.scope s).declared.get? n = some v) ?_ ht hd h
  intro d e hd htree _
  rcases narrow_cases d e with hsame | ⟨hroot, _, hmoved⟩
  · rwa [hsame]
  · rw [hmoved, get?_moveTo d _ _ (owner_lt htree _) hroot]
    split
    · exact ⟨_, rfl⟩
    · split
      · next hx => exact absurd hx.2 hs
      · exact hd

theorem rawPlaced_track {disabled : List BlockRef} {taken : List String} {b : BlockRef}
    {s : ScopeId} {n : String} (hb : (p.track (fresh disabled taken)).2.blockScope.get? b = some s)
    (hraw : p.kind b = .rawStatement) (hown : p.ownNames (p.block b) = []) (hs : s ≠ rootScope)
    (hn : n ∈ rawNames (p.block b)) :
    ∃ v, ((p.track (fresh disabled taken)).2.scope s).declared.get? n = some v := by
  have hwalk := visitAll_invariant walkInvariant_rawPlaced
    ⟨fresh_orderly disabled taken p, nofun⟩ (fresh_tree disabled taken).root_lt fun _ => rfl
  rw [track_eq] at hb ⊢
  generalize (p.visitAll (fresh disabled taken)).2 = d at *
  have hnotes : Notes d.narrowAll (p.markAll d.narrowAll).nameAll :=
    Relation.ReflTransGen.trans (notes_markAll _) (notes_nameAll _)
  rw [hnotes.same.2.1, (anchored_narrowAll hwalk.1.tree hwalk.1.once).1] at hb
  rw [hnotes.sameScopes.scope_eq]
  exact declared_narrowAll hwalk.1.tree hwalk.1.once hs (hwalk.2 b s hb hraw hown n hn)

/-! ## What they are called -/

/-- Below the root, the scope of raw code has the variables that the code declares. A variable whose
name is a legal one, neither reserved nor taken, is called by that name exactly if no other variable
of its scope or of a scope around it is. -/
theorem outputName_eq_name_iff (p : Program) (disabled : List BlockRef) (taken : List String) :
    let c := (p.track (.fresh disabled taken)).2
    (∀ b s, c.blockScope.get? b = some s → p.kind b = .rawStatement →
      p.ownNames (p.block b) = [] → s ≠ rootScope →
        ∀ n ∈ rawNames (p.block b), ∃ v, (c.scope s).declared.get? n = some v) ∧
    ∀ s n v, (c.scope s).declared.get? n = some v → Text.IsIdentifier n →
      n ∉ Text.reservedWords → n ∉ taken →
        (c.outputName v = n ↔ ∀ o w, Inside c o s → w ∈ (c.scope o).declared.values → w ≠ v →
          c.outputName w ≠ n) := by
  intro c
  obtain ⟨htree, hnames⟩ := namedBelow_track p disabled taken
  have honce := ((steps_track_fresh disabled taken p).orderly (fresh_orderly disabled taken p)).once
  refine ⟨fun b s hb hraw hown hs n hn => rawPlaced_track hb hraw hown hs hn, ?_⟩
  intro s n v hv hlegal hreserved htaken
  have hvalue : v ∈ (c.scope s).declared.values := ((honce.distinct s).mem_values_iff v).mpr ⟨n, hv⟩
  have hroot : ∀ {o w}, w ∈ (c.scope o).declared.values → Inside c rootScope o :=
    fun hw => htree.inside_root (scope_lt_of_mem_values hw)
  have hcalled : ∀ {o w}, w ∈ (c.scope o).declared.values →
      (c.binding w).outputName = some (c.outputName w) := by
    intro o w hw
    obtain ⟨name, hname, _⟩ := hnames.named w ⟨o, hroot hw, hw⟩
    unfold Compilation.outputName
    rw [hname]
    rfl
  constructor
  · intro hname o w ho hw hne heq
    apply hnames.apart o s w v (hroot hw) ho hw hvalue hne
    rw [hcalled hw, hcalled hvalue, hname, heq]
  · intro hfree
    -- the variable was offered its own name, so some variable has it
    have hown := hnames.own s v (hroot hvalue) hvalue
    rw [honce.name_eq s n v hv, hlegal.identifier_eq, List.mem_append] at hown
    obtain ⟨o, w, _, ho, hw, hname⟩ := hown.resolve_left fun h => h.elim hreserved htaken
    rw [hcalled hw] at hname
    by_contra hne
    refine hfree o w ho hw ?_ (Option.some.inj hname)
    rintro rfl
    exact hne (Option.some.inj hname)

/-- Raw code in a condition declares a variable with the name of one that is set before. -/
def rawBlocks : List BlockSpec :=
  [{ id := "set", tag := "variables_set", fields := [⟨"VAR", "x"⟩], next := some "if" },
   { id := "if", tag := "controls_if", inputs := [("DO0", .statement, some "raw")] },
   { id := "raw", tag := "typescript_statement"
     fields := [⟨"CODE", "let x = 1"⟩, ⟨"DECLARED_VARIABLES", "x"⟩] }]

theorem isIdentifier_x : Text.IsIdentifier "x" := by
  have hname : Text.identifier "x" = "x" := by decide +kernel
  exact hname ▸ Text.isIdentifier_identifier "x"

/-- The variable of the raw code cannot be called by its name. -/
theorem outputName_eq_name_iff_raw :
    (∃ v, (((ofBlocks rawBlocks).track (.fresh [] [])).2.scope 1).declared.get? "x" = some v) ∧
    ((ofBlocks rawBlocks).track (.fresh [] [])).2.outputName 1 ≠ "x" := by
  obtain ⟨hplaced, hnames⟩ := outputName_eq_name_iff (ofBlocks rawBlocks) [] []
  refine ⟨hplaced 2 1 ?_ ?_ ?_ ?_ "x" ?_, fun h => ?_⟩
  rotate_right
  · refine (hnames 1 "x" 1 ?_ isIdentifier_x ?_ ?_).mp h 0 0 (.single ?_) ?_ ?_ ?_
    all_goals decide +kernel
  all_goals decide +kernel

/-- The code says `x`, and blocks that read the variable say `x2`. -/
theorem raw_variable_renamed : let p := ofBlocks rawBlocks
    let c := (p.track (.fresh [] [])).2
    p.kind 2 = .rawStatement ∧ rawNames (p.block 2) = ["x"] ∧ Text.IsIdentifier "x" ∧
      "x" ∉ Text.reservedWords ∧ c.blockScope.get? 2 = some 1 ∧
      (c.scope 1).declared.get? "x" = some 1 ∧ c.outputName 1 = "x2" := by
  refine ⟨?_, ?_, isIdentifier_x, ?_, ?_, ?_, ?_⟩
  all_goals decide +kernel

end BlockProgram
