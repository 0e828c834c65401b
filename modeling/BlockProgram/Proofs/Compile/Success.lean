import BlockProgram.Proofs.Compile.Selection
import BlockProgram.Proofs.Pairing.Compile
import BlockProgram.Proofs.Scope.Coverage
import BlockProgram.Proofs.Workspace.HostKind

/-!
# Admissible programs compile

A program whose blocks have the fields that they need, and whose connections are those that an
editor allows (`Admissible`), compiles to an output, whatever holes, disabled blocks, type conflicts
and unknown block types it has (`compile_succeeds`). There is one exception. The type of a generic
result is looked for in the list that it is read from, also where that list is not live; if the list
is a variable, it was never visited (`compile_fails_dead_receiver`).

The program is paired with itself, and no fault is allowed. The blocks that are reached are those
that are live and placed (`Ready`); the blocks whose type is asked for may also be dead lists that
no variable is read from.
-/

namespace BlockProgram

open Workspace Program List

namespace Table

variable {κ ν : Type} [DecidableEq κ]

theorem mem_keys_ofList {l : List (κ × ν)} {e : κ × ν} (he : e ∈ l) :
    e.1 ∈ (ofList l).entries.map Prod.fst := by
  have hfold : ∀ (l : List (κ × ν)) (t : Table κ ν) k,
      k ∈ t.entries.map Prod.fst ∨ k ∈ l.map Prod.fst →
        k ∈ (l.foldl (fun t e => t.insert e.1 e.2) t).entries.map Prod.fst := by
    intro l
    induction l with
    | nil =>
      rintro t k (h | h)
      · exact h
      · cases h
    | cons x r ih =>
      intro t k h
      refine ih _ k ?_
      rw [map_cons, mem_cons, ← or_assoc] at h
      refine h.imp_left fun h => ?_
      exact (mem_insertEntry_keys x.1 x.2 t.entries k).mpr h.symm
  exact hfold l empty e.1 (.inr (mem_map_of_mem he))

end Table

namespace Program

/-- The kinds of blocks that are about a variable of their own. -/
def variableKinds : List BlockKind :=
  [.variableGet, .variableSet, .variableChange, .forRange, .forOf]

/-- Live blocks have the fields that they need. Function definitions have a name and stand alone at
the top, and nothing follows a block that is plugged in as a value. -/
structure Admissible (p : Program) : Prop where
  variableField : ∀ b < p.workspace.size, p.live b = true → p.kind b ∈ variableKinds →
    ((p.block b).field? "VAR").isSome
  argumentField : ∀ b < p.workspace.size, p.live b = true → p.kind b = .argumentReporter →
    ((p.block b).field? "VALUE").isSome
  functionField : ∀ b < p.workspace.size, p.kind b = .functionDefinition →
    ((p.block b).field? "function_name").isSome
  functionTop : ∀ b < p.workspace.size, p.kind b = .functionDefinition →
    p.workspace.parent? b = none
  functionLast : ∀ b < p.workspace.size, p.kind b = .functionDefinition → (p.block b).next = none
  valueLast : ∀ b < p.workspace.size, ∀ i ∈ (p.block b).inputs, i.kind = .value →
    ∀ t ∈ i.target, (p.block t).next = none

instance decidableAdmissible (p : Program) : Decidable p.Admissible :=
  decidable_of_iff (_ ∧ _ ∧ _ ∧ _ ∧ _ ∧ _)
    ⟨fun ⟨h₁, h₂, h₃, h₄, h₅, h₆⟩ => ⟨h₁, h₂, h₃, h₄, h₅, h₆⟩,
      fun ⟨h₁, h₂, h₃, h₄, h₅, h₆⟩ => ⟨h₁, h₂, h₃, h₄, h₅, h₆⟩⟩

/-- The variables that a live block reads a generic result from are live. -/
def LiveReceivers (p : Program) : Prop :=
  ∀ b < p.workspace.size, p.live b = true → ∀ v, p.ReadsFrom b v →
    (p.block v).isReader = true → p.live v = true

end Program

variable {p : Program} {b : BlockRef}

/-! ## What is reached -/

structure Ready (p : Program) (b : BlockRef) : Prop where
  lt : b < p.workspace.size
  live : p.live b = true
  placed : p.tracked.blockScope.contains b = true

/-- A block whose type may be asked for: one that is ready, or a dead one that reads no variable. -/
def Askable (p : Program) (b : BlockRef) : Prop :=
  Ready p b ∨ b < p.workspace.size ∧ p.live b = false ∧
    ∀ v, p.ReadsFrom b v → (p.block v).isReader = false

theorem tracked_tracked (hws : p.workspace.Sound) : Tracked p p.live p.tracked := by
  unfold tracked
  exact track_tracked hws p.selectTops.disabled p.takenNames rfl

section Sound

variable (hws : p.workspace.Sound)
include hws

theorem Ready.operand (hb : Ready p b) {i : Input} (hi : i ∈ (p.block b).inputs)
    (hkind : p.kind b ≠ .onStart) {t : BlockRef} (ht : i.target = some t)
    (hlive : p.live t = true) : Ready p t := by
  have hchild : t ∈ p.workspace.children b :=
    mem_append_left _ (mem_targets hi ht)
  have hlt := hws.child_lt b t hchild
  refine ⟨hlt, hlive, ?_⟩
  exact (tracked_tracked hws).covered b hb.placed i hi t ht t (mem_chain_self hws hlt)
    (.inr ⟨rfl, fun htop => hkind htop.1⟩) hlive

/-- The live statements in an input of a ready block are ready. -/
theorem Ready.chain (hadm : p.Admissible) (hb : Ready p b) {i : Input}
    (hi : i ∈ (p.block b).inputs) (hkind : i.kind = .statement ∨ p.kind b ≠ .onStart)
    {x : BlockRef} (hx : x ∈ p.workspace.chain i.target) (hlive : p.live x = true) : Ready p x := by
  cases hit : i.target with
  | none =>
    rw [hit, chain_none] at hx
    cases hx
  | some t =>
    rw [hit] at hx
    have hchild : t ∈ p.workspace.children b :=
      mem_append_left _ (mem_targets hi hit)
    have hlt := hws.child_lt b t hchild
    refine ⟨(under_of_mem_chain hws hlt hx).lt hws hlt, hlive, ?_⟩
    refine (tracked_tracked hws).covered b hb.placed i hi t hit x hx ?_ hlive
    cases hikind : i.kind with
    | statement => exact .inl rfl
    | value =>
      have hne := hkind.resolve_left (by rw [hikind]; exact InputKind.noConfusion)
      have hnext := hadm.valueLast b hb.lt i hi hikind t hit
      exact .inr ⟨eq_of_mem_chain_last hws hlt hnext hx, fun htop => hne htop.1⟩

omit hws in
/-- It is enough that no variable is dead where a generic result is read from it directly. -/
theorem liveReceivers_of_receiver (h : ∀ b < p.workspace.size, ∀ t ∈ p.receiver? b,
    (p.block t).isReader = true → p.live t = true) : p.LiveReceivers := by
  intro b _ hlive v hv hreader
  rcases Relation.ReflTransGen.cases_tail hv with rfl | ⟨x, _, hxv⟩
  · exact hlive
  · obtain ⟨_, i, hi, hit⟩ := Pairing.exists_input_of_receiver hxv
    have hchild : v ∈ p.workspace.children x :=
      mem_append_left _ (mem_targets hi hit)
    exact h x (lt_of_child hchild) v hxv hreader

theorem live_of_receiver {c : Compilation} {t : BlockRef} (h : p.receiver? b = some t)
    (hlive : p.isLive c t = true) : p.isLive c b = true := by
  obtain ⟨_, i, hi, hit⟩ := Pairing.exists_input_of_receiver h
  have hchild : t ∈ p.workspace.children b :=
    mem_append_left _ (mem_targets hi hit)
  exact isLive_of_mem_chain hws hi hit (mem_chain_self hws (hws.child_lt b t hchild)) hlive

theorem live_of_readsFrom {v : BlockRef} (h : p.ReadsFrom b v) (hlive : p.live v = true) :
    p.live b = true := by
  induction h using Relation.ReflTransGen.head_induction_on with
  | refl => exact hlive
  | head hreceiver _ ih => exact live_of_receiver hws hreceiver ih

theorem Askable.receiver (hreceivers : p.LiveReceivers) (hb : Askable p b) {t : BlockRef}
    (ht : p.receiver? b = some t) : Askable p t := by
  obtain ⟨hkind, i, hi, hit⟩ := Pairing.exists_input_of_receiver ht
  have hlt := hws.child_lt b t (mem_append_left _ (mem_targets hi hit))
  rcases hb with hready | ⟨_, hdead, hreads⟩
  · cases hlive : p.live t with
    | true => exact .inl (hready.operand hws hi hkind hit hlive)
    | false =>
      refine .inr ⟨hlt, hlive, ?_⟩
      intro v hv
      rw [Bool.eq_false_iff]
      intro hreader
      have hlivev := hreceivers b hready.lt hready.live v (.head ht hv) hreader
      rw [live_of_readsFrom hws hv hlivev] at hlive
      cases hlive
  · refine .inr ⟨hlt, ?_, fun v hv => hreads v (.head ht hv)⟩
    rw [Bool.eq_false_iff]
    intro hlive
    have hliveb : p.live b = true := live_of_receiver hws ht hlive
    rw [hdead] at hliveb
    cases hliveb

/-- What is live below a definition was visited. -/
theorem placed_of_under (hadm : p.Admissible) {d x : BlockRef} (hd : d < p.workspace.size)
    (hkind : p.kind d = .functionDefinition) (hlived : p.live d = true)
    (hx : p.workspace.Under d x) (hlive : p.live x = true) :
    p.tracked.blockScope.contains x = true := by
  have htracked := tracked_tracked hws
  have hcontainer : p.isContainer d = true := by
    unfold isContainer
    rw [hkind]
  induction hh : p.workspace.height x using Nat.strongRecOn generalizing x with
  | ind h ih =>
    by_cases hne : x = d
    · subst hne
      have htop : x ∈ p.workspace.topBlocks := by
        refine mem_filter.mpr ⟨mem_range.mpr hd, ?_⟩
        rw [hadm.functionTop x hd hkind]
        rfl
      exact (htracked.tops x htop hlive).self (.inr hcontainer)
    · obtain ⟨o, ho, i, hi, t, hit, hxt⟩ :=
        exists_owner hws (hadm.functionLast d hd hkind) hx hne
      have htarget := mem_targets hi hit
      have hchild : t ∈ p.workspace.children o := mem_append_left _ htarget
      have hlt := height_lt_of_mem_chain hws htarget hxt
      have hplaced := ih _ (hh ▸ hlt) ho (isLive_of_mem_chain hws hi hit hxt hlive) rfl
      refine htracked.covered o hplaced i hi t hit x hxt ?_ hlive
      cases hikind : i.kind with
      | statement => exact .inl rfl
      | value =>
        refine .inr ⟨?_, ?_⟩
        · have hnext := hadm.valueLast o (lt_of_child hchild) i hi hikind t hit
          exact eq_of_mem_chain_last hws (hws.child_lt o t hchild) hnext hxt
        · -- a start block that is no definition has a parent below the definition
          rintro ⟨hstart, hparent⟩
          rcases Relation.ReflTransGen.cases_head ho with rfl | ⟨y, hy, _⟩
          · rw [hkind] at hstart
            cases hstart
          · rw [hparent] at hy
            cases hy

theorem ready_of_return (hadm : p.Admissible) {name : String} {d r : BlockRef}
    (hd : p.workspace.functionDefinition? name = some d) (hr : r ∈ p.returnsOf p.tracked d) :
    Ready p r := by
  have hdlt := mem_range.mp (mem_of_find?_eq_some hd)
  have hkind : p.kind d = .functionDefinition := by
    have hprop := find?_some hd
    rw [Bool.and_eq_true] at hprop
    exact eq_of_beq hprop.1
  obtain ⟨hmem, hprop⟩ := mem_filter.mp hr
  rw [Bool.and_eq_true, (tracked_tracked hws).live_eq] at hprop
  have hunder := (mem_descendants hws hdlt).mp hmem
  have hlived := isLive_of_under hws (hadm.functionLast d hdlt hkind) hunder hprop.2
  exact ⟨hunder.lt hws hdlt, hprop.2, placed_of_under hws hadm hdlt hkind hlived hunder hprop.2⟩

end Sound

/-! ## Names -/

theorem getD_mem_toList {o : Option String} (h : o.isSome) : o.getD "" ∈ o.toList := by
  obtain ⟨x, rfl⟩ := Option.isSome_iff_exists.mp h
  exact .head _

theorem mem_mutationNames {block : Block} {n : String} (hn : n ∈ block.patternNames) :
    n ∈ mutationNames block := by
  unfold Block.patternNames at hn
  split at hn
  · next properties hmutation =>
    obtain ⟨e, he, rfl⟩ := mem_map.mp hn
    unfold mutationNames
    rw [hmutation]
    exact Table.mem_keys_ofList he
  · cases hn

/-- The names that a live block looks up are those that tracking finds for it. -/
theorem mem_namesAt_of_lookup (hadm : p.Admissible) (hb : b < p.workspace.size)
    (hlive : p.live b = true) {kind : BlockKind} (hkind : (p.block b).kind = kind) {n : String}
    (hn : n ∈ p.lookups (p.block b) kind) : kind ≠ .onStart ∧ n ∈ p.namesAt b := by
  have hfield : kind ∈ variableKinds → (p.block b).variableField?.isSome := by
    rw [← hkind]
    exact hadm.variableField b hb hlive
  have hused : ∀ o, (p.block b).usedName? = o → o.isSome → n ∈ [o.getD ""] → n ∈ p.namesAt b := by
    rintro _ rfl hsome hn
    rw [mem_singleton.mp hn]
    exact mem_append_left _ (getD_mem_toList hsome)
  have hdeclared : ∀ l, p.kindNames (p.block b) = l → n ∈ l → n ∈ p.namesAt b := by
    rintro _ rfl hn
    exact mem_append_right _ (mem_append_left _ hn)
  unfold Block.usedName? at hused
  unfold kindNames at hdeclared
  rw [hkind] at hused hdeclared
  unfold lookups at hn
  split at hn
  iterate 3 exact ⟨BlockKind.noConfusion, hused _ rfl (hfield (by decide)) hn⟩
  iterate 2
    refine ⟨BlockKind.noConfusion, hdeclared _ rfl ?_⟩
    rw [mem_singleton.mp hn]
    exact getD_mem_toList (hfield (by decide))
  · exact ⟨BlockKind.noConfusion, hused _ rfl (hadm.argumentField b hb hlive hkind) hn⟩
  iterate 2 exact ⟨BlockKind.noConfusion, hdeclared _ rfl hn⟩
  · refine ⟨BlockKind.noConfusion, ?_⟩
    rcases mem_append.mp hn with hn | hn
    · exact hdeclared _ rfl hn
    · exact mem_append_right _ (mem_append_right _ (mem_mutationNames hn))
  · cases hn

/-! ## The program beside itself -/

/-- A program paired with itself, where no step may fail. -/
def Program.beside (p : Program) : Pairing where
  left := p
  right := p
  embed := id
  leftScopes := p.tracked
  rightScopes := p.tracked
  Reached := Ready p
  Asked := Askable p
  MayFail := False

theorem matches_beside (b : BlockRef) : p.beside.Matches b := by
  have hchain : ∀ first, p.beside.SameChain first first := fun first => (map_id _).symm
  refine ⟨rfl, rfl, rfl, rfl, rfl, rfl, ?_, fun _ => hchain _⟩
  refine forall₂_same.mpr fun i _ => ⟨rfl, rfl, fun _ => ?_, hchain _⟩
  exact (congrFun Option.map_id i.target).symm

theorem rightLive_beside (hws : p.workspace.Sound) : p.beside.rightLive = p.live := by
  funext b
  show p.isLive p.tracked b = p.live b
  rw [(tracked_tracked hws).live_eq]

theorem faithful_beside (hws : p.workspace.Sound) (hadm : p.Admissible)
    (hreceivers : p.LiveReceivers)
    (hsymbols : ∀ b < p.workspace.size, ∀ name, p.kind b = .hostCall name →
      (p.surface.symbol? name).isSome) : p.beside.Faithful where
  left_sound := hws
  right_sound := hws
  surface := rfl
  vars := rfl
  injective := Function.injective_id
  live _ := rfl
  ids _ := rfl
  asked b _ := matches_beside b
  definition name := (congrFun Option.map_id _).symm
  returns _ _ _ := (map_id _).symm
  ownCall _ _ _ _ _ := rfl
  typed _ _ _ _ _ _ := rfl
  reads := by
    have hlive := rightLive_beside hws
    refine ⟨?_, fun _ hb => .inl hb, ?_, ?_, ?_, ?_, ?_⟩
    · rintro b (hb | ⟨hb, _⟩)
      · exact ⟨hb.lt, hb.lt⟩
      · exact ⟨hb, hb⟩
    · exact fun b t hb ht => hb.receiver hws hreceivers ht
    · intro b hb hkind i hi t hit ht
      rw [hlive] at ht
      have hi := mem_of_mem_filter hi
      have hne : p.kind b ≠ .onStart := by
        rw [show p.kind b = .listCreate from hkind]
        exact BlockKind.noConfusion
      rcases hb with hready | ⟨_, hdead, _⟩
      · exact .inl (hready.operand hws hi hne hit ht)
      · have hlt := hws.child_lt b t (mem_append_left _ (mem_targets hi hit))
        have hliveb : p.live b = true := isLive_of_mem_chain hws hi hit (mem_chain_self hws hlt) ht
        rw [hdead] at hliveb
        cases hliveb
    · intro b hb i hi hname t hit ht
      rw [hlive] at ht
      refine Ready.operand hws hb hi ?_ hit ht
      intro hstart
      have hnone : p.operands (p.block b) = [] := operands_onStart hstart
      rw [show p.beside.right.operands (p.beside.right.block b) = [] from hnone] at hname
      cases hname
    · intro b hb i hi hkind x hx ht
      rw [hlive] at ht
      exact Ready.chain hws hadm hb hi hkind hx ht
    · exact fun name d hd r hr => ready_of_return hws hadm hd hr
  scopes := by
    have hfinds : ∀ b, Ready p b → ∀ n ∈ p.lookups (p.block b) (p.kind b),
        ∃ v, p.tracked.variableAt? b n = some v := by
      intro b hb n hn
      obtain ⟨hkind, hmem⟩ := mem_namesAt_of_lookup hadm hb.lt hb.live rfl hn
      exact (tracked_tracked hws).finds b hb.placed hkind n hmem
    refine ⟨fun _ _ => rfl, fun _ _ _ => rfl, ?_, ?_, ?_, ?_, rfl, fun _ _ => rfl, rfl,
      fun _ _ => rfl⟩
    · rintro b (hb | ⟨hb | ⟨_, _, hreads⟩, hreader⟩) n hn
      · exact .inr (hfinds b hb n hn)
      · exact .inr (hfinds b hb n hn)
      · have hno := hreads b .refl
        rw [show (p.block b).isReader = true from hreader] at hno
        cases hno
    · exact fun b name hb hkind => .inr (hsymbols b hb.lt name hkind)
    · intro b hb hkind
      refine .inr ?_
      have hfield := hadm.functionField b hb.lt hkind
      show (p.block b).functionName?.isSome
      unfold Block.functionName?
      split
      · rfl
      · exact hfield
    · intro v
      show p.tracked.binding v = (p.tracked.binding v).rename id
      unfold Binding.rename
      rw [Option.map_id, map_id]
      rfl

/-! ## The result -/

theorem inProgress_tracked : p.tracked.inProgress = [] := by
  unfold tracked
  exact (steps_track_fresh p.selectTops.disabled p.takenNames p).inProgress_eq

theorem startsAlike_beside (hws : p.workspace.Sound) : p.beside.StartsAlike := by
  have htracked := tracked_tracked hws
  have hlive := rightLive_beside hws
  have hfrozen : Frozen p.tracked p.tracked := ⟨rfl, rfl, rfl, rfl, rfl, rfl⟩
  refine ⟨?_, ?_, ?_, (map_id _).symm, fun _ _ _ => ⟨rfl, rfl⟩, (map_id _).symm, ?_, ?_,
    ?_, (map_id _).symm⟩
  · show p.tracked = _
    unfold tracked
    rfl
  · show p.tracked = _
    unfold tracked
    rfl
  · refine ⟨hfrozen, hfrozen, rfl, ?_, fun _ => rfl, rfl, rfl, inProgress_tracked,
      inProgress_tracked⟩
    show p.tracked.placeholders = p.tracked.placeholders.map (Placeholder.rename id)
    rw [show Placeholder.rename id = id from rfl, Array.map_id]
  · intro b hb hchecked
    have hchecked : (p.isLive p.tracked b && p.tracked.blockScope.contains b) = true := hchecked
    rw [htracked.live_eq, Bool.and_eq_true] at hchecked
    exact ⟨mem_range.mp hb, hchecked.1, hchecked.2⟩
  · exact (map_id _).symm
  · rintro ⟨b, role⟩ htop
    have hliveb : p.live b = true := isLive_of_mem_tops hws htop rfl
    obtain ⟨hmem, _, hrole, _⟩ := mem_tops_selectTops htop
    have hlt := mem_range.mp (mem_filter.mp hmem).1
    have hplaced := htracked.tops b hmem hliveb
    have hroles := role?_eq hrole
    cases role with
    | start => exact ⟨hlt, hliveb, hplaced.self (.inl hroles)⟩
    | container => exact ⟨hlt, hliveb, hplaced.self (.inr hroles)⟩
    | looseChain =>
      refine ⟨(map_id _).symm, ?_⟩
      intro x hx hlivex
      rw [hlive] at hlivex
      refine ⟨(under_of_mem_chain hws hlt hx).lt hws hlt, hlivex, ?_⟩
      exact hplaced.chain hroles.1 hroles.2 x hx hlivex

/-- An admissible program over a host that registers its symbols compiles, if every variable that a
live block reads a generic result from is live. -/
theorem compile_succeeds {specs : List BlockSpec} {vars : List VariableModel}
    (hsurface : p.surface.Registered)
    (hbuild : Workspace.build p.surface specs vars = .ok p.workspace) (hadm : p.Admissible)
    (hreceivers : p.LiveReceivers) (options : CompileOptions) :
    ∃ out, p.compile options = .ok out := by
  have hws := build_sound hbuild
  have hsymbols : ∀ b < p.workspace.size, ∀ name, p.kind b = .hostCall name →
      (p.surface.symbol? name).isSome :=
    fun b hb name hkind => symbol_of_hostCall hsurface hbuild hb hkind
  rcases Pairing.compile_alike (faithful_beside hws hadm hreceivers hsymbols)
    (startsAlike_beside hws) options with ⟨out, hout, _⟩ | ⟨hfail, _⟩
  · exact ⟨out, hout⟩
  · exact hfail.elim

/-- `x` is set to an item of the list that the given blocks make. -/
def itemBlocks (list : List BlockSpec) : List BlockSpec :=
  [{ id := "set", tag := "variables_set", fields := [⟨"VAR", "x"⟩],
     inputs := [("VALUE", .value, some "item")] },
   { id := "item", tag := "lists_index_get",
     inputs := [("LIST", .value, some "list"), ("INDEX", .value, none)] }] ++ list

def itemProgram (list : List BlockSpec) : Program :=
  .ofBlocks (itemBlocks list)

/-- A disabled list. The variable in it has no field. -/
def deadList : List BlockSpec :=
  [{ id := "list", tag := "lists_create_with", enabled := false,
     inputs := [("ADD0", .value, some "get")] },
   { id := "get", tag := "variables_get" }]

/-- A host with a function that a block calls. -/
def pauseHost : Json :=
  .obj [("symbols", .arr [.obj [("name", .str "pause"), ("namespace", .str "host"),
    ("blockId", .str "host_pause")]])]

def pauseBlocks : List BlockSpec :=
  { id := "pause", tag := "host_pause" } :: itemBlocks deadList

def pauseProgram : Program :=
  let surface := (Document.readSurface pauseHost).toOption.getD {}
  { surface, workspace := (build surface pauseBlocks []).toOption.getD {} }

theorem compile_succeeds_dead_list :
    Document.readSurface pauseHost = .ok pauseProgram.surface ∧
    pauseProgram.kind 0 = .hostCall "host.pause" ∧ ∃ out, pauseProgram.compile {} = .ok out := by
  have hread : Document.readSurface pauseHost = .ok pauseProgram.surface := by decide +kernel
  have hbuild : build pauseProgram.surface pauseBlocks [] = .ok pauseProgram.workspace := by
    decide +kernel
  have hadm : pauseProgram.Admissible := by decide +kernel
  have hreceivers : pauseProgram.LiveReceivers := liveReceivers_of_receiver (by decide +kernel)
  exact ⟨hread, by decide +kernel,
    compile_succeeds (registered_readSurface hread) hbuild hadm hreceivers {}⟩

/-- A disabled variable in the place of the list. -/
def deadVariable : List BlockSpec :=
  [{ id := "list", tag := "variables_get", enabled := false, fields := [⟨"VAR", "y"⟩] }]

/-- The type of the item is looked for in the variable, which was never visited. -/
theorem compile_fails_dead_receiver :
    Workspace.build {} (itemBlocks deadVariable) [] = .ok (itemProgram deadVariable).workspace ∧
    (itemProgram deadVariable).Admissible ∧
    (itemProgram deadVariable).compile {} = .error ⟨.typing, "list", .notVisited⟩ := by
  refine ⟨by decide +kernel, by decide +kernel, by decide +kernel⟩

end BlockProgram
