import BlockProgram.Proofs.Agreement.Compile
import Mathlib.Data.List.Find

/-!
# What is in disabled blocks

Two programs with the same blocks at the same places, of which only disabled ones differ in what
they hold, have the same output (`compile_eq_of_disabled`), if the few lookups that do not ask
whether a block is enabled find the same (`SameLookups`). Without that, they need not: the name of a
disabled function is taken, so that a variable is renamed (`compile_renames_for_disabled`).
-/

namespace BlockProgram

open Program Workspace List

/-! ## Workspaces of one layout -/

namespace Workspace

/-- The same blocks at the same places, enabled alike. -/
structure SameLayout (ws ws' : Workspace) : Prop where
  vars : ws.vars = ws'.vars
  size : ws.size = ws'.size
  ids : ∀ b < ws.size, (ws.block b).id = (ws'.block b).id
  inputs : ∀ b < ws.size, (ws.block b).inputs = (ws'.block b).inputs
  next : ∀ b < ws.size, (ws.block b).next = (ws'.block b).next
  enabled : ∀ b < ws.size, (ws.block b).enabled = (ws'.block b).enabled

variable {ws ws' : Workspace} (h : ws.SameLayout ws')
include h

namespace SameLayout

/-- What is the same in the blocks of the workspaces is the same everywhere. -/
theorem everywhere {α : Type} (read : Block → α)
    (hread : ∀ b < ws.size, read (ws.block b) = read (ws'.block b)) (b : BlockRef) :
    read (ws.block b) = read (ws'.block b) := by
  rcases Nat.lt_or_ge b ws.size with hb | hb
  · exact hread b hb
  · rw [block_eq_default hb, block_eq_default (h.size ▸ hb)]

theorem inputs_eq (b : BlockRef) : (ws.block b).inputs = (ws'.block b).inputs :=
  h.everywhere Block.inputs h.inputs b

theorem next_eq (b : BlockRef) : (ws.block b).next = (ws'.block b).next :=
  h.everywhere Block.next h.next b

theorem targets_eq (b : BlockRef) : (ws.block b).targets = (ws'.block b).targets := by
  unfold Block.targets
  rw [h.inputs_eq]

theorem children_eq : ws.children = ws'.children := by
  funext b
  unfold children
  rw [h.targets_eq, h.next_eq]

theorem chain_eq (first : Option BlockRef) : ws.chain first = ws'.chain first := by
  have hfrom : ∀ n first, ws.chainFrom n first = ws'.chainFrom n first := by
    intro n
    induction n with
    | zero => exact fun _ => rfl
    | succ n ih =>
      intro first
      cases first with
      | none => rfl
      | some b =>
        unfold chainFrom
        rw [h.next_eq, ih]
  unfold chain
  rw [h.size, hfrom]

theorem descendants_eq (b : BlockRef) : ws.descendants b = ws'.descendants b := by
  have hfrom : ∀ n l, ws.walk n l = ws'.walk n l := by
    intro n
    induction n with
    | zero => exact fun _ => rfl
    | succ n ih =>
      intro l
      cases l with
      | nil => rfl
      | cons b r =>
        unfold walk
        rw [h.children_eq, ih]
  unfold descendants
  rw [h.size, hfrom]

variable (hws : ws.Sound) (hws' : ws'.Sound)
include hws hws'

theorem parent?_eq : ws.parent? = ws'.parent? := by
  funext x
  refine Option.ext fun b => ?_
  constructor
  · intro hb
    refine hws'.parent_eq b x ?_
    rw [← h.children_eq]
    exact hws.child_of_parent b x hb
  · intro hb
    refine hws.parent_eq b x ?_
    rw [h.children_eq]
    exact hws'.child_of_parent b x hb

theorem isEnabled_eq : ws.isEnabled = ws'.isEnabled := by
  have henabled := h.everywhere Block.enabled h.enabled
  have hfrom : ∀ n b, ws.surroundingsEnabled n b = ws'.surroundingsEnabled n b := by
    intro n
    induction n with
    | zero => exact fun _ => rfl
    | succ n ih =>
      intro b
      unfold surroundingsEnabled
      rw [h.parent?_eq hws hws']
      cases ws'.parent? b with
      | none => rfl
      | some a =>
        dsimp only
        rw [h.next_eq, henabled, ih]
  funext b
  unfold isEnabled
  rw [henabled, h.size, hfrom]

theorem under_iff (a b : BlockRef) : ws.Under a b ↔ ws'.Under a b := by
  unfold Under
  rw [h.parent?_eq hws hws']

theorem within_iff (a b : BlockRef) : ws.Within a b ↔ ws'.Within a b := by
  unfold Within
  simp only [h.targets_eq, h.under_iff hws hws']

end SameLayout

end Workspace

/-! ## Lookups that go to disabled blocks -/

namespace Program

/-- The function that a block of a kind is about. -/
def functionOf? (p : Program) (kind : BlockKind) (b : BlockRef) : Option String :=
  if p.kind b = kind then (p.block b).functionName? else none

theorem functionOf?_beq (p : Program) (kind : BlockKind) (b : BlockRef) (name : String) :
    (p.kind b == kind && (p.block b).functionName? == some name) =
      (p.functionOf? kind b == some name) := by
  unfold functionOf?
  by_cases hkind : p.kind b = kind
  · rw [if_pos hkind, beq_iff_eq.mpr hkind, Bool.true_and]
  · rw [if_neg hkind, beq_eq_false_iff_ne.mpr hkind]
    rfl

theorem functionDefinition?_eq (p : Program) (name : String) :
    p.workspace.functionDefinition? name =
      p.workspace.refs.find? fun b => p.functionOf? .functionDefinition b == some name := by
  simp only [← functionOf?_beq]
  rfl

theorem functionIdentifiers_eq (p : Program) :
    p.functionIdentifiers = p.workspace.refs.filterMap fun b =>
      (p.functionOf? .functionDefinition b).map functionIdentifier := by
  unfold functionIdentifiers functionOf?
  rw [filterMap_filter]
  refine filterMap_congr fun b _ => ?_
  by_cases hkind : p.kind b = .functionDefinition
  · simp [hkind]
  · simp [hkind]

/-- The lookups that do not ask whether a block is enabled find the same in both programs: function
definitions, calls in returned values, literals in host calls, and the blocks that generic results
are read from. -/
structure SameLookups (p q : Program) : Prop where
  definitions : ∀ b < p.workspace.size,
    p.functionOf? .functionDefinition b = q.functionOf? .functionDefinition b
  calls : ∀ r < p.workspace.size, p.workspace.isEnabled r = true → p.kind r = .functionReturn →
    ∀ t ∈ (p.block r).inputTarget? returnValueInput, ∀ x ∈ p.workspace.descendants t,
      p.functionOf? .functionCallOutput x = q.functionOf? .functionCallOutput x
  literals : ∀ b < p.workspace.size, p.workspace.isEnabled b = true →
    (p.symbolOf? b).isSome → ∀ n ∈ p.operands (p.block b), ∀ t ∈ (p.block b).inputTarget? n,
      (p.kind t == .fieldLiteral) = (q.kind t == .fieldLiteral)
  receivers : ∀ b, p.IsRead b → p.block b = q.block b

end Program

variable {p q : Program}

/-- It is enough for `SameLookups.receivers` that no disabled block differs from which a generic
result is read directly. -/
theorem receivers_of_direct (henabled : ∀ b < p.workspace.size, p.workspace.isEnabled b = true →
    p.block b = q.block b)
    (hdirect : ∀ b < p.workspace.size, ∀ t ∈ p.receiver? b, p.block t = q.block t) :
    ∀ b, p.IsRead b → p.block b = q.block b := by
  rintro b ⟨r, hr, hread, hreads⟩
  rcases Relation.ReflTransGen.cases_tail hreads with rfl | ⟨x, _, hx⟩
  · exact henabled b hr hread
  · obtain ⟨_, i, hi, hit⟩ := Pairing.exists_input_of_receiver hx
    exact hdirect x (lt_of_child (Pairing.mem_children_of_input hi hit)) b hx

section Agreement

variable (hp : p.workspace.Sound) (hq : q.workspace.Sound) (hsurface : p.surface = q.surface)
  (hlayout : p.workspace.SameLayout q.workspace)
  (hsame : ∀ b < p.workspace.size, p.workspace.isEnabled b = true → p.block b = q.block b)
  (hlookups : p.SameLookups q)
include hsame hlookups

theorem isTyped_of_sameLookups {b : BlockRef} (hb : b < p.workspace.size)
    (hlive : p.workspace.isEnabled b = true) {name n : String} (hkind : p.kind b = .hostCall name)
    (hn : n ∈ p.operands (p.block b)) : p.isTyped (p.block b) n = q.isTyped (q.block b) n := by
  have hsymbol : (p.symbolOf? b).isSome := by
    unfold symbolOf?
    rw [hkind]
    dsimp only
    cases hsymbol : p.surface.symbol? name with
    | some symbol => rfl
    | none =>
      -- a call of an unknown symbol has no operands
      unfold operands listInput? kindOperands at hn
      rw [show (p.block b).kind = .hostCall name from hkind] at hn
      dsimp only at hn
      rw [hsymbol] at hn
      cases hn
  have hliterals := hlookups.literals b hb hlive hsymbol n hn
  unfold isTyped
  rw [← hsame b hb hlive]
  cases ht : (p.block b).inputTarget? n with
  | none => rfl
  | some t => rw [Option.any_some, Option.any_some, hliterals t ht]

include hlayout

theorem returnsOwnCall_of_sameLookups {r : BlockRef} (hr : r < p.workspace.size)
    (hlive : p.workspace.isEnabled r = true) (hkind : p.kind r = .functionReturn) (name : String) :
    p.returnsOwnCall name r = q.returnsOwnCall name r := by
  have hcalls := hlookups.calls r hr hlive hkind
  unfold returnsOwnCall
  rw [← hsame r hr hlive]
  cases hvalue : (p.block r).inputTarget? returnValueInput with
  | none => rfl
  | some t =>
    rw [Option.any_some, Option.any_some, ← hlayout.descendants_eq]
    simp only [functionOf?_beq]
    rw [Bool.eq_iff_iff, any_eq_true, any_eq_true]
    refine exists_congr fun x => and_congr_right fun hx => ?_
    rw [hcalls t hvalue x hx]

include hp hq hsurface

/-- What is read in the one program is read in the other, and it is the same. -/
theorem isRead_of_sameLookups {b : BlockRef} (hb : q.IsRead b) :
    p.IsRead b ∧ p.block b = q.block b := by
  obtain ⟨r, hr, hread, hreads⟩ := hb
  rw [← hlayout.size] at hr
  rw [← hlayout.isEnabled_eq hp hq] at hread
  have hpath : p.ReadsFrom r b ∧ p.block b = q.block b := by
    induction hreads with
    | refl => exact ⟨.refl, hsame r hr hread⟩
    | @tail x y _ hxy ih =>
      obtain ⟨hx, hblock⟩ := ih
      have hreceiver : p.receiver? x = some y := by
        rw [← hxy]
        unfold receiver? listInput?
        rw [hblock, hsurface]
      exact ⟨hx.tail hreceiver, hlookups.receivers y ⟨r, hr, hread, hx.tail hreceiver⟩⟩
  exact ⟨⟨r, hr, hread, hpath.1⟩, hpath.2⟩

/-- Two programs of one layout agree at every block, each block with itself. -/
theorem agrees_of_sameLookups : Agrees id p q := by
  have henabled := hlayout.isEnabled_eq hp hq
  have hchain : ∀ first, SameEnabled id p q first first := by
    intro first
    unfold SameEnabled
    rw [map_id, hlayout.chain_eq, henabled]
  have hat : ∀ b < q.workspace.size, q.workspace.isEnabled b = true →
      b < p.workspace.size ∧ p.workspace.isEnabled b = true :=
    fun b hb hlive => ⟨hlayout.size ▸ hb, by rw [henabled]; exact hlive⟩
  refine
    { left_sound := hp, right_sound := hq, surface := hsurface, vars := hlayout.vars
      mono := strictMono_id, lt := fun b => by rw [hlayout.size]; exact Iff.rfl
      ids := fun b => hlayout.everywhere Block.id hlayout.ids b
      enabled := fun b => congrFun henabled b, covers := fun x _ _ => ⟨x, rfl⟩
      top := fun b _ _ => by rw [hlayout.parent?_eq hp hq]; rfl
      chain := fun b _ _ => hchain (some b), under := hlayout.under_iff hp hq
      within := hlayout.within_iff hp hq, descendants := ?_, block := ?_, definition := ?_
      identifiers := ?_, ownCall := ?_, typed := ?_ }
  · intro d _
    rw [map_id, henabled, id, hlayout.descendants_eq]
  · intro b hb
    have hblock := (isRead_of_sameLookups hp hq hsurface hlayout hsame hlookups hb).2
    refine ⟨by rw [id, hblock], ?_, ?_⟩
    · rw [id, hblock]
      refine forall₂_same.mpr fun i _ => ⟨rfl, rfl, fun _ => ?_, hchain _, ?_⟩
      · exact (congrFun Option.map_id i.target).symm
      · exact fun t ht => ⟨t, ht, fun _ _ => Iff.rfl⟩
    · intro _
      rw [id, hblock]
      exact hchain _
  · intro name
    rw [Option.map_id, id, p.functionDefinition?_eq, q.functionDefinition?_eq]
    unfold refs
    rw [← hlayout.size]
    refine find?_congr fun b hb => ?_
    rw [hlookups.definitions b (mem_range.mp hb)]
  · rw [p.functionIdentifiers_eq, q.functionIdentifiers_eq]
    unfold refs
    rw [← hlayout.size]
    refine filterMap_congr fun b hb => ?_
    rw [hlookups.definitions b (mem_range.mp hb)]
  · intro r hr hlive hkind name
    obtain ⟨hr, hlive⟩ := hat r hr hlive
    exact returnsOwnCall_of_sameLookups hlayout hsame hlookups hr hlive
      ((congrArg Block.kind (hsame r hr hlive)).trans hkind) name
  · intro b hb hlive name hkind n hn
    obtain ⟨hb, hlive⟩ := hat b hb hlive
    have hblock := hsame b hb hlive
    have hoperands : p.operands (p.block b) = q.operands (q.block b) := by
      unfold operands kindOperands listInput?
      rw [hblock, hsurface]
    exact isTyped_of_sameLookups hsame hlookups hb hlive
      ((congrArg Block.kind hblock).trans hkind) (hoperands ▸ hn)

end Agreement

/-- Two programs of one layout over one host that are built from blocks and differ in disabled
blocks only have the same output, if the lookups that go to disabled blocks find the same. -/
theorem compile_eq_of_disabled {surface surface' : Surface} {specs specs' : List BlockSpec}
    {vars vars' : List VariableModel}
    (hp : Workspace.build surface specs vars = .ok p.workspace)
    (hq : Workspace.build surface' specs' vars' = .ok q.workspace)
    (hsurface : p.surface = q.surface) (hlayout : p.workspace.SameLayout q.workspace)
    (hsame : ∀ b < p.workspace.size, p.workspace.isEnabled b = true → p.block b = q.block b)
    (hlookups : p.SameLookups q) (options : CompileOptions) :
    p.compile options = q.compile options :=
  (agrees_of_sameLookups (build_sound hp) (build_sound hq) hsurface hlayout hsame
    hlookups).compile_eq options

/-- A variable is set, a disabled statement follows, and the variable is changed. -/
def interruptedBlocks (off inner : BlockSpec) : List BlockSpec :=
  [{ id := "set", tag := "variables_set", fields := [⟨"VAR", "x"⟩],
     inputs := [("VALUE", .value, none)], next := some "off" },
   { off with
     id := "off", enabled := false, inputs := [("VALUE", .value, some "inner")]
     next := some "change" },
   { inner with id := "inner" },
   { id := "change", tag := "variables_change", fields := [⟨"VAR", "x"⟩],
     inputs := [("VALUE", .value, none)] }]

def interrupted (off inner : BlockSpec) : Program :=
  .ofBlocks (interruptedBlocks off inner)

/-- An assignment that reads another variable. -/
def assignment : BlockSpec × BlockSpec :=
  ({ id := "", tag := "variables_set", fields := [⟨"VAR", "x"⟩] },
   { id := "", tag := "variables_get", fields := [⟨"VAR", "y"⟩] })

/-- A block of a type that nothing knows, around a text. -/
def unknownBlocks : BlockSpec × BlockSpec :=
  ({ id := "", tag := "unheard_of" }, { id := "", tag := "text", fields := [⟨"TEXT", "x"⟩] })

theorem compile_eq_interrupted : (interrupted assignment.1 assignment.2).compile {} =
    (interrupted unknownBlocks.1 unknownBlocks.2).compile {} := by
  have hp : build {} (interruptedBlocks assignment.1 assignment.2) [] =
      .ok (interrupted assignment.1 assignment.2).workspace := by decide +kernel
  have hq : build {} (interruptedBlocks unknownBlocks.1 unknownBlocks.2) [] =
      .ok (interrupted unknownBlocks.1 unknownBlocks.2).workspace := by decide +kernel
  have hlayout : (interrupted assignment.1 assignment.2).workspace.SameLayout
      (interrupted unknownBlocks.1 unknownBlocks.2).workspace := by
    constructor <;> decide +kernel
  have hsame : ∀ b < (interrupted assignment.1 assignment.2).workspace.size,
      (interrupted assignment.1 assignment.2).workspace.isEnabled b = true →
        (interrupted assignment.1 assignment.2).block b =
          (interrupted unknownBlocks.1 unknownBlocks.2).block b := by decide +kernel
  have hlookups : (interrupted assignment.1 assignment.2).SameLookups
      (interrupted unknownBlocks.1 unknownBlocks.2) := by
    refine ⟨by decide +kernel, by decide +kernel, by decide +kernel, ?_⟩
    exact receivers_of_direct hsame (by decide +kernel)
  have hsurface : (interrupted assignment.1 assignment.2).surface =
      (interrupted unknownBlocks.1 unknownBlocks.2).surface := rfl
  exact compile_eq_of_disabled hp hq hsurface hlayout hsame hlookups {}

def sameNameFunction : BlockSpec :=
  { id := "", tag := "function_definition", fields := [⟨"function_name", "x"⟩] }

/-- A disabled function has its name taken, so the variable gets another name than beside a disabled
block of an unknown type. -/
theorem compile_renames_for_disabled :
    (interrupted sameNameFunction unknownBlocks.2).workspace.SameLayout
      (interrupted unknownBlocks.1 unknownBlocks.2).workspace ∧
    (∀ b < (interrupted sameNameFunction unknownBlocks.2).workspace.size,
      (interrupted sameNameFunction unknownBlocks.2).workspace.isEnabled b = true →
        (interrupted sameNameFunction unknownBlocks.2).block b =
          (interrupted unknownBlocks.1 unknownBlocks.2).block b) ∧
    ((interrupted sameNameFunction unknownBlocks.2).compile {}).map (·.source) =
      .ok "let x2 = 0;\nx2 += 0;\n" ∧
    ((interrupted unknownBlocks.1 unknownBlocks.2).compile {}).map (·.source) =
      .ok "let x = 0;\nx += 0;\n" := by
  refine ⟨?_, by decide +kernel, by decide +kernel, by decide +kernel⟩
  constructor <;> decide +kernel

end BlockProgram
