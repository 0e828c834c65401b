import BlockProgram.Proofs.Agreement.Compile
import BlockProgram.Proofs.Workspace.Removal

/-!
# Disabling a statement removes it

A program in which a statement is disabled has the same output as the program without the statement
and all that is plugged into it, in which what follows the statement has taken its place
(`compile_eq_remove`). That needs a few things to hold of the statement (`Removable`), because some
steps of the compilation see disabled blocks. Above all the statement must not head a chain at the
top, since the whole chain is skipped then (`compile_skips_chain`).
-/

namespace BlockProgram

open Program Workspace List

/-- The block is plugged in as a value nowhere. -/
def Workspace.InChain (ws : Workspace) (b : BlockRef) : Prop :=
  ∀ x < ws.size, ∀ i ∈ (ws.block x).inputs, i.target = some b → i.kind = .statement

instance (ws : Workspace) (b : BlockRef) : Decidable (ws.InChain b) :=
  inferInstanceAs (Decidable (∀ x < ws.size, ∀ i ∈ (ws.block x).inputs, _ → _))

namespace Program

/-- The program without a block and all that is plugged into it. -/
def remove (p : Program) (b : BlockRef) : Program :=
  { p with workspace := p.workspace.remove b }

/-- No step of the compilation that sees disabled blocks misses the block. -/
structure Removable (p : Program) (b : BlockRef) : Prop where
  /-- Of a chain at the top that starts with a disabled statement, nothing is compiled. -/
  top : p.workspace.parent? b = none → ∀ n ∈ (p.block b).next, (p.block n).enabled = false
  /-- Names of disabled functions are taken. -/
  definitions : ∀ x ∈ p.workspace.subtree b, p.kind x ≠ .functionDefinition
  /-- A function that stands first in an input opens its own scope. -/
  follower : ∀ x < p.workspace.size, ∀ i ∈ (p.block x).inputs, i.target = some b →
    ∀ n ∈ (p.block b).next, p.kind n ≠ .functionDefinition
  /-- Calls in a returned value count, also disabled ones. -/
  calls : ∀ r < p.workspace.size, p.kind r = .functionReturn →
    ∀ t ∈ (p.block r).inputTarget? returnValueInput, b ∈ p.workspace.descendants t →
      ∀ x ∈ p.workspace.subtree b, p.kind x ≠ .functionCallOutput
  /-- Inputs that are read as values are read by their names, whatever their kinds. -/
  operands : ∀ x < p.workspace.size, ∀ i ∈ (p.block x).inputs, i.target = some b →
    i.name ∉ p.operands (p.block x)
  /-- A start block runs what is in the first of its inputs that holds something. -/
  start : ∀ x < p.workspace.size, p.kind x = .onStart →
    (p.block x).statementInputs.findSome? (·.target) = some b → (p.block b).next = none →
      ∀ i ∈ (p.block x).statementInputs, ∀ t ∈ i.target, t = b

end Program

/-! ## Blocks with other references -/

namespace Workspace

variable (ws : Workspace) (b : BlockRef) (block : Block) {i : BlockRef}

/-- The names of the inputs stay when references are led past a block. -/
theorem names_rewire (keep : Input → Bool) (hkeep : ∀ i t, keep { i with target := t } = keep i) :
    ((ws.rewire b block).inputs.filter keep).map (·.name) =
      (block.inputs.filter keep).map (·.name) := by
  unfold rewire
  rw [filter_map, map_map]
  have hsame : keep ∘ (fun i => { i with target := ws.renumber b (ws.bypass b i.target) }) = keep :=
    funext fun i => hkeep i _
  rw [hsame]
  rfl

theorem hasInput_rewire (name : String) :
    (ws.rewire b block).hasInput name = block.hasInput name := by
  unfold Block.hasInput Block.input? rewire
  rw [find?_map, Option.isSome_map]
  rfl

theorem operands_rewire (p : Program) : p.operands (ws.rewire b block) = p.operands block := by
  have hvalue : (ws.rewire b block).valueInputs.map (·.name) = block.valueInputs.map (·.name) :=
    names_rewire ws b block _ fun _ _ => rfl
  have hnumbered : ∀ lead, ((ws.rewire b block).numberedInputs lead).map (·.name) =
      (block.numberedInputs lead).map (·.name) :=
    fun lead => names_rewire ws b block _ fun _ _ => rfl
  have hlength : lengthInput (ws.rewire b block) = lengthInput block := by
    unfold lengthInput
    rw [hasInput_rewire]
  have hkind : ∀ kind, p.kindOperands (ws.rewire b block) kind = p.kindOperands block kind := by
    intro kind
    unfold kindOperands itemInputs
    rw [hvalue, hlength]
    simp only [hnumbered]
    rfl
  unfold operands
  rw [hkind]
  rfl

variable {ws b}

/-- The first input that holds something holds what took the place of the block, if the block stood
there, unless it was the last that stood there and another input holds something. -/
theorem findSome?_rewire {l : List Input} (hws : ws.Sound) (hb : b < ws.size)
    (hl : ∀ i ∈ l, ∀ x ∈ i.target, x = b ∨ x ∈ ws.kept b)
    (hlast : l.findSome? (·.target) = some b → (ws.block b).next = none →
      ∀ i ∈ l, ∀ t ∈ i.target, t = b) :
    l.findSome? (fun i => ws.renumber b (ws.bypass b i.target)) =
      ws.renumber b (ws.bypass b (l.findSome? (·.target))) := by
  induction l with
  | nil => simp [bypass, renumber]
  | cons i l ih =>
    rw [findSome?_cons, findSome?_cons]
    rw [findSome?_cons] at hlast
    cases htarget : i.target with
    | none =>
      rw [htarget] at hlast
      have hrest := ih (fun j hj => hl j (.tail i hj))
        fun hfirst hnext j hj => hlast hfirst hnext j (.tail i hj)
      simpa [bypass, renumber] using hrest
    | some x =>
      rw [htarget] at hlast
      cases hplace : ws.renumber b (ws.bypass b (some x)) with
      | some j => simp
      | none =>
        obtain ⟨rfl, hnext⟩ := renumber_bypass_eq_none hws hb (hl i (.head _) x htarget) hplace
        refine findSome?_eq_none_iff.mpr fun j hj => ?_
        cases hjtarget : j.target with
        | none => simp [bypass, renumber]
        | some t => rw [hlast rfl hnext j (.tail i hj) t hjtarget, hplace]

end Workspace

theorem block_remove (p : Program) (b i : BlockRef) :
    (p.remove b).block i = p.workspace.rewire b (p.block (p.workspace.embed b i)) :=
  Workspace.block_remove i

/-- A block keeps all but its references. -/
theorem read_remove {α : Type} (read : Block → α) (p : Program) (b : BlockRef)
    (hread : ∀ block, read (p.workspace.rewire b block) = read block) (i : BlockRef) :
    read ((p.remove b).block i) = read (p.block (p.workspace.embed b i)) := by
  rw [block_remove, hread]

theorem kind_remove (p : Program) (b i : BlockRef) :
    (p.remove b).kind i = p.kind (p.workspace.embed b i) :=
  read_remove Block.kind p b (fun _ => rfl) i

theorem functionName?_remove (p : Program) (b i : BlockRef) :
    ((p.remove b).block i).functionName? = (p.block (p.workspace.embed b i)).functionName? :=
  read_remove Block.functionName? p b (fun _ => rfl) i

section Agreement

variable {p : Program} {b : BlockRef} (hp : p.workspace.Sound)
include hp

/-- The functions stay, each in its order. -/
theorem filter_definitions_remove (hremovable : p.Removable b) {f g : BlockRef → Bool}
    (hf : ∀ x, f x = true → p.kind x = .functionDefinition)
    (hfg : ∀ i, f (p.workspace.embed b i) = g i) :
    p.workspace.refs.filter f =
      ((p.remove b).workspace.refs.filter g).map (p.workspace.embed b) := by
  refine filter_range_of_strictMono strictMono_embed embed_lt_iff
    (fun i _ => hfg i) fun x hx hfx => ?_
  have hstays : ¬ p.workspace.Within b x := fun hwithin =>
    hremovable.definitions x ((mem_subtree hp).mpr hwithin) (hf x hfx)
  obtain ⟨i, _, hi⟩ := exists_embed ((mem_kept hp).mpr ⟨hx, hstays⟩)
  exact ⟨i, hi⟩

variable (hb : b < p.workspace.size)
include hb

theorem mem_kept_of_input {j : Input} (hj : j ∈ (p.block (p.workspace.embed b i)).inputs) :
    ∀ x ∈ j.target, x = b ∨ x ∈ p.workspace.kept b :=
  fun _ hx => mem_kept_of_target hp hb (mem_targets hj hx)

/-- No enabled block comes to stand at the top. -/
theorem isNone_parent_remove (hremovable : p.Removable b)
    (henabled : (p.remove b).workspace.isEnabled i = true) :
    (p.workspace.parent? (p.workspace.embed b i)).isNone =
      ((p.remove b).workspace.parent? i).isNone := by
  cases hy : p.workspace.newParent? b (p.workspace.embed b i) with
  | some y =>
    obtain ⟨j, _, hj⟩ := exists_newParent hp hb hy
    rw [show (p.remove b).workspace.parent? i = some j from hj]
    cases hparent : p.workspace.parent? (p.workspace.embed b i) with
    | some z => rfl
    | none =>
      rw [newParent?, hparent] at hy
      cases hy
  | none =>
    have htop : (p.remove b).workspace.parent? i = none := by
      show (p.workspace.remove b).parent? i = none
      rw [parent?_remove hp, hy]
      rfl
    rw [htop]
    unfold newParent? at hy
    split at hy
    · next hparent =>
      -- the block follows the removed one at the top, so it would be disabled
      have hnext := next_of_parent hp (not_within_embed hp hb i) hparent
      have hfollower := hremovable.top hy _ hnext
      rw [show (p.remove b).workspace.isEnabled i = _ from isEnabled_remove hp hb i,
        isEnabled, show (p.workspace.block (p.workspace.embed b i)).enabled = _ from
          hfollower, Bool.false_and] at henabled
      cases henabled
    · rw [hy]

variable (hoff : (p.block b).enabled = false)
include hoff

theorem sameEnabled_bypass {t : Option BlockRef} (ht : ∀ x ∈ t, x = b ∨ x ∈ p.workspace.kept b) :
    SameEnabled (p.workspace.embed b) p (p.remove b) t
      (p.workspace.renumber b (p.workspace.bypass b t)) := by
  have hdisabled : p.workspace.isEnabled b = false := by
    unfold isEnabled
    rw [show (p.workspace.block b).enabled = false from hoff, Bool.false_and]
  have hsplit : (p.workspace.chain t).filter p.workspace.isEnabled =
      ((p.workspace.chain t).filter (· != b)).filter p.workspace.isEnabled := by
    rw [filter_filter]
    refine filter_congr fun x _ => ?_
    by_cases hx : x = b
    · rw [hx, hdisabled, Bool.false_and]
    · simp [hx]
  unfold SameEnabled
  rw [hsplit, chain_remove hp hb ht, filter_map]
  congr 1
  exact filter_congr fun x _ => (isEnabled_remove hp hb x).symm

theorem descendants_enabled {d : BlockRef} (hd : d < (p.remove b).workspace.size) :
    (p.workspace.descendants (p.workspace.embed b d)).filter p.workspace.isEnabled =
      (((p.remove b).workspace.descendants d).filter (p.remove b).workspace.isEnabled).map
        (p.workspace.embed b) := by
  have hlt := (embed_lt_iff d).mpr hd
  have hsplit : (p.workspace.descendants (p.workspace.embed b d)).filter p.workspace.isEnabled =
      ((p.workspace.descendants (p.workspace.embed b d)).filter
        (· ∈ p.workspace.kept b)).filter p.workspace.isEnabled := by
    rw [filter_filter]
    refine filter_congr fun x hx => ?_
    have hxlt := Under.lt hp hlt ((mem_descendants hp hlt).mp hx)
    cases henabled : p.workspace.isEnabled x with
    | false => rfl
    | true => simpa using mem_kept_of_enabled hp hb hoff hxlt henabled
  rw [hsplit, descendants_remove hp hb hd, filter_map]
  congr 1
  exact filter_congr fun x _ => (isEnabled_remove hp hb x).symm

/-- A start block runs what it ran. -/
theorem sameStart_remove (hremovable : p.Removable b)
    (hstart : p.kind (p.workspace.embed b i) = .onStart) :
    SameEnabled (p.workspace.embed b) p (p.remove b)
      ((p.block (p.workspace.embed b i)).statementInputs.findSome? (·.target))
      (((p.remove b).block i).statementInputs.findSome? (·.target)) := by
  have hmap : ((p.remove b).block i).statementInputs.findSome? (·.target) =
      (p.block (p.workspace.embed b i)).statementInputs.findSome? fun j =>
        p.workspace.renumber b (p.workspace.bypass b j.target) := by
    rw [block_remove]
    unfold Block.statementInputs rewire
    rw [filter_map, findSome?_map]
    rfl
  have hplaced : ∀ j ∈ (p.block (p.workspace.embed b i)).statementInputs, ∀ x ∈ j.target,
      x = b ∨ x ∈ p.workspace.kept b :=
    fun j hj => mem_kept_of_input hp hb (mem_of_mem_filter hj)
  rw [hmap, findSome?_rewire hp hb hplaced]
  · refine sameEnabled_bypass hp hb hoff fun x hx => ?_
    obtain ⟨j, hj, hjx⟩ := exists_of_findSome?_eq_some hx
    exact hplaced j hj x hjx
  · intro hfirst hnext
    obtain ⟨j, hj, hjb⟩ := exists_of_findSome?_eq_some hfirst
    have hchild := Pairing.mem_children_of_input (mem_of_mem_filter hj) hjb
    exact hremovable.start _ (lt_of_child hchild) hstart hfirst hnext

variable (hchain : p.workspace.InChain b) (hremovable : p.Removable b)
include hchain hremovable

/-- An input holds what it held, as far as it is read. -/
theorem agreesInput_remove {j : Input} (hj : j ∈ (p.block (p.workspace.embed b i)).inputs) :
    AgreesInput (p.workspace.embed b) p (p.remove b) (p.operands (p.block (p.workspace.embed b i)))
      j { j with target := p.workspace.renumber b (p.workspace.bypass b j.target) } := by
  have hplaced := mem_kept_of_input hp hb hj
  refine ⟨rfl, rfl, ?_, sameEnabled_bypass hp hb hoff hplaced, ?_⟩
  · intro hvalue
    dsimp only at hvalue ⊢
    cases htarget : j.target with
    | none => rfl
    | some x =>
      rcases hplaced x htarget with rfl | hx
      · have hlt := lt_of_child (Pairing.mem_children_of_input hj htarget)
        rcases hvalue with hvalue | hvalue
        · rw [hchain _ hlt j hj htarget] at hvalue
          cases hvalue
        · exact absurd hvalue (hremovable.operands _ hlt j hj htarget)
      · obtain ⟨k, hk, rfl⟩ := exists_embed hx
        rw [bypass_embed hp hb, renumber_embed hk]
        rfl
  · intro t' ht'
    dsimp only at ht'
    cases htarget : j.target with
    | none =>
      rw [htarget] at ht'
      cases ht'
    | some t =>
      rw [htarget] at ht'
      refine ⟨t, rfl, fun d hd => ?_⟩
      rcases hplaced t htarget with rfl | ht
      · have hnext := (renumber_eq_some.mp ht').2
        rw [bypass, if_pos rfl] at hnext
        refine iff_of_false (fun h => embed_ne hp hb d h.symm) ?_
        rintro rfl
        rw [kind_remove] at hd
        have hlt := lt_of_child (Pairing.mem_children_of_input hj htarget)
        exact hremovable.follower _ hlt j hj htarget _ hnext hd
      · obtain ⟨k, hk, rfl⟩ := exists_embed ht
        rw [bypass_embed hp hb, renumber_embed hk] at ht'
        cases ht'
        exact strictMono_embed.injective.eq_iff

theorem agreesBlock_remove (i : BlockRef) : AgreesBlock (p.workspace.embed b) p (p.remove b) i := by
  refine ⟨by rw [block_remove]; rfl, ?_, ?_⟩
  · have hoperands : (p.remove b).operands ((p.remove b).block i) =
        p.operands (p.block (p.workspace.embed b i)) := by
      rw [block_remove]
      exact operands_rewire p.workspace b _ p
    rw [hoperands, block_remove]
    refine forall₂_map_right_iff.mpr (forall₂_same.mpr fun j hj => ?_)
    exact agreesInput_remove hp hb hoff hchain hremovable hj
  · intro hstart
    rw [kind_remove] at hstart
    exact sameStart_remove hp hb hoff hremovable hstart

/-- A returned value calls the functions that it called. -/
theorem returnsOwnCall_remove {r : BlockRef} (hkind : (p.remove b).kind r = .functionReturn)
    (name : String) :
    p.returnsOwnCall name (p.workspace.embed b r) = (p.remove b).returnsOwnCall name r := by
  have hsound := remove_sound hp hb
  have hblock := agreesBlock_remove hp hb hoff hchain hremovable r
  have hvalue := hblock.inputTarget? (mem_operands hkind (.head _))
  unfold returnsOwnCall
  rw [hvalue]
  cases ht : ((p.remove b).block r).inputTarget? returnValueInput with
  | none => rfl
  | some t =>
    rw [ht, Option.map_some] at hvalue
    obtain ⟨j, hj, _, hjt⟩ := Pairing.exists_input_of_target ht
    obtain ⟨i, hi, _, hit⟩ := Pairing.exists_input_of_target hvalue
    have htlt := hsound.child_lt r t (Pairing.mem_children_of_input hj hjt)
    have hlt := (embed_lt_iff t).mpr htlt
    have hrlt := lt_of_child (Pairing.mem_children_of_input hi hit)
    rw [kind_remove] at hkind
    rw [Option.map_some, Option.any_some, Option.any_some, Bool.eq_iff_iff, any_eq_true,
      any_eq_true]
    constructor
    · rintro ⟨x, hx, hcall⟩
      have hunder := (mem_descendants hp hlt).mp hx
      -- a call in the removed block would be below the returned value with the block
      have hstays : ¬ p.workspace.Within b x := by
        intro hwithin
        have hbelow := under_of_within hp (not_within_embed hp hb t) hunder hwithin
        exact hremovable.calls _ hrlt hkind _ hvalue ((mem_descendants hp hlt).mpr hbelow)
          x ((mem_subtree hp).mpr hwithin) (eq_of_beq (Bool.and_eq_true_iff.mp hcall).1)
      obtain ⟨d, _, rfl⟩ := exists_embed ((mem_kept hp).mpr ⟨Under.lt hp hlt hunder, hstays⟩)
      refine ⟨d, (mem_descendants_remove hp hb htlt).mp hx, ?_⟩
      rw [kind_remove, functionName?_remove]
      exact hcall
    · rintro ⟨d, hd, hcall⟩
      rw [kind_remove, functionName?_remove] at hcall
      exact ⟨_, (mem_descendants_remove hp hb htlt).mpr hd, hcall⟩

theorem agrees_remove : Agrees (p.workspace.embed b) p (p.remove b) := by
  have hblock := agreesBlock_remove hp hb hoff hchain hremovable
  refine
    { left_sound := hp, right_sound := remove_sound hp hb, surface := rfl, vars := rfl
      mono := strictMono_embed, lt := embed_lt_iff
      ids := fun i => (read_remove Block.id p b (fun _ => rfl) i).symm
      enabled := fun i => (isEnabled_remove hp hb i).symm, covers := ?_
      top := fun i _ henabled => isNone_parent_remove hp hb hremovable henabled
      chain := ?_, under := under_remove hp hb, within := within_remove hp hb
      descendants := fun d hd => descendants_enabled hp hb hoff hd, block := fun i _ => hblock i
      definition := ?_, identifiers := ?_
      ownCall := fun r _ _ hkind => returnsOwnCall_remove hp hb hoff hchain hremovable hkind
      typed := ?_ }
  · intro x hx henabled
    obtain ⟨i, _, hi⟩ :=
      exists_embed (mem_kept_of_enabled hp hb hoff hx henabled)
    exact ⟨i, hi⟩
  · intro i hi _
    have hself := sameEnabled_bypass hp hb hoff (t := some (p.workspace.embed b i)) fun x hx => by
      cases hx
      exact .inr (embed_mem hi)
    rw [bypass_embed hp hb, renumber_embed hi] at hself
    exact hself
  · intro name
    unfold functionDefinition?
    rw [← head?_filter, ← head?_filter, ← head?_map]
    congr 1
    refine filter_definitions_remove hp hremovable
      (fun x hx => eq_of_beq (Bool.and_eq_true_iff.mp hx).1) fun i => ?_
    show _ = ((p.remove b).kind i == .functionDefinition &&
      ((p.remove b).block i).functionName? == some name)
    rw [kind_remove, functionName?_remove]
    rfl
  · unfold functionIdentifiers
    rw [filter_definitions_remove hp hremovable (fun _ => of_decide_eq_true)
      fun i => by rw [← kind_remove], filterMap_map]
    refine filterMap_congr fun i _ => ?_
    rw [functionName?_remove]
    rfl
  · intro i _ _ _ _ n hn
    unfold isTyped
    rw [(hblock i).inputTarget? hn, read_remove (·.hasInput n) p b
      (fun block => hasInput_rewire p.workspace b block n), Option.any_map]
    simp only [kind_remove]

end Agreement

/-- A program that is built from blocks has the same output as without one of its disabled
statements, if no step that sees disabled blocks misses the statement. -/
theorem compile_eq_remove {p : Program} {surface : Surface} {specs : List BlockSpec}
    {vars : List VariableModel} (hp : Workspace.build surface specs vars = .ok p.workspace)
    {b : BlockRef}
    (hb : b < p.workspace.size) (hoff : (p.block b).enabled = false)
    (hchain : p.workspace.InChain b) (hremovable : p.Removable b) (options : CompileOptions) :
    p.compile options = (p.remove b).compile options :=
  (agrees_remove (build_sound hp) hb hoff hchain hremovable).compile_eq options

/-- A loop over an assignment, and what comes before the assignment. -/
def loopBlocks (first : String) (between : List BlockSpec) : List BlockSpec :=
  { id := "loop", tag := "controls_repeat_ext",
    inputs := [("TIMES", .value, none), ("DO", .statement, some first)], next := some "change" } ::
  between ++
  [{ id := "set", tag := "variables_set", fields := [⟨"VAR", "x"⟩],
     inputs := [("VALUE", .value, none)] },
   { id := "change", tag := "variables_change", fields := [⟨"VAR", "x"⟩],
     inputs := [("VALUE", .value, none)] }]

/-- A disabled assignment of a text, in front of the enabled one. -/
def disabledAssignment : List BlockSpec :=
  [{ id := "off", tag := "variables_set", enabled := false, fields := [⟨"VAR", "y"⟩],
     inputs := [("VALUE", .value, some "inner")], next := some "set" },
   { id := "inner", tag := "text", fields := [⟨"TEXT", "z"⟩] }]

theorem compile_eq_loop :
    (Program.ofBlocks (loopBlocks "off" disabledAssignment)).remove 1 =
      Program.ofBlocks (loopBlocks "set" []) ∧
    (Program.ofBlocks (loopBlocks "off" disabledAssignment)).compile {} =
      ((Program.ofBlocks (loopBlocks "off" disabledAssignment)).remove 1).compile {} := by
  have hp : build {} (loopBlocks "off" disabledAssignment) [] =
      .ok (ofBlocks (loopBlocks "off" disabledAssignment)).workspace := by decide +kernel
  have hremovable : (ofBlocks (loopBlocks "off" disabledAssignment)).Removable 1 := by
    constructor <;> decide +kernel
  exact ⟨by decide +kernel, compile_eq_remove hp (by decide +kernel) (by decide +kernel)
    (by decide +kernel) hremovable {}⟩

/-- A disabled statement that an assignment follows. -/
def interruption : List BlockSpec :=
  [{ id := "off", tag := "break_keyword", enabled := false, next := some "set" },
   { id := "set", tag := "variables_set", fields := [⟨"VAR", "x"⟩],
     inputs := [("VALUE", .value, none)] }]

/-- A chain at the top that starts with a disabled statement is skipped, so that the assignment is
lost, which the program without the statement has. -/
theorem compile_skips_chain :
    (Program.ofBlocks interruption).workspace.parent? 0 = none ∧
    (Program.ofBlocks interruption).role? 0 = some .looseChain ∧
    ((Program.ofBlocks interruption).block 0).enabled = false ∧
    ((Program.ofBlocks interruption).compile {}).map (·.source) = .ok "" ∧
    (((Program.ofBlocks interruption).remove 0).compile {}).map (·.source) =
      .ok "let x = 0;\n" := by
  refine ⟨?_, ?_, ?_, ?_, ?_⟩ <;> decide +kernel

end BlockProgram
