import BlockProgram.Proofs.Compile.Declarations
import BlockProgram.Proofs.Emit.Forward
import BlockProgram.Proofs.Text.Spelling

/-!
# User functions in the output

Every selected function definition is written under the identifier of its name, and different
definitions have different names. Their identifiers differ as well if the names are spelled alike,
and an identifier is reserved exactly if its name is (`compile_functions`).

Otherwise functions run together: the identifiers of user functions are not made fresh as those of
variables are (`compile_confuses_functions`).
-/

namespace BlockProgram

open Compilation Program List

variable {p : Program} {c : Compilation} {b : BlockRef} {e : Emitter}

/-- The function definitions among the top blocks, in output order. -/
def Program.writtenFunctions (p : Program) : List BlockRef :=
  ((p.tops p.selectTops).map Prod.fst).filter fun b => decide (p.kind b = .functionDefinition)

/-- A part of the source that was made from block `id` defines a function under the name `x`. -/
def Output.Defines (out : Output) (id x : String) : Prop :=
  ∃ entry ∈ out.map, entry.id = id ∧
    ∃ rest, entry.Marks out.source ("function " ++ x ++ "(" ++ rest)

/-! ## Names of definitions -/

theorem role?_function (hkind : p.kind b = .functionDefinition) : p.role? b = some .container := by
  have hcontainer : p.isContainer b = true := by
    unfold isContainer
    rw [hkind]
  unfold role?
  rw [if_neg (by rw [hkind]; decide), if_pos hcontainer]

/-- A function definition is selected as a container only. -/
theorem role_eq_container {role : TopRole} (htop : (b, role) ∈ p.tops p.selectTops)
    (hkind : p.kind b = .functionDefinition) : role = .container := by
  have hrole := (mem_tops_selectTops htop).2.2.1
  rw [role?_function hkind] at hrole
  exact (Option.some.inj hrole).symm

theorem mem_writtenFunctions : b ∈ p.writtenFunctions ↔
    (b, TopRole.container) ∈ p.tops p.selectTops ∧ p.kind b = .functionDefinition := by
  unfold writtenFunctions
  rw [mem_filter, decide_eq_true_eq, mem_map]
  constructor
  · rintro ⟨⟨⟨x, role⟩, htop, rfl⟩, hkind⟩
    exact ⟨role_eq_container htop hkind ▸ htop, hkind⟩
  · exact fun ⟨htop, hkind⟩ => ⟨⟨_, htop, rfl⟩, hkind⟩

theorem lt_size_of_mem_tops {role : TopRole} (h : (b, role) ∈ p.tops p.selectTops) :
    b < p.workspace.size :=
  mem_range.mp (mem_filter.mp (mem_tops_selectTops h).1).1

theorem structuralKey_function (hb : b < p.workspace.size)
    (hkind : p.kind b = .functionDefinition) :
    p.structuralKey b = "function " ++ (p.block b).functionName?.getD "" := by
  obtain ⟨n, hn⟩ := Nat.exists_eq_succ_of_ne_zero (Nat.ne_zero_of_lt hb)
  unfold structuralKey
  rw [hn]
  exact if_pos hkind

/-- No two functions of the output have the same name. -/
theorem name_ne_of_mem_writtenFunctions {b' : BlockRef} (hb : b ∈ p.writtenFunctions)
    (hb' : b' ∈ p.writtenFunctions) (hne : b ≠ b') :
    (p.block b).functionName?.getD "" ≠ (p.block b').functionName?.getD "" := by
  obtain ⟨htop, hkind⟩ := mem_writtenFunctions.mp hb
  obtain ⟨htop', hkind'⟩ := mem_writtenFunctions.mp hb'
  have hkeyed : ∀ {b}, p.kind b = .functionDefinition → p.IsKeyed b := by
    intro b h
    refine ⟨.inr (role?_function h), ?_⟩
    unfold allowsMultiple symbolOf?
    rw [h]
    rfl
  have hkeys := structuralKey_ne_of_holds (mem_tops.mp htop) (mem_tops.mp htop') (hkeyed hkind)
    (hkeyed hkind') hne
  rw [structuralKey_function (lt_size_of_mem_tops htop) hkind,
    structuralKey_function (lt_size_of_mem_tops htop') hkind'] at hkeys
  exact fun h => hkeys (congrArg _ h)

/-! ## Code of definitions -/

/-- A line that was made from a function definition, under the identifier of its name. -/
def IsFunctionLine (p : Program) (b : BlockRef) (line : Code) : Prop :=
  line.tag.id = some (p.block b).id ∧ ∃ name rest, (p.block b).functionName? = some name ∧
    line.source = "function " ++ functionIdentifier name ++ "(" ++ rest

theorem IsFunctionLine.separated {line : Code} (h : IsFunctionLine p b line) (blank : Bool) :
    IsFunctionLine p b (line.separated blank) := by
  obtain ⟨hid, name, rest, hname, hsource⟩ := h
  refine ⟨(Code.id_separated line blank).trans hid, name, rest, hname, ?_⟩
  rw [← hsource]
  exact Code.source_withTag _ line

theorem yields_namedDefinition (he : EmitsForward p e) (b : BlockRef) :
    Yields p c (p.emitFunctionDefinition e b) fun code =>
      IsFunctionLine p b (code.named (p.block b).id) := by
  unfold emitFunctionDefinition
  split
  · next name hname =>
    have hparameters := Forward.mapM (p := p) (forward_emitParameter b) (p.block b).args
    refine (hparameters c).bind fun parameters _ => ?_
    refine (yields_functionTypeName name).bind fun result _ => ?_
    refine (forward_emitBody he _ c).bind fun body _ => .pure ⟨Code.id_named rfl _, name, ?_⟩
    refine ⟨commaList parameters ++ ")" ++ resultAnnotation result ++ " " ++ body.source, hname, ?_⟩
    rw [Code.named, Code.source_withTag]
    simp only [Code.source, Code.ofParts, Code.ofText, Code.write, Code.writeParts,
      Code.record_text, String.append_empty, String.append_assoc]
    rw [Code.write_text 0 _ 0 body]
  · exact yields_fail b _ _

theorem yields_functionStatement (hb : b < p.workspace.size)
    (hkind : p.kind b = .functionDefinition) :
    Yields p c (p.emitter.statement b) fun lines => ∃ line ∈ lines, IsFunctionLine p b line := by
  obtain ⟨n, hn⟩ := Nat.exists_eq_succ_of_ne_zero (Nat.ne_zero_of_lt hb)
  have hlines : p.emitLines (p.emitterFrom n) b =
      (do return [← p.emitFunctionDefinition (p.emitterFrom n) b]) := by
    have hblock : (p.block b).kind = .functionDefinition := hkind
    unfold emitLines
    dsimp only
    rw [hblock]
  unfold emitter
  rw [hn]
  show Yields p c (p.emitLines (p.emitterFrom n) b >>= fun lines =>
    pure (nameLast (p.block b).id lines)) _
  rw [hlines, bind_assoc]
  refine (yields_namedDefinition (emitsForward_emitterFrom n) b).bind fun code h => ?_
  exact .pure ⟨_, .head _, h⟩

theorem exists_mem_separateFirst {lines : List Code} (h : ∃ line ∈ lines, IsFunctionLine p b line) :
    ∃ line ∈ separateFirst lines, IsFunctionLine p b line := by
  obtain ⟨line, hmem, hline⟩ := h
  cases lines with
  | nil => cases hmem
  | cons first rest =>
    rcases mem_cons.mp hmem with rfl | hmem
    · exact ⟨_, .head _, hline.separated true⟩
    · exact ⟨line, .tail _ hmem, hline⟩

theorem yields_functionTop (hb : b < p.workspace.size) (hkind : p.kind b = .functionDefinition) :
    Yields p c (p.emitTop (b, .container)) fun lines =>
      ∃ line ∈ lines, IsFunctionLine p b line := by
  show Yields p c (emitLink p.emitter b >>= fun lines =>
    pure (separateFirst lines)) _
  have hlink : Yields p c (emitLink p.emitter b) fun lines =>
      ∃ line ∈ lines, IsFunctionLine p b line := by
    refine (forward_emitDeclarations b c).bind fun declarations _ => ?_
    refine (yields_functionStatement hb hkind).bind fun lines h => .pure ?_
    obtain ⟨line, hmem, hline⟩ := h
    exact ⟨line, mem_append_right _ hmem, hline⟩
  exact hlink.bind fun lines h => .pure (exists_mem_separateFirst h)

theorem forward_emitTop (top : BlockRef × TopRole) : Forward p (p.emitTop top) := by
  have he := emitsForward_emitter p
  have hlines : Forward p (p.emitTopLines top.1 top.2) := by
    cases top.2 with
    | start => exact forward_emitLink he top.1
    | container => exact forward_emitLink he top.1
    | looseChain => exact forward_emitChain he (some top.1)
  exact hlines.bind fun _ => .pure _

/-- The code of a program has a line for each function definition that was selected. -/
theorem yields_functionLines (p : Program) (c : Compilation) :
    Yields p c (p.emitProgram (p.tops p.selectTops)) fun code =>
      ∀ b ∈ p.writtenFunctions, ∃ line ∈ code, IsFunctionLine p b line := by
  have htop : ∀ top ∈ p.tops p.selectTops, Yields p c (p.emitTop top) fun lines =>
      top.1 ∈ p.writtenFunctions → ∃ line ∈ lines, IsFunctionLine p top.1 line := by
    rintro ⟨b, role⟩ hmem
    by_cases hb : b ∈ p.writtenFunctions
    · obtain ⟨_, hkind⟩ := mem_writtenFunctions.mp hb
      obtain rfl := role_eq_container hmem hkind
      exact (yields_functionTop (lt_size_of_mem_tops hmem) hkind).imp fun _ h _ => h
    · exact (forward_emitTop (b, role) c).imp fun _ _ h => absurd h hb
  unfold emitProgram
  refine yields_emitRootDeclarations.bind fun declarations _ => ?_
  refine (Yields.mapM htop).bind fun liness h => .pure ?_
  intro b hb
  have hflip : List.Forall₂ (fun lines (top : BlockRef × TopRole) => top.1 ∈ p.writtenFunctions →
      ∃ line ∈ lines, IsFunctionLine p top.1 line) liness (p.tops p.selectTops) := h.flip
  obtain ⟨lines, hlines, hline⟩ := exists_left_of_forall₂ hflip (mem_writtenFunctions.mp hb).1
  obtain ⟨line, hmem, hdefines⟩ := hline hb
  exact ⟨line, mem_append_right _ (mem_flatten.mpr ⟨lines, hlines, hmem⟩), hdefines⟩

/-! ## The output -/

theorem Code.mem_partsAll {c : Code} {cs : List Code} (depth : Nat) (h : c ∈ cs) :
    (depth, c) ∈ partsAll depth cs := by
  induction cs with
  | nil => cases h
  | cons d r ih =>
    rw [partsAll]
    rcases mem_cons.mp h with rfl | h
    · refine mem_append_left _ ?_
      cases c <;> exact .head _
    · exact mem_append_right _ (ih h)

/-- The map has an entry for every line that was made from a block. -/
theorem Code.exists_entry {lines : List Code} {line : Code} (hline : line ∈ lines) {id : String}
    (hid : line.tag.id = some id) :
    ∃ e ∈ (layOut lines).map, e.id = id ∧ e.Marks (layOut lines).text line.source := by
  have hpart : (0, line) ∈ (partsAll 0 lines).filter isNamed :=
    mem_filter.mpr ⟨mem_partsAll 0 hline, by rw [isNamed, hid]; rfl⟩
  obtain ⟨e, he, hname, hoccurs⟩ :=
    exists_left_of_forall₂ (traces_writeStatements 0 0 true lines).occurs hpart
  rw [hid] at hname
  exact ⟨e, he, (Option.some.inj hname).symm, hoccurs.marks⟩

/-- The functions in the output of a program. Each is defined there under the identifier of its
name, which is a reserved word exactly if the name is one but for blanks around it. Different
definitions have different names, and different identifiers if their names are spelled alike. -/
theorem compile_functions {options : CompileOptions} {out : Output}
    (hout : p.compile options = .ok out) :
    (∀ b ∈ p.writtenFunctions, ∃ name, (p.block b).functionName? = some name ∧
      out.Defines (p.block b).id (Program.functionIdentifier name) ∧
      (Program.functionIdentifier name ∈ Text.reservedWords ↔
        Text.trimmed name ∈ Text.reservedWords)) ∧
    ∀ b ∈ p.writtenFunctions, ∀ b' ∈ p.writtenFunctions, b ≠ b' → ∀ name name',
      (p.block b).functionName? = some name → (p.block b').functionName? = some name' →
      name ≠ name' ∧ ∀ sep, Text.SpelledWith sep name → Text.SpelledWith sep name' →
        Program.functionIdentifier name ≠ Program.functionIdentifier name' := by
  have hidle := idle_tracked p
  obtain ⟨d, code, d', hinfer, hemit, rfl⟩ := stages_of_compile hout
  obtain ⟨hd, -⟩ := (Ensures.of_ok (moves_infer hidle) hinfer).1 hidle.consistent
  have hlines := (Ensures.of_ok (yields_functionLines p d d hd (Advances.refl d)) hemit).2
  refine ⟨fun b hb => ?_, fun b hb b' hb' hne name name' hname hname' => ?_⟩
  · obtain ⟨line, hmem, hid, name, rest, hname, hsource⟩ := hlines b hb
    obtain ⟨e, he, heid, hmarks⟩ := Code.exists_entry hmem hid
    exact ⟨name, hname, ⟨e, he, heid, rest, hsource ▸ hmarks⟩,
      Text.identifier_mem_reservedWords name⟩
  · have hnames := name_ne_of_mem_writtenFunctions hb hb' hne
    rw [hname, hname'] at hnames
    exact ⟨hnames, fun sep h h' heq => hnames ((h.identifier_inj h').mp heq)⟩

def emptyFunction (id name : String) : BlockSpec where
  id := id
  tag := "function_definition"
  fields := [⟨"function_name", name⟩]
  inputs := [("STACK", .statement, none)]

/-- Two functions whose names have a space between their words. -/
def spaced : Program :=
  .ofBlocks [emptyFunction "f" "do it", emptyFunction "g" "do that"]

theorem compile_functions_spaced : spaced.writtenFunctions = [1, 0] ∧
    ∃ out, spaced.compile {} = .ok out ∧ out.Defines "f" "do_it" ∧ out.Defines "g" "do_that" ∧
      Program.functionIdentifier "do it" ≠ Program.functionIdentifier "do that" := by
  have hwritten : spaced.writtenFunctions = [1, 0] := by decide +kernel
  have hnames : (spaced.block 0).id = "f" ∧ (spaced.block 0).functionName? = some "do it" ∧
      (spaced.block 1).id = "g" ∧ (spaced.block 1).functionName? = some "do that" := by
    decide +kernel
  obtain ⟨hidf, hf, hidg, hg⟩ := hnames
  have hcompiles : (spaced.compile {}).isOk = true := by decide +kernel
  refine ⟨hwritten, ?_⟩
  cases hout : spaced.compile {} with
  | error f =>
    rw [hout] at hcompiles
    cases hcompiles
  | ok out =>
    obtain ⟨hdefined, hapart⟩ := compile_functions hout
    rw [hwritten] at hdefined hapart
    obtain ⟨name, hname, hdefines, _⟩ := hdefined 0 (by decide)
    obtain ⟨name', hname', hdefines', _⟩ := hdefined 1 (by decide)
    rw [hf] at hname
    rw [hg] at hname'
    cases hname
    cases hname'
    refine ⟨out, rfl, hidf ▸ hdefines, hidg ▸ hdefines', ?_⟩
    exact (hapart 0 (by decide) 1 (by decide) (by decide) _ _ hf hg).2 ' ' (by decide) (by decide)

/-- Two functions whose names differ in a character that cannot stand in an identifier, and one that
is called by a reserved word. -/
def confusing : Program :=
  .ofBlocks [emptyFunction "f" "a b", emptyFunction "g" "a_b", emptyFunction "h" "class"]

/-- Two functions are written under the same identifier, and one under a reserved word. -/
theorem compile_confuses_functions : confusing.writtenFunctions = [2, 1, 0] ∧
    (confusing.block 0).functionName? = some "a b" ∧
    (confusing.block 1).functionName? = some "a_b" ∧
    (confusing.block 2).functionName? = some "class" ∧ "class" ∈ Text.reservedWords ∧
    (confusing.compile {}).map (fun out => (out.source, out.map)) =
      .ok ("function class() \x7b\n\x7d\n\nfunction a_b() \x7b\n\x7d\n\n" ++
          "function a_b() \x7b\n\x7d\n",
        [⟨0, 20, "h"⟩, ⟨22, 18, "g"⟩, ⟨42, 18, "f"⟩]) := by
  decide +kernel

end BlockProgram
