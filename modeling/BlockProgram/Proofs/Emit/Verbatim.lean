import BlockProgram.Compile.Output
import BlockProgram.Proofs.Scope.Sites
import BlockProgram.Proofs.Scope.Types
import BlockProgram.Proofs.Text.Inline
import BlockProgram.Proofs.Workspace.HostKind

/-!
# What a program says word for word

Most of the output is made up while it is written. The rest stands in the program and is copied
(`texts`): the names of the host, types, raw expressions, field and image literals. A
program is flush if these texts are (`IsFlush`), which can be decided.
-/

namespace BlockProgram

open Program List

/-! ## Texts that are copied -/

def Block.types (b : Block) : List TypeName :=
  b.output.getD [] ++ b.args.map (·.type) ++
    ((b.mutation.bind Mutation.declaredVariables?).getD []).map (·.2)

/-- The properties of the object pattern of a block. -/
def Block.properties (b : Block) : List String :=
  match b.mutation with
  | some (.destructuring properties) => properties.map (·.1)
  | _ => []

/-- The text of a literal or of raw code that a block is written as. -/
def Block.literal (b : Block) : List String :=
  match b.kind with
  | .fieldLiteral => [(b.fields.head?.map (·.value)).getD ""]
  | .rawExpression => [Text.trimmed ((b.field? "EXPRESSION").getD "")]
  | .mathBinary name | .mathUnary name => [name]
  | _ => []

def Program.image (p : Program) (b : Block) : List String :=
  match b.kind with
  | .hostCall name =>
    if (p.surface.symbol? name).any (·.isImageLiteral) then
      [(b.fields.head?.map (·.value)).getD ""]
    else []
  | _ => []

/-- All that is copied from a block. -/
def Program.blockTexts (p : Program) (b : Block) : List String :=
  b.types ++ b.properties ++ b.literal ++ p.image b

/-- What is copied from a symbol of the host. -/
def Symbol.texts (s : Symbol) : List String :=
  [s.nameSpace, s.name] ++ s.defaultInstance.toList ++ s.parameters.flatMap Parameter.checks ++
    (s.handler.getD []).map (·.type)

/-- What is copied from the enums and kinds of the host and their members. -/
def Program.memberTexts (p : Program) : List String :=
  p.surface.enums.flatMap (fun e => e.name :: (e.members p.workspace.vars).map (·.name)) ++
    p.surface.kinds.flatMap fun k => k.name :: k.createFunction :: k.members p.workspace.vars

/-- The texts of a program that may be copied to the output. -/
def Program.texts (p : Program) : List String :=
  p.workspace.refs.flatMap (fun b => p.blockTexts (p.block b)) ++
    p.surface.symbols.values.flatMap Symbol.texts ++ p.memberTexts ++
    p.workspace.vars.flatMap (·.type.toList)

/-- Whether a use of a symbol is written as a call, and not as a property. -/
def Program.isCalled (p : Program) (s : Symbol) : Bool :=
  let mark := (splitMark (p.calleeOf s).name).2
  mark ≠ some "get" && mark ≠ some "set" && mark ≠ some "change"

/-- What is copied from the program is flush, and what takes a handler is called. -/
def Program.IsFlush (p : Program) : Prop :=
  (∀ t ∈ p.texts, Text.IsFlush t) ∧
    ∀ s ∈ p.surface.symbols.values, s.hasHandler = true → p.isCalled s = true

instance decidableFlushProgram (p : Program) : Decidable p.IsFlush :=
  inferInstanceAs (Decidable (_ ∧ _))

variable {p : Program}

namespace Program.IsFlush

variable (hp : p.IsFlush)
include hp

theorem block (b : BlockRef) {t : String} (ht : t ∈ p.blockTexts (p.block b)) : Text.IsFlush t := by
  have hb : b ∈ p.workspace.refs := by
    refine mem_range.mpr (Nat.lt_of_not_le fun hge => ?_)
    have hnone : p.block b = default := by
      unfold Program.block Workspace.block
      rw [Array.getElem?_eq_none hge]
      rfl
    rw [hnone] at ht
    cases ht
  refine hp.1 t ?_
  unfold texts
  simp only [mem_append, mem_flatMap]
  exact .inl (.inl (.inl ⟨b, hb, ht⟩))

theorem property (b : BlockRef) {t : String} (ht : t ∈ (p.block b).properties) :
    Text.IsFlush t := by
  refine hp.block b ?_
  simp only [blockTexts, mem_append]
  exact .inl (.inl (.inr ht))

theorem literal (b : BlockRef) {t : String} (ht : t ∈ (p.block b).literal) : Text.IsFlush t := by
  refine hp.block b ?_
  simp only [blockTexts, mem_append]
  exact .inl (.inr ht)

theorem image (b : BlockRef) {t : String} (ht : t ∈ p.image (p.block b)) : Text.IsFlush t := by
  refine hp.block b ?_
  simp only [blockTexts, mem_append]
  exact .inr ht

theorem symbol {name : String} {s : Symbol} (hs : p.surface.symbol? name = some s)
    {t : String} (ht : t ∈ s.texts) : Text.IsFlush t := by
  refine hp.1 t ?_
  unfold texts
  simp only [mem_append, mem_flatMap]
  exact .inl (.inl (.inr ⟨s, Table.mem_values_of_get? hs, ht⟩))

theorem member {t : String} (ht : t ∈ p.memberTexts) : Text.IsFlush t := by
  refine hp.1 t ?_
  unfold texts
  simp only [mem_append]
  exact .inl (.inr ht)

/-- The types that a flush program names are flush. -/
theorem names : p.Names Text.IsFlush where
  output b types htypes t ht := by
    refine hp.block b ?_
    unfold blockTexts Block.types
    rw [htypes]
    simp [ht]
  argument b a ha := by
    refine hp.block b ?_
    unfold blockTexts Block.types
    simp only [mem_append]
    exact .inl (.inl (.inl (.inl (.inr (mem_map_of_mem ha)))))
  property b m hm properties hproperties q hq := by
    refine hp.block b ?_
    unfold blockTexts Block.types
    rw [hm, Option.bind_some, hproperties]
    simp only [mem_append]
    exact .inl (.inl (.inl (.inr (mem_map_of_mem hq))))
  parameter name symbol hsymbol q hq t ht := by
    refine hp.symbol hsymbol ?_
    unfold Symbol.texts
    simp only [mem_append, mem_flatMap]
    exact .inl (.inr ⟨q, hq, ht⟩)
  handler name symbol hsymbol parameters hparameters h hh := by
    refine hp.symbol hsymbol ?_
    unfold Symbol.texts
    rw [hparameters]
    exact mem_append_right _ (mem_map_of_mem hh)
  binding v hv t ht := by
    refine hp.1 t ?_
    unfold texts
    simp only [mem_append, mem_flatMap]
    exact .inr ⟨v, hv, Option.mem_toList.mpr ht⟩

end Program.IsFlush

/-- Flush texts pass as types: lists of a flush type and its items are flush. -/
theorem vocabulary_isFlush : TypeGraph.Vocabulary Text.IsFlush where
  constant := by decide
  listOf t ht := ht.append (by decide)
  element t ht u hu := by
    rw [TypeName.eq_listOf_of_element? hu] at ht
    exact ht.left

end BlockProgram
