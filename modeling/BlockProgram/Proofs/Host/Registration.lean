import BlockProgram.Host.Surface
import BlockProgram.Proofs.Table
import Mathlib.Data.List.Induction

/-!
# What a block type stands for

A surface keeps its symbols by qualified name, and for a block type only the qualified name of the
symbol that was registered for it last. So the symbol that a block type stands for is what was
registered last under that name: where the name is registered once more, for another block type or
for none, the block type stands for the new symbol (`symbolForBlock_faithful_iff`).
-/

namespace BlockProgram

open List

namespace Symbol

variable {p : Symbol → Bool}

/-! ## Completing a symbol -/

theorem qualifiedName_completed (s : Symbol) : s.completed.qualifiedName = s.qualifiedName := by
  unfold completed
  split
  · split <;> rfl
  · rfl

theorem blockType_completed (s : Symbol) : s.completed.blockType = s.blockType := by
  unfold completed
  split
  · split <;> rfl
  · rfl

end Symbol

namespace Surface

/-! ## One registration -/

theorem symbol?_addSymbol (name : String) (surface : Surface) (s : Symbol) :
    (surface.addSymbol s).symbol? name =
      if s.qualifiedName == name then some s.completed else surface.symbol? name := by
  show (surface.symbols.insert s.completed.qualifiedName s.completed).get? name = _
  rw [Table.get?_insert, Symbol.qualifiedName_completed]
  simp only [beq_iff_eq, eq_comm (b := name)]
  rfl

theorem byBlockType_addSymbol (t : String) (surface : Surface) (s : Symbol) :
    (surface.addSymbol s).byBlockType.get? t =
      if s.blockType == some t then some s.qualifiedName else surface.byBlockType.get? t := by
  show (indexBlockType surface.byBlockType s.completed).get? t = _
  unfold indexBlockType
  rw [Symbol.blockType_completed, Symbol.qualifiedName_completed]
  cases s.blockType with
  | none => rfl
  | some b =>
    show (surface.byBlockType.insert b s.qualifiedName).get? t = _
    rw [Table.get?_insert]
    simp only [beq_iff_eq, Option.some.injEq, eq_comm (b := t)]

/-! ## Any number of registrations -/

def lastWith (p : Symbol → Bool) (symbols : List Symbol) : Option Symbol :=
  (symbols.filter p).getLast?

theorem lastWith_concat (p : Symbol → Bool) (symbols : List Symbol) (s : Symbol) :
    lastWith p (symbols ++ [s]) = if p s then some s else lastWith p symbols := by
  unfold lastWith
  rw [filter_append]
  by_cases hs : p s = true
  · rw [if_pos hs, filter_cons_of_pos hs, filter_nil, getLast?_concat]
  · rw [if_neg hs, filter_cons_of_neg hs, filter_nil, append_nil]

theorem lastWith_eq_none {symbols : List Symbol} :
    lastWith p symbols = none ↔ ∀ s ∈ symbols, ¬ p s := by
  unfold lastWith
  rw [getLast?_eq_none_iff, filter_eq_nil_iff]

/-- A symbol with the property stands behind those before it. -/
theorem lastWith_append_cons {s : Symbol} (hs : p s) (before after : List Symbol) :
    lastWith p (before ++ s :: after) = some ((lastWith p after).getD s) := by
  unfold lastWith
  rw [filter_append, filter_cons_of_pos hs, getLast?_append, getLast?_cons]
  rfl

/-- What each registration with a property sets is as the last of them has left it. -/
theorem read_addSymbols {α : Type} (read : Surface → Option α)
    {value : Symbol → α} (hempty : read {} = none)
    (hstep : ∀ surface s, read (surface.addSymbol s) = if p s then some (value s) else read surface)
    (symbols : List Symbol) :
    read (symbols.foldl addSymbol {}) = (lastWith p symbols).map value := by
  induction symbols using List.reverseRecOn with
  | nil => exact hempty
  | append_singleton symbols s ih =>
    rw [foldl_append, lastWith_concat]
    show read ((symbols.foldl addSymbol {}).addSymbol s) = _
    rw [hstep, ih]
    split <;> rfl

theorem symbolForBlock?_addSymbols (symbols : List Symbol) (t : String) :
    (symbols.foldl addSymbol {}).symbolForBlock? t =
      (lastWith (·.blockType == some t) symbols).bind fun s =>
        (lastWith (·.qualifiedName == s.qualifiedName) symbols).map Symbol.completed := by
  unfold symbolForBlock?
  have hname := read_addSymbols (·.byBlockType.get? t) rfl (byBlockType_addSymbol t) symbols
  rw [hname, Option.bind_map]
  congr 1
  funext s
  exact read_addSymbols (·.symbol? _) rfl (symbol?_addSymbol s.qualifiedName) symbols

/-! ## The last symbol for a block type -/

/-- Symbol `s` is the last of the symbols that is for block type `t`; those `after` it are not. -/
structure IsLastFor (t : String) (symbols : List Symbol) (s : Symbol) (after : List Symbol) :
    Prop where
  blockType : s.blockType = some t
  others : ∀ r ∈ after, r.blockType ≠ some t
  split : ∃ before, symbols = before ++ s :: after

theorem IsLastFor.lastWith_eq {t : String} {symbols after : List Symbol} {s : Symbol}
    (h : IsLastFor t symbols s after) : lastWith (·.blockType == some t) symbols = some s := by
  obtain ⟨before, rfl⟩ := h.split
  have hnone : lastWith (·.blockType == some t) after = none := by
    rw [lastWith_eq_none]
    intro r hr
    simpa using h.others r hr
  rw [lastWith_append_cons (by simp [h.blockType]), hnone]
  rfl

/-- After any registrations, a block type stands for nothing exactly if no symbol was registered for
it. Otherwise it stands for what was registered last under the name of the last symbol for it. That
is this symbol if and only if no other one has taken the name since. -/
theorem symbolForBlock_faithful_iff (symbols : List Symbol) (t : String) :
    ((symbols.foldl addSymbol {}).symbolForBlock? t = none ↔
      ∀ s ∈ symbols, s.blockType ≠ some t) ∧
    ∀ s after, IsLastFor t symbols s after →
      (symbols.foldl addSymbol {}).symbolForBlock? t =
        some ((lastWith (·.qualifiedName == s.qualifiedName) after).getD s).completed ∧
      ((symbols.foldl addSymbol {}).symbolForBlock? t = some s.completed ↔
        ∀ r, lastWith (·.qualifiedName == s.qualifiedName) after = some r →
          r.completed = s.completed) := by
  constructor
  · have hnone : (∀ s ∈ symbols, s.blockType ≠ some t) ↔
        lastWith (·.blockType == some t) symbols = none := by
      rw [lastWith_eq_none]
      simp
    rw [hnone, symbolForBlock?_addSymbols]
    cases hlast : lastWith (·.blockType == some t) symbols with
    | none => simp
    | some s =>
      have hs : s ∈ symbols := mem_of_mem_filter (mem_of_getLast? hlast)
      obtain ⟨before, after, rfl⟩ := append_of_mem hs
      rw [Option.bind_some, lastWith_append_cons (by simp)]
      simp
  · intro s after h
    have hanswer : (symbols.foldl addSymbol {}).symbolForBlock? t =
        some ((lastWith (·.qualifiedName == s.qualifiedName) after).getD s).completed := by
      rw [symbolForBlock?_addSymbols, h.lastWith_eq, Option.bind_some]
      obtain ⟨before, rfl⟩ := h.split
      rw [lastWith_append_cons (by simp)]
      rfl
    refine ⟨hanswer, ?_⟩
    rw [hanswer, Option.some.injEq]
    cases lastWith (·.qualifiedName == s.qualifiedName) after with
    | none => simp
    | some r => simp

def showNumber : Symbol :=
  { nameSpace := "basic", name := "show", result := TypeName.void, blockType := some "show_number"
    parameters := [{ name := "value", type := TypeName.number }] }

/-- Shows a text, under the name that shows a number too. -/
def showText : Symbol :=
  { nameSpace := "basic", name := "show", result := TypeName.void, blockType := some "show_text"
    parameters := [{ name := "text", type := TypeName.text }], isExtensionMethod := true }

theorem showNumber_isLastFor :
    IsLastFor "show_number" [showNumber, showText] showNumber [showText] :=
  ⟨rfl, by decide, [], rfl⟩

theorem symbolForBlock_faithful_overloaded :
    IsLastFor "show_number" [showNumber, showText] showNumber [showText] ∧
    ([showNumber, showText].foldl addSymbol {}).symbolForBlock? "show_number" =
      some showText.completed ∧
    ([showNumber, showText].foldl addSymbol {}).symbolForBlock? "show_list" = none := by
  have hboth := symbolForBlock_faithful_iff [showNumber, showText] "show_number"
  refine ⟨showNumber_isLastFor, (hboth.2 _ _ showNumber_isLastFor).1, ?_⟩
  exact (symbolForBlock_faithful_iff [showNumber, showText] "show_list").1.mpr (by decide)

/-- The block type of a symbol whose name is taken by another one stands for that one. -/
theorem symbolForBlock_overloaded :
    IsLastFor "show_number" [showNumber, showText] showNumber [showText] ∧
    ([showNumber, showText].foldl addSymbol {}).symbolForBlock? "show_number" ≠
      some showNumber.completed :=
  ⟨showNumber_isLastFor, by decide⟩

end Surface

end BlockProgram
