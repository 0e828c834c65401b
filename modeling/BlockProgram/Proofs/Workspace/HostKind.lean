import BlockProgram.Document.Surface
import BlockProgram.Proofs.Table
import BlockProgram.Proofs.Workspace.Forest

/-!
# Host calls name host symbols

A surface registers every symbol under its own name (`registered_readSurface`), so a block of a
built workspace that uses the host names a symbol of the surface (`symbol_of_hostCall`).
-/

namespace BlockProgram

open Workspace

variable {surface : Surface}

/-! ## Surfaces -/

/-- Every symbol is registered under its own name. -/
def Surface.Registered (s : Surface) : Prop :=
  ∀ name symbol, s.symbol? name = some symbol → symbol.qualifiedName = name

theorem registered_empty : ({} : Surface).Registered := by
  intro name symbol h
  cases h

theorem registered_addSymbol {s : Surface} (h : s.Registered) (symbol : Symbol) :
    (s.addSymbol symbol).Registered := by
  intro name x hx
  have hinsert : (s.symbols.insert symbol.completed.qualifiedName symbol.completed).get? name =
      some x := hx
  rw [Table.get?_insert] at hinsert
  split at hinsert
  · next hname =>
    cases hinsert
    exact hname.symm
  · exact h name x hinsert

theorem registered_readSurface {v : Json} {s : Surface} (h : Document.readSurface v = .ok s) :
    s.Registered := by
  have hfold : ∀ (symbols : List Symbol) (s : Surface), s.Registered →
      (symbols.foldl Surface.addSymbol s).Registered := by
    intro symbols
    induction symbols with
    | nil => exact fun s hs => hs
    | cons symbol r ih => exact fun s hs => ih _ (registered_addSymbol hs symbol)
  unfold Document.readSurface at h
  obtain ⟨symbols, _, h⟩ := ok_of_bind h
  obtain ⟨enums, _, h⟩ := ok_of_bind h
  obtain ⟨kinds, _, h⟩ := ok_of_bind h
  cases h
  exact hfold symbols {} registered_empty

/-! ## Kinds -/

def BlockKind.hostName? : BlockKind → Option String
  | .hostCall name => some name
  | _ => none

namespace Workspace

theorem hostName?_plainKinds : ∀ e ∈ plainKinds, e.2.1.hostName? = none := by
  decide

theorem hostName?_operatorKind {tag op : String} {k : BlockKind × Option (List TypeName)}
    (h : operatorKind? tag op = some k) : k.1.hostName? = none := by
  unfold operatorKind? at h
  split at h
  · cases h
    cases ArithmeticOp.ofField? op <;> rfl
  split at h
  · cases h
    cases CompareOp.ofField? op <;> rfl
  split at h
  · cases h
    cases BoolOp.ofField? op <;> rfl
  split at h
  · cases h
    rfl
  split at h
  · cases h
    rfl
  · cases h

theorem symbol_of_resolveKind (hsurface : surface.Registered)
    {spec : BlockSpec} {name : String} (h : (resolveKind surface spec).1 = .hostCall name) :
    (surface.symbol? name).isSome := by
  unfold resolveKind at h
  dsimp only at h
  split at h
  · next k hk =>
    have hnone := hostName?_plainKinds _ (Table.mem_of_lookup hk)
    rw [h] at hnone
    cases hnone
  · next k _ hk =>
    have hnone := hostName?_operatorKind hk
    rw [h] at hnone
    cases hnone
  · split at h
    · cases h
    · split at h
      · next symbol hsymbol =>
        cases h
        obtain ⟨qualified, _, hq⟩ := Option.bind_eq_some_iff.mp hsymbol
        rw [hsurface qualified symbol hq, hq]
        rfl
      · split at h
        · cases h
        · cases h

theorem resolveBlock_kind {ids : List String} {spec : BlockSpec} {b : Block}
    (h : resolveBlock surface ids spec = .ok b) : b.kind = (resolveKind surface spec).1 := by
  unfold resolveBlock at h
  obtain ⟨inputs, _, h⟩ := ok_of_bind h
  obtain ⟨next, _, h⟩ := ok_of_bind h
  cases h
  rfl

/-- Blocks that use the host name one of its symbols. -/
def NamesSymbols (surface : Surface) (blocks : Array Block) : Prop :=
  ∀ (b : BlockRef) block, blocks[b]? = some block → ∀ name, block.kind = .hostCall name →
    (surface.symbol? name).isSome

theorem addBlock_namesSymbols (hsurface : surface.Registered) {ids : List String}
    {spec : BlockSpec} {acc acc' : Array Block × Array (Option BlockRef)}
    (hacc : NamesSymbols surface acc.1) (h : addBlock surface ids acc spec = .ok acc') :
    NamesSymbols surface acc'.1 := by
  obtain ⟨b, parents, hb, _, rfl⟩ := exists_of_addBlock h
  intro x block hblock name hkind
  rw [Array.getElem?_push] at hblock
  split at hblock
  · cases hblock
    rw [resolveBlock_kind hb] at hkind
    exact symbol_of_resolveKind hsurface hkind
  · exact hacc x block hblock name hkind

/-- A block of a built workspace that uses the host names a symbol of the surface. -/
theorem symbol_of_hostCall (hsurface : surface.Registered)
    {specs : List BlockSpec} {vars : List VariableModel} {ws : Workspace}
    (h : build surface specs vars = .ok ws) {b : BlockRef} (hb : b < ws.size) {name : String}
    (hkind : ws.kind b = .hostCall name) : (surface.symbol? name).isSome := by
  have hempty : NamesSymbols surface #[] := by
    intro b block hblock
    simp at hblock
  have hnames := addBlocks_induction (J := fun _ acc => NamesSymbols surface acc.1)
    (fun _ _ _ _ => addBlock_namesSymbols hsurface) [] hempty (exists_of_build h).2.1
  refine hnames b ws.blocks[b] (Array.getElem?_eq_getElem hb) name ?_
  unfold kind block at hkind
  rw [Array.getElem?_eq_getElem hb] at hkind
  exact hkind

end Workspace

end BlockProgram
