import BlockProgram.Proofs.Compile.Selection
import BlockProgram.Proofs.Pairing.Compile
import Mathlib.Data.List.Sort

/-!
# Programs that agree where they are enabled

A program `p` has the blocks of a program `q` among its own, and the function `e` says where. The
two *agree* (`Agrees e p q`) when `p` enables no further blocks, when the blocks that are enabled
are the same in both, and when the places that look at blocks without asking whether they are
enabled find the same: definitions of functions, calls in returned values, literals in host calls,
lists that generic results are read from.

What agrees is live at the same places (`Agrees.isLive`).
-/

namespace BlockProgram

open List Program

/-- A block without its place in the program. -/
def Block.content (b : Block) : Block :=
  { b with id := "", enabled := true, inputs := [], next := none }

/-- An enabled block reads a generic result from the block, or it is the block. -/
def Program.IsRead (p : Program) (b : BlockRef) : Prop :=
  ∃ r < p.workspace.size, p.workspace.isEnabled r = true ∧ p.ReadsFrom r b

section Definitions

variable (e : BlockRef → BlockRef) (p q : Program)

/-- The enabled statements of two chains are the same. -/
def SameEnabled (first first' : Option BlockRef) : Prop :=
  (p.workspace.chain first).filter p.workspace.isEnabled =
    ((q.workspace.chain first').filter q.workspace.isEnabled).map e

/-- Two inputs hold the same, as far as it is read. -/
structure AgreesInput (operands : List String) (i j : Input) : Prop where
  name : i.name = j.name
  kind : i.kind = j.kind
  target : j.kind = .value ∨ j.name ∈ operands → i.target = j.target.map e
  chain : SameEnabled e p q i.target j.target
  /-- What is plugged in has something beside it, and both are a definition or neither is. -/
  opens : ∀ t', j.target = some t' → ∃ t, i.target = some t ∧
    ∀ d, q.kind d = .functionDefinition → (t = e d ↔ t' = d)

/-- A block is the same in both programs, as far as it is read. -/
structure AgreesBlock (b : BlockRef) : Prop where
  content : (p.block (e b)).content = (q.block b).content
  inputs : List.Forall₂ (AgreesInput e p q (q.operands (q.block b)))
    (p.block (e b)).inputs (q.block b).inputs
  start : q.kind b = .onStart →
    SameEnabled e p q ((p.block (e b)).statementInputs.findSome? (·.target))
      ((q.block b).statementInputs.findSome? (·.target))

/-- The programs agree where they are enabled. -/
structure Agrees : Prop where
  left_sound : p.workspace.Sound
  right_sound : q.workspace.Sound
  surface : p.surface = q.surface
  vars : p.workspace.vars = q.workspace.vars
  mono : StrictMono e
  lt : ∀ b, e b < p.workspace.size ↔ b < q.workspace.size
  ids : ∀ b, (p.block (e b)).id = (q.block b).id
  enabled : ∀ b, p.workspace.isEnabled (e b) = q.workspace.isEnabled b
  covers : ∀ x < p.workspace.size, p.workspace.isEnabled x = true → ∃ b, e b = x
  top : ∀ b < q.workspace.size, q.workspace.isEnabled b = true →
    (p.workspace.parent? (e b)).isNone = (q.workspace.parent? b).isNone
  chain : ∀ b < q.workspace.size, q.workspace.isEnabled b = true →
    SameEnabled e p q (some (e b)) (some b)
  under : ∀ a b, p.workspace.Under (e a) (e b) ↔ q.workspace.Under a b
  within : ∀ a b, p.workspace.Within (e a) (e b) ↔ q.workspace.Within a b
  descendants : ∀ d < q.workspace.size,
    (p.workspace.descendants (e d)).filter p.workspace.isEnabled =
      ((q.workspace.descendants d).filter q.workspace.isEnabled).map e
  block : ∀ b, q.IsRead b → AgreesBlock e p q b
  definition : ∀ name, p.workspace.functionDefinition? name =
    (q.workspace.functionDefinition? name).map e
  identifiers : p.functionIdentifiers = q.functionIdentifiers
  ownCall : ∀ r < q.workspace.size, q.workspace.isEnabled r = true → q.kind r = .functionReturn →
    ∀ name, p.returnsOwnCall name (e r) = q.returnsOwnCall name r
  typed : ∀ b < q.workspace.size, q.workspace.isEnabled b = true →
    ∀ name, q.kind b = .hostCall name →
      ∀ n ∈ q.operands (q.block b), p.isTyped (p.block (e b)) n = q.isTyped (q.block b) n

end Definitions

variable {e : BlockRef → BlockRef} {p q : Program} {c d : Compilation} {b : BlockRef}

/-! ## Reading blocks -/

/-- The items of matching lists that stand beside each other are items of the lists. -/
theorem forall₂_mem {α β : Type} {R : α → β → Prop} {l : List α} {k : List β}
    (h : List.Forall₂ R l k) : List.Forall₂ (fun a b => R a b ∧ a ∈ l ∧ b ∈ k) l k :=
  forall₂_iff_zip.mpr ⟨h.length_eq, fun hab => ⟨forall₂_zip h hab, of_mem_zip hab⟩⟩

/-- Lists in document order that hold the same blocks. -/
theorem filter_range_of_strictMono {e : Nat → Nat} (hmono : StrictMono e) {m n : Nat}
    (hlt : ∀ b, e b < m ↔ b < n) {f g : Nat → Bool} (hfg : ∀ b < n, f (e b) = g b)
    (hcovers : ∀ x < m, f x = true → ∃ b, e b = x) :
    (List.range m).filter f = ((List.range n).filter g).map e := by
  have hleft : ((List.range m).filter f).Pairwise (· < ·) := pairwise_lt_range.filter _
  have hright : (((List.range n).filter g).map e).Pairwise (· < ·) := by
    refine List.Pairwise.map e (fun a b hab => hmono hab) ?_
    exact pairwise_lt_range.filter _
  refine hleft.eq_of_mem_iff hright ?_
  intro x
  simp only [mem_map, mem_filter, mem_range]
  constructor
  · rintro ⟨hx, hfx⟩
    obtain ⟨b, rfl⟩ := hcovers x hx hfx
    have hb := (hlt b).mp hx
    exact ⟨b, ⟨hb, (hfg b hb).symm.trans hfx⟩, rfl⟩
  · rintro ⟨b, ⟨hb, hgb⟩, rfl⟩
    exact ⟨(hlt b).mpr hb, (hfg b hb).trans hgb⟩

namespace AgreesBlock

variable (hb : AgreesBlock e p q b)
include hb

/-- What is read off the content of a block. -/
theorem read {α : Type} (f : Block → α) (hf : ∀ x, f x.content = f x) :
    f (p.block (e b)) = f (q.block b) := by
  rw [← hf (p.block (e b)), ← hf (q.block b), hb.content]

theorem kind : p.kind (e b) = q.kind b :=
  hb.read Block.kind fun _ => rfl

theorem tag : (p.block (e b)).tag = (q.block b).tag :=
  hb.read Block.tag fun _ => rfl

theorem fields : (p.block (e b)).fields = (q.block b).fields :=
  hb.read Block.fields fun _ => rfl

theorem functionName? : (p.block (e b)).functionName? = (q.block b).functionName? :=
  hb.read Block.functionName? fun _ => rfl

theorem hasOutput : (p.block (e b)).hasOutput = (q.block b).hasOutput :=
  hb.read Block.hasOutput fun _ => rfl

theorem valueInputs : List.Forall₂ (AgreesInput e p q (q.operands (q.block b)))
    (p.block (e b)).valueInputs (q.block b).valueInputs :=
  filter_of_forall₂ hb.inputs fun i j h => by rw [h.kind]

theorem statementInputs : List.Forall₂ (AgreesInput e p q (q.operands (q.block b)))
    (p.block (e b)).statementInputs (q.block b).statementInputs :=
  filter_of_forall₂ hb.inputs fun i j h => by rw [h.kind]

/-- What is plugged into an input that is read as a value. -/
theorem inputTarget? {name : String} (hname : name ∈ q.operands (q.block b)) :
    (p.block (e b)).inputTarget? name = ((q.block b).inputTarget? name).map e := by
  have hfind := find?_of_forall₂ (f := fun i => i.name == name) (g := fun i => i.name == name)
    hb.inputs fun i j h => by rw [h.name]
  unfold Block.inputTarget? Block.input?
  rcases hfind with ⟨hi, hj⟩ | ⟨i, j, hi, hj, hij⟩
  · rw [hi, hj]
    rfl
  · rw [hi, hj]
    have hjname : j.name = name := by simpa using find?_some hj
    exact hij.target (.inr (hjname ▸ hname))

end AgreesBlock

namespace Agrees

variable (h : Agrees e p q)
include h

theorem injective : Function.Injective e :=
  h.mono.injective

theorem blockAt (hb : b < q.workspace.size) (henabled : q.workspace.isEnabled b = true) :
    AgreesBlock e p q b :=
  h.block b ⟨b, hb, henabled, .refl⟩

theorem filter_refs {f g : BlockRef → Bool} (hfg : ∀ b < q.workspace.size, f (e b) = g b)
    (hcovers : ∀ x < p.workspace.size, f x = true → ∃ b, e b = x) :
    p.workspace.refs.filter f = (q.workspace.refs.filter g).map e :=
  filter_range_of_strictMono h.mono h.lt hfg hcovers

/-! ## What is live -/

/-- The same blocks are live when the same top blocks are switched off. -/
theorem isLive (hdisabled : c.disabled = d.disabled.map e) (b : BlockRef) :
    p.isLive c (e b) = q.isLive d b := by
  rw [Bool.eq_iff_iff, isLive_iff h.left_sound, isLive_iff h.right_sound, h.enabled,
    hdisabled]
  refine and_congr_right fun _ => ?_
  constructor
  · intro hleft a ha ha'
    exact hleft (e a) ((h.under a b).mpr ha) (mem_map_of_mem ha')
  · intro hright a ha ha'
    obtain ⟨x, hx, rfl⟩ := mem_map.mp ha'
    exact hright x ((h.under x b).mp ha) hx

/-- Live blocks of the one program are blocks of the other. -/
theorem covers_live {x : BlockRef} (hx : x < p.workspace.size) (hlive : p.isLive c x = true) :
    ∃ b, e b = x :=
  h.covers x hx ((isLive_iff h.left_sound).mp hlive).1

theorem filter_live (hdisabled : c.disabled = d.disabled.map e) :
    p.workspace.refs.filter (p.isLive c) = (q.workspace.refs.filter (q.isLive d)).map e :=
  h.filter_refs (fun b _ => h.isLive hdisabled b) fun _ hx => h.covers_live hx

/-- The live blocks of two lists whose enabled blocks are the same. -/
theorem filter_live_of_enabled (hdisabled : c.disabled = d.disabled.map e) {l k : List BlockRef}
    (hlk : l.filter p.workspace.isEnabled = (k.filter q.workspace.isEnabled).map e) :
    l.filter (p.isLive c) = (k.filter (q.isLive d)).map e := by
  have hsplit : ∀ (p : Program) (c : Compilation) (l : List BlockRef),
      l.filter (p.isLive c) = (l.filter p.workspace.isEnabled).filter (p.isLive c) := by
    intro p c l
    rw [filter_filter]
    refine filter_congr fun x _ => ?_
    unfold Program.isLive
    cases p.workspace.isEnabled x <;> simp
  rw [hsplit p, hlk, hsplit q, filter_map]
  congr 1
  exact filter_congr fun b _ => h.isLive hdisabled b

end Agrees

end BlockProgram
