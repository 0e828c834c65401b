import BlockProgram.Proofs.Emit.Pieces
import BlockProgram.Proofs.Workspace.Removal

/-!
# Code for a block and for a chain

The code of a block, once it carries the id of the block, is spelled out by the blocks within it. If
it stands as a value, no declaration can be put in front of it (`Made.value`). If it stands in a
chain, its declarations come first, then its lines, then those of what follows it (`Lined.link`):
the declarations are in front of the whole rest of the chain, because what follows a statement may
use them too.
-/

namespace BlockProgram

open Compilation Code List Workspace Program

variable {p : Program} {L : BlockRef → Bool} {c : Compilation} {b t x : BlockRef}

/-- A block is below what follows a statement. -/
def Follows (p : Program) (b x : BlockRef) : Prop :=
  ∃ n, (p.block b).next = some n ∧ p.workspace.Under n x

theorem follows_under {k : BlockRef} (hk : Follows p b k) (hx : p.workspace.Under k x) :
    Follows p b x :=
  hk.imp fun _ hn => ⟨hn.1, hn.2.trans hx⟩

/-- No variable that is used is declared in front of a block. -/
def Plain (c : Compilation) (t : BlockRef) : Prop :=
  ∀ v ∈ c.declarationsAt t, (c.binding v).references = []

/-! ## Within a block and after it -/

section Forest

variable (hws : p.workspace.Sound)

include hws

theorem not_follows_of_within (hx : p.workspace.Within b x) : ¬ Follows p b x := by
  rintro ⟨n, hn, hnx⟩
  exact not_within_of_next hws.toIsForest hn hnx hx

theorem not_among_targets_self : ¬ Among p (p.block b).targets b := by
  rintro ⟨t, ht, htb⟩
  exact not_under_of_parent hws.toIsForest (parent_of_target hws ht) htb

theorem under_iff_within_or_follows :
    p.workspace.Under b x ↔ p.workspace.Within b x ∨ Follows p b x := by
  constructor
  · intro hx
    by_cases hwithin : p.workspace.Within b x
    · exact .inl hwithin
    · exact .inr (under_next hws hx hwithin)
  · rintro (hx | ⟨n, hn, hnx⟩)
    · exact hx.under hws.toIsForest
    · exact (under_of_next hws.toIsForest hn).trans hnx

variable (hc : Sited p L c)

include hc

/-- Variables that are declared in front of blocks below a block are not used by the block. -/
theorem not_mem_references_of_among {k : BlockRef} (hk : Among p (p.block b).targets k)
    {v : BindingId} (hv : v ∈ c.declarationsAt k) : b ∉ (c.binding v).references :=
  fun hb => not_among_targets_self hws (among_under hk (hc.below v k hv b hb).1)

/-! ## A block by itself -/

theorem Spelled.own {code : Code} (hb : b < p.workspace.size)
    (h : Spelled p c (Among p (p.block b).targets) (Among p (p.block b).targets) code.marks) :
    Spelled p c (p.workspace.Within b) (Among p (p.block b).targets)
      (code.named (p.block b).id).marks := by
  have hwide : Spelled p c (p.workspace.Within b) (Among p (p.block b).targets) code.marks :=
    h.widen (fun _ => .inr) (fun _ hx => hx) fun _ hk hnot => absurd hk hnot
  exact hwide.named_code hb (.inl rfl) fun k hk v hv => not_mem_references_of_among hws hc hk hv

/-- What follows a block has no part in its code. -/
theorem Spelled.alone {ms : List Mark}
    (h : Spelled p c (p.workspace.Within b) (p.workspace.Within b) ms) :
    Spelled p c (p.workspace.Within b) (p.workspace.Under b) ms := by
  refine h.widen (fun _ hx => hx) (fun x hx => (under_iff_within_or_follows hws).mpr (.inl hx)) ?_
  intro k hk hnot v hv r hr hwithin
  have hfollows := ((under_iff_within_or_follows hws).mp hk).resolve_left hnot
  exact not_follows_of_within hws hwithin (follows_under hfollows (hc.below v k hv r hr).1)

theorem Made.value (hplain : Plain c t) {code : Code} (ht : t < p.workspace.size)
    (h : Spelled p c (Among p (p.block t).targets) (Among p (p.block t).targets) code.marks) :
    Made p c b [t] (code.named (p.block t).id).marks := by
  intro _ _
  have hown := Spelled.own hws hc ht h
  have hwithin : Spelled p c (p.workspace.Within t) (p.workspace.Within t)
      (code.named (p.block t).id).marks := by
    refine hown.widen (fun _ hx => hx) (fun _ => .inr) ?_
    rintro k (rfl | hk) hnot v hv r hr
    · rw [hplain v hv] at hr
      cases hr
    · exact absurd hk hnot
  refine (hwithin.alone hws hc).widen ?_ (fun x => among_singleton.mpr) ?_
  · exact fun x hx => among_singleton.mpr ((under_iff_within_or_follows hws).mpr (.inl hx))
  · exact fun k hk hnot => absurd (among_singleton.mp hk) hnot

end Forest

/-! ## Lines -/

/-- Lines account for some blocks, and those that carry no id have nothing in them that does. -/
structure Lined (p : Program) (c : Compilation) (R S : BlockRef → Prop) (lines : List Code) :
    Prop where
  bare : ∀ x ∈ lines, x.tag.id = none → x.marks = []
  spelled : Spelled p c R S (lineMarks lines)

def IsDeclaration (c : Compilation) (v : BindingId) (line : Code) : Prop :=
  ∃ type, line = .statement [.ofText (Program.declarationText (c.outputName v) type)]

theorem shows_declarations {vs : List BindingId} {lines : List Code}
    (h : List.Forall₂ (IsDeclaration c) vs lines) :
    List.Forall₂ (Shows p c) (vs.map .declares) (lineMarks lines) := by
  induction h with
  | nil =>
    rw [lineMarks_nil]
    exact .nil
  | @cons v line vs lines hline _ ih =>
    obtain ⟨type, rfl⟩ := hline
    rw [lineMarks_cons, ownLine_statement_ofText, marks_statement, partMarks_cons, marks_ofText]
    exact .cons (.declares v type) ih

theorem marks_of_declarations {vs : List BindingId} {lines : List Code}
    (h : List.Forall₂ (IsDeclaration c) vs lines) : ∀ x ∈ lines, x.marks = [] := by
  induction h with
  | nil => exact fun _ hx => by cases hx
  | cons hline _ ih =>
    obtain ⟨type, rfl⟩ := hline
    refine forall_mem_cons.mpr ⟨?_, ih⟩
    rw [marks_statement, partMarks_cons, marks_ofText, partMarks_nil]
    rfl

theorem nameLast_append_singleton (id : String) (init : List Code) (line : Code) :
    nameLast id (init ++ [line]) = init ++ [line.named id] := by
  induction init with
  | nil => rfl
  | cons first init ih =>
    have hcons : ∀ rest, rest ≠ [] →
        nameLast id (first :: rest) = first :: nameLast id rest := by
      intro rest hrest
      cases rest with
      | nil => exact absurd rfl hrest
      | cons => rfl
    rw [cons_append, hcons _ (by simp), ih, cons_append]

namespace Lined

variable {R S R' S' : BlockRef → Prop} {lines more rest : List Code}

theorem nil (R S : BlockRef → Prop) : Lined p c R S [] where
  bare _ hx := by cases hx
  spelled := by
    rw [lineMarks_nil]
    exact .nil R S

theorem widen (h : Lined p c R S lines) (hR : ∀ x, R x → R' x) (hS : ∀ x, S x → S' x)
    (hnew : ∀ k, S' k → ¬ S k → ∀ v ∈ c.declarationsAt k, ∀ r ∈ (c.binding v).references, ¬ R r) :
    Lined p c R' S' lines :=
  ⟨h.bare, h.spelled.widen hR hS hnew⟩

theorem congr (h : Lined p c R S lines) (hR : ∀ x, R x ↔ R' x) (hS : ∀ x, S x ↔ S' x) :
    Lined p c R' S' lines :=
  ⟨h.bare, h.spelled.congr hR hS⟩

theorem append (hc : Sited p L c) (h : Lined p c R S lines) (h' : Lined p c R' S' more)
    (hSR : ∀ k, S k → ∀ x, p.workspace.Under k x → ¬ R' x)
    (hRS : ∀ k, S' k → ∀ x, p.workspace.Under k x → ¬ R x) (hSS : ∀ k, S k → ¬ S' k) :
    Lined p c (fun x => R x ∨ R' x) (fun x => S x ∨ S' x) (lines ++ more) where
  bare x hx := (mem_append.mp hx).elim (h.bare x) (h'.bare x)
  spelled := by
    rw [lineMarks_append]
    exact h.spelled.append hc h'.spelled hSR hRS hSS

theorem singleton {code : Code} {id : String} (h : Spelled p c R S (code.named id).marks) :
    Lined p c R S [code.named id] where
  bare x hx hid := by
    rw [mem_singleton.mp hx] at hid
    exact absurd hid (id_named_ne_none code id)
  spelled := by
    rw [lineMarks_cons, lineMarks_nil, ownLine_named, append_nil, nil_append]
    exact h

theorem declare (hc : Sited p L c) (h : Lined p c R S lines) (hb : ¬ S b)
    (hdeclarations : List.Forall₂ (IsDeclaration c) (c.declarationsAt b) more) :
    Lined p c R (fun x => x = b ∨ S x) (more ++ lines) where
  bare x hx hid := by
    rcases mem_append.mp hx with hx | hx
    · exact marks_of_declarations hdeclarations x hx
    · exact h.bare x hx hid
  spelled := by
    obtain ⟨l, hl, haccounts⟩ := h.spelled
    refine ⟨_, ?_, haccounts.declare hc hb⟩
    rw [lineMarks_append]
    exact rel_append (shows_declarations hdeclarations) hl

section Forest

variable (hws : p.workspace.Sound) (hc : Sited p L c)

include hws hc

/-- A statement with its declarations and what follows it. -/
theorem link (h : Lined p c (p.workspace.Within b) (Among p (p.block b).targets) lines)
    (hrest : Lined p c (Follows p b) (Follows p b) rest)
    (hdeclarations : List.Forall₂ (IsDeclaration c) (c.declarationsAt b) more) :
    Lined p c (p.workspace.Under b) (p.workspace.Under b) (more ++ (lines ++ rest)) := by
  have hapart : ∀ x, p.workspace.Within b x → ¬ Follows p b x :=
    fun _ => not_follows_of_within hws
  have hboth := h.append hc hrest (fun k hk x hx => hapart x (.inr (among_under hk hx)))
    (fun k hk x hx hwithin => hapart x hwithin (follows_under hk hx))
    (fun k hk => hapart k (.inr hk))
  have hb : ¬ (Among p (p.block b).targets b ∨ Follows p b b) := by
    rintro (hb | hb)
    · exact not_among_targets_self hws hb
    · exact hapart b (.inl rfl) hb
  refine (hboth.declare hc hb hdeclarations).congr (fun x => ?_) fun x => ?_
  · exact (under_iff_within_or_follows hws).symm
  · exact or_assoc.symm.trans (under_iff_within_or_follows hws).symm

/-- A statement that is left out. No variable has its declaration in front of it. -/
theorem skip (hdead : L b = false) (hrest : Lined p c (Follows p b) (Follows p b) rest) :
    Lined p c (p.workspace.Under b) (p.workspace.Under b) rest := by
  have hunder : ∀ x, Follows p b x → p.workspace.Under b x :=
    fun x hx => (under_iff_within_or_follows hws).mpr (.inr hx)
  refine hrest.widen hunder hunder ?_
  intro k hk hnot v hv r hr hfollows
  obtain ⟨hkr, hheads⟩ := hc.below v k hv r hr
  rcases ((under_iff_within_or_follows hws).mp hk).resolve_right hnot with rfl | hamong
  · rw [hheads.live] at hdead
    cases hdead
  · exact not_follows_of_within hws (.inr (among_under hamong hkr)) hfollows

/-- The lines of a statement once the last of them carries its id. -/
theorem nameLast (hb : b < p.workspace.size)
    (h : Lined p c (Among p (p.block b).targets) (Among p (p.block b).targets) lines) :
    Lined p c (p.workspace.Within b) (Among p (p.block b).targets)
      (nameLast (p.block b).id lines) := by
  have hwide : Lined p c (p.workspace.Within b) (Among p (p.block b).targets) lines :=
    h.widen (fun _ => .inr) (fun _ hx => hx) fun _ hk hnot => absurd hk hnot
  rcases eq_nil_or_concat lines with rfl | ⟨init, line, rfl⟩
  · exact .nil _ _
  rw [concat_eq_append] at hwide ⊢
  rw [nameLast_append_singleton]
  refine ⟨?_, ?_⟩
  · intro x hx hid
    rcases mem_append.mp hx with hx | hx
    · exact hwide.bare x (mem_append_left _ hx) hid
    · rw [mem_singleton.mp hx] at hid
      exact absurd hid (id_named_ne_none line _)
  · have hspelled := hwide.spelled
    rw [lineMarks_append, lineMarks_cons, lineMarks_nil, append_nil]
      at hspelled ⊢
    rw [ownLine_named, marks_named, nil_append]
    cases hid : line.tag.id with
    | some id =>
      unfold ownLine at hspelled
      rw [hid] at hspelled
      exact hspelled
    | none =>
      -- the line is a declaration
      rw [hwide.bare line (mem_append_right _ (mem_singleton_self line)) hid]
        at hspelled ⊢
      unfold ownLine at hspelled
      rw [hid] at hspelled
      exact hspelled.rename hb (.inl rfl) fun k hk v hv =>
        not_mem_references_of_among hws hc hk hv

end Forest

end Lined

end BlockProgram
