import Mathlib.Data.List.Perm.Subperm
import BlockProgram.Proofs.Emit.Signs

/-!
# Code for what is plugged into a block

The code of a block is put together from code for the blocks that are plugged into it, and no block
has two places. `Made b ts ms` says that marks `ms` come from the blocks `ts` that are plugged into
`b`: if these are all different, the marks account for the variables that belong in front of blocks
below them. So a rule for a way to put code together only says which blocks were used.
-/

namespace BlockProgram

open Compilation List

variable {b x : BlockRef} {ts us : List BlockRef}

variable {p : Program} {L : BlockRef → Bool} {c : Compilation}

def Among (p : Program) (ts : List BlockRef) (x : BlockRef) : Prop :=
  ∃ t ∈ ts, p.workspace.Under t x

/-- Marks stand for signs that account for some blocks. -/
def Spelled (p : Program) (c : Compilation) (R S : BlockRef → Prop) (ms : List Mark) : Prop :=
  ∃ l, List.Forall₂ (Shows p c) l ms ∧ Accounts p c R S l

/-- Marks come from different blocks that are plugged into a block. -/
def Made (p : Program) (c : Compilation) (b : BlockRef) (ts : List BlockRef) (ms : List Mark) :
    Prop :=
  ts.Nodup → ts ⊆ (p.block b).targets → Spelled p c (Among p ts) (Among p ts) ms

theorem among_mono (h : ts ⊆ us) (hx : Among p ts x) : Among p us x :=
  hx.imp fun _ ht => ⟨h ht.1, ht.2⟩

theorem among_under {ts : List BlockRef} {k x : BlockRef} (hk : Among p ts k)
    (hx : p.workspace.Under k x) : Among p ts x :=
  hk.imp fun _ ht => ⟨ht.1, ht.2.trans hx⟩

theorem among_singleton {t x : BlockRef} : Among p [t] x ↔ p.workspace.Under t x := by
  simp [Among]

theorem among_append : Among p (ts ++ us) x ↔ Among p ts x ∨ Among p us x := by
  constructor
  · rintro ⟨t, ht, hx⟩
    exact (mem_append.mp ht).imp (fun h => ⟨t, h, hx⟩) (fun h => ⟨t, h, hx⟩)
  · rintro (h | h)
    · exact among_mono (subset_append_left ts us) h
    · exact among_mono (subset_append_right ts us) h

/-! ## Spelling -/

namespace Spelled

variable {R S R' S' : BlockRef → Prop} {ms ms' : List Mark}

theorem nil (R S : BlockRef → Prop) : Spelled p c R S [] :=
  ⟨[], .nil, .nil R S⟩

theorem widen (h : Spelled p c R S ms) (hR : ∀ x, R x → R' x) (hS : ∀ x, S x → S' x)
    (hnew : ∀ k, S' k → ¬ S k → ∀ v ∈ c.declarationsAt k, ∀ r ∈ (c.binding v).references, ¬ R r) :
    Spelled p c R' S' ms := by
  obtain ⟨l, hl, haccounts⟩ := h
  exact ⟨l, hl, haccounts.widen hR hS hnew⟩

theorem braces (h : Spelled p c R S ms) : Spelled p c R S (.opens :: (ms ++ [.closes])) := by
  obtain ⟨l, hl, haccounts⟩ := h
  refine ⟨.opens :: (l ++ [.closes]), .cons .opens ?_, haccounts.braces⟩
  exact rel_append hl (.cons .closes .nil)

theorem named (h : Spelled p c R S ms) (hlt : b < p.workspace.size) (hb : R b)
    (hfree : ∀ k, S k → ∀ v ∈ c.declarationsAt k, b ∉ (c.binding v).references) :
    Spelled p c R S (.part (p.block b).id :: ms) := by
  obtain ⟨l, hl, haccounts⟩ := h
  exact ⟨.block b :: l, .cons (.block b hlt) hl, haccounts.named hb hfree⟩

/-- Code that is named with a block unless it has a name. -/
theorem named_code {code : Code} (h : Spelled p c R S code.marks) (hlt : b < p.workspace.size)
    (hb : R b) (hfree : ∀ k, S k → ∀ v ∈ c.declarationsAt k, b ∉ (c.binding v).references) :
    Spelled p c R S (code.named (p.block b).id).marks := by
  rw [Code.marks_named]
  split
  · exact h
  · exact h.named hlt hb hfree

/-- The id of a block in the place of a line without one at the very end. -/
theorem rename {text : String} (h : Spelled p c R S (ms ++ [.line text]))
    (hlt : b < p.workspace.size) (hb : R b)
    (hfree : ∀ k, S k → ∀ v ∈ c.declarationsAt k, b ∉ (c.binding v).references) :
    Spelled p c R S (ms ++ [.part (p.block b).id]) := by
  obtain ⟨l, hl, haccounts⟩ := h
  have hfirst := forall₂_take_append l ms [.line text] hl
  have hlast := forall₂_drop_append l ms [.line text] hl
  obtain ⟨s, rest, hs, hrest, hdrop⟩ := forall₂_cons_right_iff.mp hlast
  rw [forall₂_nil_right_iff.mp hrest] at hdrop
  rw [← take_append_drop ms.length l, hdrop] at haccounts
  cases hs with
  | declares v type =>
    exact ⟨_, rel_append hfirst (.cons (.block b hlt) .nil), haccounts.rename hb hfree⟩

theorem append (hc : Sited p L c) (hl : Spelled p c R S ms) (hr : Spelled p c R' S' ms')
    (hSR : ∀ k, S k → ∀ x, p.workspace.Under k x → ¬ R' x)
    (hRS : ∀ k, S' k → ∀ x, p.workspace.Under k x → ¬ R x) (hSS : ∀ k, S k → ¬ S' k) :
    Spelled p c (fun x => R x ∨ R' x) (fun x => S x ∨ S' x) (ms ++ ms') := by
  obtain ⟨l, hl, hlaccounts⟩ := hl
  obtain ⟨r, hr, hraccounts⟩ := hr
  exact ⟨l ++ r, rel_append hl hr, hlaccounts.append hc hraccounts hSR hRS hSS⟩

theorem congr (h : Spelled p c R S ms) (hR : ∀ x, R x ↔ R' x) (hS : ∀ x, S x ↔ S' x) :
    Spelled p c R' S' ms :=
  h.widen (fun x => (hR x).mp) (fun x => (hS x).mp) fun k hk hnot => absurd ((hS k).mpr hk) hnot

end Spelled

/-! ## Code from several blocks -/

section Forest

variable (hws : p.workspace.Sound)

include hws

theorem parent_of_target {b t : BlockRef} (ht : t ∈ (p.block b).targets) :
    p.workspace.parent? t = some b :=
  hws.parent_eq b t (mem_append_left _ ht)

/-- Different blocks that are plugged into a block have nothing below them in common. -/
theorem not_among_of_nodup (hnodup : (ts ++ us).Nodup) (hsub : ts ++ us ⊆ (p.block b).targets)
    (hx : Among p ts x) : ¬ Among p us x := by
  rintro ⟨u, hu, hux⟩
  obtain ⟨t, ht, htx⟩ := hx
  have heq : t = u := Workspace.eq_of_under_of_sibling hws.toIsForest
    (parent_of_target hws (hsub (mem_append_left us ht)))
    (parent_of_target hws (hsub (mem_append_right ts hu))) htx hux
  exact disjoint_of_nodup_append hnodup ht (heq ▸ hu)

end Forest

namespace Made

variable {b : BlockRef} {ts us : List BlockRef} {ms ns : List Mark}

theorem nil (b : BlockRef) (ts : List BlockRef) : Made p c b ts [] :=
  fun _ _ => Spelled.nil _ _

theorem braces (h : Made p c b ts ms) : Made p c b ts (.opens :: (ms ++ [.closes])) :=
  fun hnodup hsub => (h hnodup hsub).braces

variable (hws : p.workspace.Sound) (hc : Sited p L c)

include hws hc

/-- The variables that belong in front of blocks below further blocks are not used. -/
theorem mono (h : Made p c b ts ms) (hsub : ts.Subperm us) : Made p c b us ms := by
  intro hnodup htargets
  obtain ⟨ts', hperm, hsublist⟩ := hsub
  have hts : ts.Nodup := hperm.nodup_iff.mp (hsublist.nodup hnodup)
  have hsubset : ts ⊆ us := fun t ht => hsublist.subset (hperm.mem_iff.mpr ht)
  refine (h hts fun t ht => htargets (hsubset ht)).widen (fun _ => among_mono hsubset)
    (fun _ => among_mono hsubset) ?_
  rintro k ⟨u, hu, huk⟩ hk v hv r hr ⟨t, ht, htr⟩
  have hur := huk.trans (hc.below v k hv r hr).1
  have heq : u = t := Workspace.eq_of_under_of_sibling hws.toIsForest
    (parent_of_target hws (htargets hu)) (parent_of_target hws (htargets (hsubset ht))) hur htr
  exact hk ⟨t, ht, heq ▸ huk⟩

theorem append (h : Made p c b ts ms) (h' : Made p c b us ns) :
    Made p c b (ts ++ us) (ms ++ ns) := by
  intro hnodup hsub
  have hl := h hnodup.of_append_left fun t ht => hsub (mem_append_left us ht)
  have hr := h' hnodup.of_append_right fun t ht => hsub (mem_append_right ts ht)
  have hapart : ∀ x, Among p ts x → ¬ Among p us x :=
    fun x hx => not_among_of_nodup hws hnodup hsub hx
  refine (hl.append hc hr ?_ ?_ hapart).congr (fun x => among_append.symm)
    (fun x => among_append.symm)
  · exact fun k hk x hx => hapart x (among_under hk hx)
  · exact fun k hk x hx hts => hapart x hts (among_under hk hx)

end Made

/-! ## Ways to account for marks -/

/-- A way to account for the marks of code by the blocks that the code comes from. -/
structure Accounting (M : List BlockRef → List Mark → Prop) : Prop where
  nil (ts : List BlockRef) : M ts []
  braces {ts : List BlockRef} {ms : List Mark} (h : M ts ms) : M ts (.opens :: (ms ++ [.closes]))
  mono {ts us : List BlockRef} {ms : List Mark} (h : M ts ms) (hsub : ts.Subperm us) : M us ms
  append {ts us : List BlockRef} {ms ns : List Mark} (h : M ts ms) (h' : M us ns) :
    M (ts ++ us) (ms ++ ns)

theorem accounting_made (hws : p.workspace.Sound) (hc : Sited p L c) (b : BlockRef) :
    Accounting (Made p c b) :=
  ⟨.nil b, .braces, .mono hws hc, .append hws hc⟩

theorem accounting_true : Accounting fun _ _ => True :=
  ⟨fun _ => trivial, fun _ => trivial, fun _ _ => trivial, fun _ _ => trivial⟩

variable {M : List BlockRef → List Mark → Prop}

/-- Pieces of code, each from blocks of its own. -/
def Pieces (M : List BlockRef → List Mark → Prop) (ts : List BlockRef) (codes : List Code) : Prop :=
  ∃ tss : List (List BlockRef),
    List.Forall₂ (fun us code => M us (Code.marks code)) tss codes ∧ tss.flatten.Subperm ts

namespace Pieces

variable {ts us : List BlockRef} {code : Code} {codes more : List Code}

theorem nil (ts : List BlockRef) : Pieces M ts [] :=
  ⟨[], .nil, nil_subperm⟩

theorem mono (h : Pieces M ts codes) (hsub : ts.Subperm us) : Pieces M us codes := by
  obtain ⟨tss, hmade, hflat⟩ := h
  exact ⟨tss, hmade, hflat.trans hsub⟩

theorem cons (h : M ts code.marks) (hr : Pieces M us codes) :
    Pieces M (ts ++ us) (code :: codes) := by
  obtain ⟨tss, hmade, hflat⟩ := hr
  exact ⟨ts :: tss, .cons h hmade, (subperm_append_left ts).mpr hflat⟩

theorem singleton (h : M ts code.marks) : Pieces M ts [code] :=
  append_nil ts ▸ cons h (nil [])

/-- Pieces of code, one for each member of a list. -/
theorem of_forall₂ {α : Type} {g : α → List BlockRef} {l : List α}
    (h : List.Forall₂ (fun a code => M (g a) (Code.marks code)) l codes) :
    Pieces M (l.flatMap g) codes := by
  induction h with
  | nil => exact nil _
  | cons hfirst _ ih => exact cons hfirst ih

theorem append (h : Pieces M ts codes) (h' : Pieces M us more) :
    Pieces M (ts ++ us) (codes ++ more) := by
  obtain ⟨tss, hmade, hflat⟩ := h
  obtain ⟨uss, hmade', hflat'⟩ := h'
  refine ⟨tss ++ uss, rel_append hmade hmade', ?_⟩
  rw [flatten_append]
  exact hflat.append hflat'

theorem sublist (h : Pieces M ts codes) (hsub : more.Sublist codes) : Pieces M ts more := by
  obtain ⟨tss, hmade, hflat⟩ := h
  suffices hsome : ∃ uss, List.Forall₂ (fun us code => M us (Code.marks code)) uss more ∧
      uss.Sublist tss by
    obtain ⟨uss, hmade', hsublist⟩ := hsome
    exact ⟨uss, hmade', hsublist.flatten.subperm.trans hflat⟩
  clear hflat
  induction hsub generalizing tss with
  | slnil => exact ⟨[], .nil, nil_sublist tss⟩
  | cons code _ ih =>
    cases hmade with
    | @cons us _ tss _ _ hrest =>
      obtain ⟨uss, hmade', hsublist⟩ := ih tss hrest
      exact ⟨uss, hmade', hsublist.cons us⟩
  | cons_cons code _ ih =>
    cases hmade with
    | @cons us _ tss _ hfirst hrest =>
      obtain ⟨uss, hmade', hsublist⟩ := ih tss hrest
      exact ⟨us :: uss, .cons hfirst hmade', hsublist.cons_cons us⟩

theorem text (hM : Accounting M) (s : String) (h : Pieces M ts codes) :
    Pieces M ts (.ofText s :: codes) := by
  have htext : M [] (Code.ofText s).marks := by
    rw [Code.marks_ofText]
    exact hM.nil []
  exact cons htext h

theorem made (hM : Accounting M) (h : Pieces M ts codes) : M ts (Code.partMarks codes) := by
  obtain ⟨tss, hmade, hflat⟩ := h
  refine hM.mono ?_ hflat
  clear hflat
  induction hmade with
  | nil => exact hM.nil _
  | @cons us code tss codes hfirst _ ih =>
    rw [flatten_cons, Code.partMarks_cons]
    exact hM.append hfirst ih

end Pieces

end BlockProgram
