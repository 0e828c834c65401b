import Mathlib.Data.List.Forall2
import BlockProgram.Emit.Statement
import BlockProgram.Proofs.Code.Marks
import BlockProgram.Proofs.Scope.Sites

/-!
# Declarations and uses in code

The marks of written code stand for something: a line that was made from no block declares a
variable, and a part that was made from a block may use one. `Accounts` says of the signs for some
blocks that their variables are declared once and in front of all uses, inside the same braces.
Signs for blocks that have nothing to do with each other can be put together (`Accounts.append`), in
braces (`Accounts.braces`), and behind the declarations of a statement (`Accounts.declare`).
-/

namespace BlockProgram

open Compilation List

variable {b : BlockRef} {l : List Sign} {v : BindingId}

/-- What a mark of code stands for. -/
inductive Sign where
  | opens
  | closes
  | declares (v : BindingId)
  | block (b : BlockRef)
deriving Repr, DecidableEq

/-- A sign shows as a mark in the code of a program. -/
inductive Shows (p : Program) (c : Compilation) : Sign → Mark → Prop where
  | opens : Shows p c .opens .opens
  | closes : Shows p c .closes .closes
  | declares (v : BindingId) (type : Option TypeName) :
      Shows p c (.declares v) (.line (Program.declarationText (c.outputName v) type ++ ";"))
  | block (b : BlockRef) (hb : b < p.workspace.size) : Shows p c (.block b) (.part (p.block b).id)

def Sign.id? (p : Program) : Sign → Option String
  | .block b => some (p.block b).id
  | _ => none

theorem filterMap_of_shows {p : Program} {c : Compilation} {ms : List Mark}
    (h : List.Forall₂ (Shows p c) l ms) : ms.filterMap Mark.id? = l.filterMap (Sign.id? p) := by
  induction h with
  | nil => rfl
  | cons hs _ ih =>
    rw [filterMap_cons, filterMap_cons, ih]
    cases hs <;> rfl

theorem exists_block_of_id {p : Program} {c : Compilation} {ms : List Mark}
    (h : List.Forall₂ (Shows p c) l ms) {id : String} (hid : id ∈ l.filterMap (Sign.id? p)) :
    ∃ b < p.workspace.size, (p.block b).id = id ∧ .block b ∈ l := by
  induction h with
  | nil => cases hid
  | @cons s m l ms hs _ ih =>
    have htail : id ∈ l.filterMap (Sign.id? p) →
        ∃ b < p.workspace.size, (p.block b).id = id ∧ .block b ∈ s :: l := by
      intro hid
      obtain ⟨b, hb, hbid, hmem⟩ := ih hid
      exact ⟨b, hb, hbid, .tail s hmem⟩
    cases hs with
    | opens | closes | declares => exact htail hid
    | block b hb =>
      rcases mem_cons.mp hid with rfl | hid
      · exact ⟨b, hb, rfl, .head _⟩
      · exact htail hid

/-! ## Braces -/

/-- How many braces are open after some signs, if none closes too much. -/
def nesting : Nat → List Sign → Option Nat
  | n, [] => some n
  | n, .opens :: l => nesting (n + 1) l
  | 0, .closes :: _ => none
  | n + 1, .closes :: l => nesting n l
  | n, .declares _ :: l => nesting n l
  | n, .block _ :: l => nesting n l

/-- The braces that open close, and no others do. -/
def Balanced (l : List Sign) : Prop :=
  nesting 0 l = some 0

theorem nesting_append (n : Nat) (l r : List Sign) :
    nesting n (l ++ r) = (nesting n l).bind (nesting · r) := by
  induction l generalizing n with
  | nil => rfl
  | cons s l ih =>
    cases s with
    | opens => exact ih (n + 1)
    | closes =>
      cases n with
      | zero => rfl
      | succ n => exact ih n
    | declares v => cases n <;> exact ih _
    | block b => cases n <;> exact ih _

/-- Braces around some signs change nothing about them. -/
theorem nesting_succ {n m : Nat} (h : nesting n l = some m) : nesting (n + 1) l = some (m + 1) := by
  induction l generalizing n with
  | nil => cases h; rfl
  | cons s l ih =>
    cases s with
    | opens => exact ih (n := n + 1) h
    | closes =>
      cases n with
      | zero => cases h
      | succ n => exact ih (n := n) h
    | declares v => cases n <;> exact ih h
    | block b => cases n <;> exact ih h

theorem balanced_nil : Balanced [] :=
  rfl

theorem Balanced.append {l r : List Sign} (hl : Balanced l) (hr : Balanced r) :
    Balanced (l ++ r) := by
  unfold Balanced at *
  rw [nesting_append, hl]
  exact hr

theorem Balanced.braces (hl : Balanced l) : Balanced (.opens :: (l ++ [.closes])) := by
  show nesting 1 (l ++ [.closes]) = some 0
  rw [nesting_append, nesting_succ hl]
  rfl

theorem balanced_declares (vs : List BindingId) : Balanced (vs.map .declares) := by
  induction vs with
  | nil => rfl
  | cons v r ih => exact ih

theorem nesting_declares (n : Nat) (v : BindingId) : nesting n [.declares v] = some n := by
  cases n <;> rfl

theorem Balanced.of_append_declares (h : Balanced (l ++ [.declares v])) : Balanced l := by
  unfold Balanced at *
  rw [nesting_append] at h
  cases hl : nesting 0 l with
  | none =>
    rw [hl] at h
    cases h
  | some n =>
    rw [hl, Option.bind_some, nesting_declares] at h
    exact h

/-! ## Uses -/

variable {p : Program} {L : BlockRef → Bool} {c : Compilation}

def declaredIn (l : List Sign) : List BindingId :=
  l.filterMap fun
    | .declares v => some v
    | _ => none

theorem mem_declaredIn : v ∈ declaredIn l ↔ .declares v ∈ l := by
  unfold declaredIn
  rw [mem_filterMap]
  constructor
  · rintro ⟨s, hs, h⟩
    cases s with
    | declares w =>
      cases h
      exact hs
    | opens | closes | block b => cases h
  · exact fun h => ⟨_, h, rfl⟩

theorem declaredIn_append (l r : List Sign) : declaredIn (l ++ r) = declaredIn l ++ declaredIn r :=
  filterMap_append

theorem declaredIn_declares (vs : List BindingId) : declaredIn (vs.map .declares) = vs := by
  induction vs with
  | nil => rfl
  | cons v r ih => exact congrArg (v :: ·) ih

/-- Some signs are of a block that uses a variable. -/
def Mentions (c : Compilation) (v : BindingId) (l : List Sign) : Prop :=
  ∃ r ∈ (c.binding v).references, .block r ∈ l

instance decidableMentions (c : Compilation) (v : BindingId) (l : List Sign) :
    Decidable (Mentions c v l) :=
  inferInstanceAs (Decidable (∃ r ∈ (c.binding v).references, .block r ∈ l))

section

variable {v : BindingId} {l r : List Sign}

theorem not_mentions_nil : ¬ Mentions c v [] := by
  rintro ⟨x, _, hx⟩
  cases hx

theorem mentions_append : Mentions c v (l ++ r) ↔ Mentions c v l ∨ Mentions c v r := by
  unfold Mentions
  constructor
  · rintro ⟨x, hx, hmem⟩
    rcases mem_append.mp hmem with h | h
    · exact .inl ⟨x, hx, h⟩
    · exact .inr ⟨x, hx, h⟩
  · rintro (⟨x, hx, h⟩ | ⟨x, hx, h⟩)
    · exact ⟨x, hx, mem_append_left _ h⟩
    · exact ⟨x, hx, mem_append_right _ h⟩

theorem not_mentions_of {s : Sign} (hs : ∀ x ∈ (c.binding v).references, s ≠ .block x) :
    ¬ Mentions c v [s] := by
  rintro ⟨x, hx, hmem⟩
  exact hs x hx (mem_singleton.mp hmem).symm

theorem not_mentions_declares (vs : List BindingId) : ¬ Mentions c v (vs.map .declares) := by
  rintro ⟨x, _, hx⟩
  obtain ⟨w, _, hw⟩ := mem_map.mp hx
  cases hw

/-- A variable is not used, or declared in front of all its uses, with them in the same braces. -/
def Introduced (c : Compilation) (v : BindingId) (l : List Sign) : Prop :=
  ¬ Mentions c v l ∨ ∃ before inner after, l = before ++ .declares v :: (inner ++ after) ∧
    Balanced inner ∧ ¬ Mentions c v before ∧ ¬ Mentions c v after

theorem Introduced.append_right (h : Introduced c v l) (hr : ¬ Mentions c v r) :
    Introduced c v (l ++ r) := by
  rcases h with h | ⟨before, inner, after, rfl, hinner, hbefore, hafter⟩
  · exact .inl fun hm => (mentions_append.mp hm).elim h hr
  · refine .inr ⟨before, inner, after ++ r, ?_, hinner, hbefore, ?_⟩
    · rw [append_assoc, cons_append, append_assoc]
    · exact fun hm => (mentions_append.mp hm).elim hafter hr

theorem Introduced.append_left (h : Introduced c v r) (hl : ¬ Mentions c v l) :
    Introduced c v (l ++ r) := by
  rcases h with h | ⟨before, inner, after, rfl, hinner, hbefore, hafter⟩
  · exact .inl fun hm => (mentions_append.mp hm).elim hl h
  · refine .inr ⟨l ++ before, inner, after, (append_assoc _ _ _).symm, hinner, ?_, hafter⟩
    exact fun hm => (mentions_append.mp hm).elim hl hbefore

/-- Declarations introduce their variables to what comes after them. -/
theorem introduced_of_declares {vs : List BindingId} (hv : v ∈ vs) (hl : Balanced l) :
    Introduced c v (vs.map .declares ++ l) := by
  obtain ⟨s, t, rfl⟩ := append_of_mem hv
  refine .inr ⟨s.map .declares, t.map .declares ++ l, [], ?_, (balanced_declares t).append hl,
    not_mentions_declares s, not_mentions_nil⟩
  rw [map_append, map_cons, append_assoc, cons_append, append_nil]

/-- A declaration at the very end introduces nothing. -/
theorem Introduced.of_append_declares {w : BindingId} (h : Introduced c w (l ++ [.declares v])) :
    Introduced c w l := by
  rcases h with h | ⟨before, inner, after, hl, hinner, hbefore, hafter⟩
  · exact .inl fun hm => h (mentions_append.mpr (.inl hm))
  rcases eq_nil_or_concat after with rfl | ⟨after, s, rfl⟩
  · rcases eq_nil_or_concat inner with rfl | ⟨inner, s, rfl⟩
    · obtain ⟨rfl, _⟩ := append_singleton_inj.mp hl
      exact .inl hbefore
    · rw [append_nil, concat_eq_append, ← cons_append, ← append_assoc] at hl
      obtain ⟨rfl, rfl⟩ := append_singleton_inj.mp hl
      rw [concat_eq_append] at hinner
      refine .inr ⟨before, inner, [], ?_, hinner.of_append_declares, hbefore, not_mentions_nil⟩
      rw [append_nil]
  · rw [concat_eq_append, ← append_assoc, ← cons_append, ← append_assoc] at hl
    obtain ⟨rfl, rfl⟩ := append_singleton_inj.mp hl
    rw [concat_eq_append] at hafter
    exact .inr ⟨before, inner, after, rfl, hinner, hbefore,
      fun hm => hafter (mentions_append.mpr (.inl hm))⟩

end

/-! ## Accounts -/

/-- Signs that are of blocks in `R` and declare variables that belong in front of blocks in `S`.
Every such variable is declared once and in front of its uses. -/
structure Accounts (p : Program) (c : Compilation) (R S : BlockRef → Prop) (l : List Sign) :
    Prop where
  parts : ∀ b, .block b ∈ l → R b
  sites : ∀ v, .declares v ∈ l → ∃ h, S h ∧ v ∈ c.declarationsAt h
  once : (declaredIn l).Nodup
  balanced : Balanced l
  introduced : ∀ v h, S h → v ∈ c.declarationsAt h → Introduced c v l

namespace Accounts

variable {R S R' S' : BlockRef → Prop} {l r : List Sign}

theorem nil (R S : BlockRef → Prop) : Accounts p c R S [] where
  parts _ h := by cases h
  sites _ h := by cases h
  once := nodup_nil
  balanced := balanced_nil
  introduced _ _ _ _ := .inl not_mentions_nil

theorem not_mentions (h : Accounts p c R S l) (hv : ∀ r ∈ (c.binding v).references, ¬ R r) :
    ¬ Mentions c v l := by
  rintro ⟨x, hx, hmem⟩
  exact hv x hx (h.parts x hmem)

/-- More blocks, as long as the variables that belong in front of the new ones are not used. -/
theorem widen (h : Accounts p c R S l) (hR : ∀ x, R x → R' x) (hS : ∀ x, S x → S' x)
    (hnew : ∀ k, S' k → ¬ S k → ∀ v ∈ c.declarationsAt k, ∀ r ∈ (c.binding v).references, ¬ R r) :
    Accounts p c R' S' l where
  parts b hb := hR b (h.parts b hb)
  sites v hv := (h.sites v hv).imp fun k hk => ⟨hS k hk.1, hk.2⟩
  once := h.once
  balanced := h.balanced
  introduced v k hk hv := by
    by_cases hkS : S k
    · exact h.introduced v k hkS hv
    · exact .inl (h.not_mentions (hnew k hk hkS v hv))

theorem braces (h : Accounts p c R S l) : Accounts p c R S (.opens :: (l ++ [.closes])) where
  parts b hb := by
    simp only [mem_cons, mem_append, reduceCtorEq, not_mem_nil, or_false, false_or] at hb
    exact h.parts b hb
  sites v hv := by
    simp only [mem_cons, mem_append, reduceCtorEq, not_mem_nil, or_false, false_or] at hv
    exact h.sites v hv
  once := by
    show (declaredIn (l ++ [.closes])).Nodup
    rw [declaredIn_append]
    exact (append_nil (declaredIn l)).symm ▸ h.once
  balanced := h.balanced.braces
  introduced v k hk hv := by
    have hopens : ¬ Mentions c v [.opens] := not_mentions_of fun x _ => by simp
    have hcloses : ¬ Mentions c v [.closes] := not_mentions_of fun x _ => by simp
    exact ((h.introduced v k hk hv).append_right hcloses).append_left hopens

/-- The sign of a block in front of those of what is plugged into it. -/
theorem named (h : Accounts p c R S l) (hb : R b)
    (hfree : ∀ k, S k → ∀ v ∈ c.declarationsAt k, b ∉ (c.binding v).references) :
    Accounts p c R S (.block b :: l) where
  parts x hx := by
    rcases mem_cons.mp hx with hx | hx
    · cases hx
      exact hb
    · exact h.parts x hx
  sites v hv := h.sites v ((mem_cons.mp hv).resolve_left fun heq => by cases heq)
  once := h.once
  balanced := h.balanced
  introduced v k hk hv := by
    refine (h.introduced v k hk hv).append_left (l := [.block b]) (not_mentions_of ?_)
    rintro x hx heq
    cases heq
    exact hfree k hk v hv hx

/-- The sign of a block in the place of a declaration at the very end. -/
theorem rename (h : Accounts p c R S (l ++ [.declares v])) (hb : R b)
    (hfree : ∀ k, S k → ∀ v ∈ c.declarationsAt k, b ∉ (c.binding v).references) :
    Accounts p c R S (l ++ [.block b]) where
  parts x hx := by
    rcases mem_append.mp hx with hx | hx
    · exact h.parts x (mem_append_left _ hx)
    · cases mem_singleton.mp hx
      exact hb
  sites w hw := by
    rcases mem_append.mp hw with hw | hw
    · exact h.sites w (mem_append_left _ hw)
    · cases mem_singleton.mp hw
  once := by
    have honce := h.once
    rw [declaredIn_append] at honce ⊢
    exact (append_nil (declaredIn l)).symm ▸ honce.of_append_left
  balanced := h.balanced.of_append_declares.append rfl
  introduced w k hk hw := by
    refine (h.introduced w k hk hw).of_append_declares.append_right (not_mentions_of ?_)
    rintro x hx heq
    cases heq
    exact hfree k hk w hw hx

variable (hc : Sited p L c)

include hc

/-- Signs of blocks that have nothing to do with each other. -/
theorem append (hl : Accounts p c R S l) (hr : Accounts p c R' S' r)
    (hSR : ∀ k, S k → ∀ x, p.workspace.Under k x → ¬ R' x)
    (hRS : ∀ k, S' k → ∀ x, p.workspace.Under k x → ¬ R x) (hSS : ∀ k, S k → ¬ S' k) :
    Accounts p c (fun x => R x ∨ R' x) (fun x => S x ∨ S' x) (l ++ r) where
  parts b hb := (mem_append.mp hb).imp (hl.parts b) (hr.parts b)
  sites v hv := by
    rcases mem_append.mp hv with hv | hv
    · exact (hl.sites v hv).imp fun k hk => ⟨.inl hk.1, hk.2⟩
    · exact (hr.sites v hv).imp fun k hk => ⟨.inr hk.1, hk.2⟩
  once := by
    rw [declaredIn_append]
    refine nodup_append'.mpr ⟨hl.once, hr.once, fun v hv hv' => ?_⟩
    obtain ⟨k, hk, hvk⟩ := hl.sites v (mem_declaredIn.mp hv)
    obtain ⟨k', hk', hvk'⟩ := hr.sites v (mem_declaredIn.mp hv')
    exact hSS k hk (hc.unique v k k' hvk hvk' ▸ hk')
  balanced := hl.balanced.append hr.balanced
  introduced v k hk hv := by
    have hbelow := fun x hx => (hc.below v k hv x hx).1
    rcases hk with hk | hk
    · refine (hl.introduced v k hk hv).append_right (hr.not_mentions ?_)
      exact fun x hx => hSR k hk x (hbelow x hx)
    · refine (hr.introduced v k hk hv).append_left (hl.not_mentions ?_)
      exact fun x hx => hRS k hk x (hbelow x hx)

theorem declare (h : Accounts p c R S l) (hb : ¬ S b) :
    Accounts p c R (fun x => x = b ∨ S x) ((c.declarationsAt b).map .declares ++ l) where
  parts x hx := by
    rcases mem_append.mp hx with hx | hx
    · obtain ⟨v, _, hv⟩ := mem_map.mp hx
      cases hv
    · exact h.parts x hx
  sites v hv := by
    rcases mem_append.mp hv with hv | hv
    · obtain ⟨w, hw, heq⟩ := mem_map.mp hv
      cases heq
      exact ⟨b, .inl rfl, hw⟩
    · exact (h.sites v hv).imp fun k hk => ⟨.inr hk.1, hk.2⟩
  once := by
    rw [declaredIn_append, declaredIn_declares]
    refine nodup_append'.mpr ⟨hc.nodup b, h.once, fun v hv hv' => ?_⟩
    obtain ⟨k, hk, hvk⟩ := h.sites v (mem_declaredIn.mp hv')
    exact hb (hc.unique v k b hvk hv ▸ hk)
  balanced := (balanced_declares _).append h.balanced
  introduced v k hk hv := by
    rcases hk with rfl | hk
    · exact introduced_of_declares hv h.balanced
    · exact (h.introduced v k hk hv).append_left (not_mentions_declares _)

end Accounts

end BlockProgram
