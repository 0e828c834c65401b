import BlockProgram.Proofs.Workspace.Liveness
import Mathlib.Data.List.Nodup
import Mathlib.Data.List.Sort
import Mathlib.Order.Monotone.Basic

/-!
# Removing a statement

A block is taken out of a workspace with all that is plugged into it, and what follows it takes its
place (`remove`). The blocks that stay keep their order, and `embed` says where each of them was.

What is left is a forest again (`remove_sound`). A disabled statement can be removed so without
anything else being noticed: the same blocks are enabled (`isEnabled_remove`), chains lose the
statement only (`chain_remove`), and so do walks, which lose the blocks in it too
(`descendants_remove`).
-/

namespace BlockProgram.Workspace

open List Relation

variable {x y i c : BlockRef}

section Definitions

variable (ws : Workspace) (b : BlockRef)

/-- The blocks that stay when a block goes with all that is plugged into it, in document order. -/
def kept : List BlockRef :=
  ws.refs.filter fun x => x ∉ ws.subtree b

/-- Where a reference leads once a block is gone: what follows the block takes its place. -/
def bypass (t : Option BlockRef) : Option BlockRef :=
  if t = some b then (ws.block b).next else t

/-- The parent of a block once another block is gone: what followed that one gets its parent. -/
def newParent? (x : BlockRef) : Option BlockRef :=
  if ws.parent? x = some b then ws.parent? b else ws.parent? x

/-- A reference to a block that stays, as its place among those. -/
def renumber (t : Option BlockRef) : Option BlockRef :=
  t.bind ((ws.kept b).idxOf? ·)

/-- A block with its references led past another one. -/
def rewire (block : Block) : Block :=
  { block with
    inputs := block.inputs.map fun i => { i with target := ws.renumber b (ws.bypass b i.target) }
    next := ws.renumber b (ws.bypass b block.next) }

/-- The workspace without a block and all that is plugged into it. What follows the block takes its
place: as the next of its predecessor, in the input that it stood in, or as a top block. -/
def remove : Workspace where
  blocks := ((ws.kept b).map fun x => ws.rewire b (ws.block x)).toArray
  parents := ((ws.kept b).map fun x => ws.renumber b (ws.newParent? b x)).toArray
  vars := ws.vars

/-- Where a block of the smaller workspace was. -/
def embed (i : BlockRef) : BlockRef :=
  (ws.kept b)[i]?.getD (ws.size + i)

end Definitions

variable {ws : Workspace} {b : BlockRef}

/-! ## The blocks that stay -/

theorem kept_sorted : (ws.kept b).Pairwise (· < ·) :=
  pairwise_lt_range.filter _

theorem kept_nodup : (ws.kept b).Nodup :=
  kept_sorted.imp ne_of_lt

theorem lt_of_mem_kept (hx : x ∈ ws.kept b) : x < ws.size :=
  mem_range.mp (mem_filter.mp hx).1

@[simp] theorem size_remove : (ws.remove b).size = (ws.kept b).length := by
  simp [remove, size]

theorem embed_eq (hi : i < (ws.kept b).length) : ws.embed b i = (ws.kept b)[i] := by
  unfold embed
  rw [getElem?_eq_getElem hi, Option.getD_some]

theorem embed_of_ge (hi : (ws.kept b).length ≤ i) : ws.embed b i = ws.size + i := by
  unfold embed
  rw [getElem?_eq_none hi, Option.getD_none]

theorem embed_mem (hi : i < (ws.remove b).size) : ws.embed b i ∈ ws.kept b := by
  rw [size_remove] at hi
  rw [embed_eq hi]
  exact getElem_mem hi

theorem embed_lt_iff (i : BlockRef) : ws.embed b i < ws.size ↔ i < (ws.remove b).size := by
  constructor
  · intro h
    apply Nat.lt_of_not_le
    intro hle
    rw [embed_of_ge (size_remove ▸ hle)] at h
    exact Nat.not_lt_of_le (Nat.le_add_right _ _) h
  · exact fun hi => lt_of_mem_kept (embed_mem hi)

theorem strictMono_embed : StrictMono (ws.embed b) := by
  intro i j hij
  rcases lt_or_ge j (ws.kept b).length with hj | hj
  · rw [embed_eq hj, embed_eq (lt_trans hij hj)]
    exact pairwise_iff_getElem.mp kept_sorted i j _ _ hij
  · rw [embed_of_ge hj]
    rcases lt_or_ge i (ws.kept b).length with hi | hi
    · have hlt := (embed_lt_iff i).mpr (size_remove ▸ hi)
      exact lt_of_lt_of_le hlt (Nat.le_add_right _ _)
    · rw [embed_of_ge hi]
      exact Nat.add_lt_add_left hij _

theorem exists_embed (hx : x ∈ ws.kept b) : ∃ i < (ws.remove b).size, ws.embed b i = x := by
  obtain ⟨i, hi, hix⟩ := getElem_of_mem hx
  exact ⟨i, size_remove ▸ hi, (embed_eq hi).trans hix⟩

theorem idxOf?_kept : (ws.kept b).idxOf? x = some i ↔ (ws.kept b)[i]? = some x := by
  rw [idxOf?_eq_some_iff, List.getElem?_eq_some_iff]
  constructor
  · rintro ⟨hi, hix, _⟩
    exact ⟨hi, hix⟩
  · rintro ⟨hi, rfl⟩
    refine ⟨hi, rfl, fun j hj hjx => ?_⟩
    exact ne_of_lt hj (kept_nodup.getElem_inj_iff.mp hjx)

theorem renumber_eq_some {t : Option BlockRef} :
    ws.renumber b t = some i ↔ i < (ws.remove b).size ∧ t = some (ws.embed b i) := by
  unfold renumber
  rw [Option.bind_eq_some_iff]
  constructor
  · rintro ⟨x, rfl, hx⟩
    obtain ⟨hi, hix⟩ := List.getElem?_eq_some_iff.mp (idxOf?_kept.mp hx)
    exact ⟨size_remove ▸ hi, by rw [embed_eq hi, hix]⟩
  · rintro ⟨hi, rfl⟩
    rw [size_remove] at hi
    refine ⟨_, rfl, idxOf?_kept.mpr ?_⟩
    rw [embed_eq hi, getElem?_eq_getElem hi]

theorem renumber_embed (hi : i < (ws.remove b).size) :
    ws.renumber b (some (ws.embed b i)) = some i :=
  renumber_eq_some.mpr ⟨hi, rfl⟩

theorem block_remove (i : BlockRef) :
    (ws.remove b).block i = ws.rewire b (ws.block (ws.embed b i)) := by
  have hget : (ws.remove b).blocks[i]? =
      (ws.kept b)[i]?.map fun x => ws.rewire b (ws.block x) := by simp [remove]
  unfold block at hget ⊢
  unfold embed
  rw [hget]
  cases (ws.kept b)[i]? with
  | some x => rfl
  | none =>
    show default = ws.rewire b (ws.block (ws.size + i))
    rw [block_eq_default (Nat.le_add_right _ _)]
    rfl

/-! ## Which blocks stay -/

section Forest

variable (hws : ws.Sound)
include hws

theorem mem_kept : x ∈ ws.kept b ↔ x < ws.size ∧ ¬ ws.Within b x := by
  simp [kept, refs, mem_subtree hws]

theorem not_within_embed (hb : b < ws.size) (i : BlockRef) : ¬ ws.Within b (ws.embed b i) := by
  intro h
  have hlt := Under.lt hws hb (h.under hws.toIsForest)
  exact ((mem_kept hws).mp (embed_mem ((embed_lt_iff i).mp hlt))).2 h

theorem parent?_remove (i : BlockRef) :
    (ws.remove b).parent? i = ws.renumber b (ws.newParent? b (ws.embed b i)) := by
  have hget : (ws.remove b).parents[i]? =
      (ws.kept b)[i]?.map fun x => ws.renumber b (ws.newParent? b x) := by simp [remove]
  unfold parent?
  rw [hget]
  unfold embed
  cases (ws.kept b)[i]? with
  | some x => rfl
  | none =>
    have hnone : ws.parent? (ws.size + i) = none := by
      refine Option.eq_none_iff_forall_ne_some.mpr fun y hy => ?_
      have hlt := hws.child_lt y _ (hws.child_of_parent y _ hy)
      exact Nat.not_lt_of_le (Nat.le_add_right _ _) hlt
    simp [newParent?, hnone, renumber]

/-- What is below a block that stays, stays, but for the removed block. -/
theorem not_within_of_parent (hy : ¬ ws.Within b y) (hx : ws.parent? x = some y) (hne : x ≠ b) :
    ¬ ws.Within b x := by
  rintro (rfl | ⟨t, ht, htx⟩)
  · exact hne rfl
  · have htb := hws.parent_eq b t (mem_append_left _ ht)
    rcases ReflTransGen.cases_head htx with rfl | ⟨z, hz, htz⟩
    · rw [hx] at htb
      exact hy (.inl (Option.some.inj htb))
    · rw [hx] at hz
      cases hz
      exact hy (.inr ⟨t, ht, htz⟩)

/-- What is right below the removed block and stays follows it. -/
theorem next_of_parent (hx : ¬ ws.Within b x) (hparent : ws.parent? x = some b) :
    (ws.block b).next = some x := by
  rcases mem_append.mp (hws.child_of_parent b x hparent) with htarget | hnext
  · exact absurd (.inr ⟨x, htarget, .refl⟩) hx
  · exact Option.mem_toList.mp hnext

theorem not_within_next {n : BlockRef} (hn : (ws.block b).next = some n) : ¬ ws.Within b n :=
  not_within_of_next hws.toIsForest hn .refl

/-- The parent that a block gets stays too. -/
theorem not_within_newParent (hx : ¬ ws.Within b x) (hy : ws.newParent? b x = some y) :
    ¬ ws.Within b y := by
  unfold newParent? at hy
  split at hy
  · exact fun h => not_under_of_parent hws.toIsForest hy (h.under hws.toIsForest)
  · next hne =>
    rintro (rfl | ⟨t, ht, hty⟩)
    · exact hne hy
    · exact hx (.inr ⟨t, ht, hty.head hy⟩)

/-- A reference from a block that stays leads to one that stays. -/
theorem not_within_bypass (hy : ¬ ws.Within b y) (hc : c ∈ ws.children y)
    (hx : ws.bypass b (some c) = some x) : ¬ ws.Within b x := by
  unfold bypass at hx
  split at hx
  · exact not_within_next hws hx
  · next hne =>
    cases hx
    exact not_within_of_parent hws hy (hws.parent_eq y _ hc) fun h => hne (congrArg some h)

theorem next_mem_kept {n : BlockRef} (hn : (ws.block b).next = some n) : n ∈ ws.kept b :=
  (mem_kept hws).mpr ⟨hws.child_lt b n (next_mem_children hn), not_within_next hws hn⟩

theorem mem_kept_of_child (hy : ¬ ws.Within b y) (hc : c ∈ ws.children y) :
    c = b ∨ c ∈ ws.kept b := by
  by_cases hcb : c = b
  · exact .inl hcb
  · refine .inr ((mem_kept hws).mpr ⟨hws.child_lt y c hc, ?_⟩)
    exact not_within_of_parent hws hy (hws.parent_eq y c hc) hcb

theorem bypass_next : ws.bypass b (ws.block b).next = (ws.block b).next := by
  refine if_neg fun hnext => ?_
  exact not_under_of_parent hws.toIsForest (hws.parent_eq b b (next_mem_children hnext)) .refl

/-- The references that are led past the removed block and the parents that are noted then are the
same. -/
theorem newParent?_iff (hx : ¬ ws.Within b x) (hy : ¬ ws.Within b y) :
    ws.newParent? b x = some y ↔ ∃ c ∈ ws.children y, ws.bypass b (some c) = some x := by
  have hxb : x ≠ b := fun h => hx (.inl h)
  have hyb : y ≠ b := fun h => hy (.inl h)
  unfold newParent? bypass
  constructor
  · intro h
    split at h
    · next hparent =>
      refine ⟨b, hws.child_of_parent y b h, ?_⟩
      rw [if_pos rfl]
      exact next_of_parent hws hx hparent
    · exact ⟨x, hws.child_of_parent y x h, if_neg fun h => hxb (Option.some.inj h)⟩
  · rintro ⟨c, hc, hcx⟩
    have hparent := hws.parent_eq y c hc
    split at hcx
    · next hcb =>
      cases hcb
      rw [if_pos (hws.parent_eq b x (next_mem_children hcx))]
      exact hparent
    · cases hcx
      rw [if_neg, hparent]
      rw [hparent]
      exact fun h => hyb (Option.some.inj h)

/-- Different references of a block lead to different blocks, also past the removed one. -/
theorem eq_of_bypass {c' : BlockRef} (hy : y ≠ b) (hc : c ∈ ws.children y)
    (hc' : c' ∈ ws.children y) (hx : ws.bypass b (some c) = some x)
    (hx' : ws.bypass b (some c') = some x) : c = c' := by
  have hnext : ∀ z ∈ ws.children y, (ws.block b).next ≠ some z := by
    intro z hz hbz
    have hparent := hws.parent_eq b z (next_mem_children hbz)
    rw [hws.parent_eq y z hz] at hparent
    exact hy (Option.some.inj hparent)
  unfold bypass at hx hx'
  split at hx
  · next hcb =>
    split at hx'
    · next hcb' => exact Option.some.inj (hcb.trans hcb'.symm)
    · exact absurd (hx.trans hx'.symm) (hnext c' hc')
  · split at hx'
    · exact absurd (hx'.trans hx.symm) (hnext c hc)
    · exact Option.some.inj (hx.trans hx'.symm)

theorem lt_of_newParent (hy : ws.newParent? b x = some y) : x < ws.size ∧ y < ws.size := by
  unfold newParent? at hy
  split at hy
  · next hx =>
    exact ⟨hws.child_lt b x (hws.child_of_parent b x hx), lt_of_child (hws.child_of_parent y b hy)⟩
  · have hchild := hws.child_of_parent y x hy
    exact ⟨hws.child_lt y x hchild, lt_of_child hchild⟩

theorem height_newParent (hy : ws.newParent? b x = some y) : ws.height y < ws.height x := by
  unfold newParent? at hy
  split at hy
  · next hx => exact lt_trans (height_lt hws hy) (height_lt hws hx)
  · exact height_lt hws hy

/-- What is below the removed block and stays is below what follows it. -/
theorem under_next (hx : ws.Under b x) (hwithin : ¬ ws.Within b x) :
    ∃ n, (ws.block b).next = some n ∧ ws.Under n x := by
  rcases ReflTransGen.cases_tail hx with rfl | ⟨n, hnx, hn⟩
  · exact absurd (.inl rfl) hwithin
  · refine ⟨n, next_of_parent hws ?_ hn, hnx⟩
    rintro (rfl | ⟨t, ht, htn⟩)
    · exact not_under_of_parent hws.toIsForest hn .refl
    · exact hwithin (.inr ⟨t, ht, htn.trans hnx⟩)

/-- A block that stays and has a removed block below it has the whole removed block below it. -/
theorem under_of_within {t : BlockRef} (ht : ¬ ws.Within b t) (htx : ws.Under t x)
    (hx : ws.Within b x) : ws.Under t b := by
  rcases htx.total (hx.under hws.toIsForest) with hbt | htb
  · obtain ⟨n, hn, hnt⟩ := under_next hws hbt ht
    exact absurd hx (not_within_of_next hws.toIsForest hn (hnt.trans htx))
  · exact htb

omit hws in
/-- Climbing goes past the removed block. -/
theorem under_newParent {a : BlockRef} (ha : a ≠ b) (h : ws.Under a x) (hne : x ≠ a) :
    ∃ y, ws.newParent? b x = some y ∧ ws.Under a y := by
  unfold newParent?
  rcases ReflTransGen.cases_head h with rfl | ⟨y, hy, hay⟩
  · exact absurd rfl hne
  · by_cases hyb : y = b
    · cases hyb
      rw [if_pos hy]
      rcases ReflTransGen.cases_head hay with rfl | ⟨z, hz, haz⟩
      · exact absurd rfl ha
      · exact ⟨z, hz, haz⟩
    · rw [hy, if_neg fun h => hyb (Option.some.inj h)]
      exact ⟨y, rfl, hay⟩

end Forest

/-! ## What is left is a forest -/

section Sound

variable (hws : ws.Sound) (hb : b < ws.size)
include hws hb

theorem embed_ne (i : BlockRef) : ws.embed b i ≠ b :=
  fun h => not_within_embed hws hb i (.inl h)

theorem bypass_embed (i : BlockRef) : ws.bypass b (some (ws.embed b i)) = some (ws.embed b i) :=
  if_neg fun h => embed_ne hws hb i (Option.some.inj h)

omit hws hb in
theorem targets_remove (i : BlockRef) :
    ((ws.remove b).block i).targets = (ws.block (ws.embed b i)).targets.filterMap fun c =>
      ws.renumber b (ws.bypass b (some c)) := by
  rw [block_remove]
  unfold Block.targets rewire
  rw [filterMap_map, filterMap_filterMap]
  refine filterMap_congr fun j _ => ?_
  cases hj : j.target with
  | none => simp [hj, bypass, renumber]
  | some c => simp [hj]

/-- A reference is lost only if it led to the removed block and nothing follows that. -/
theorem renumber_bypass_eq_none (hx : x = b ∨ x ∈ ws.kept b)
    (hnone : ws.renumber b (ws.bypass b (some x)) = none) : x = b ∧ (ws.block b).next = none := by
  rcases hx with rfl | hx
  · refine ⟨rfl, ?_⟩
    cases hnext : (ws.block x).next with
    | none => rfl
    | some n =>
      obtain ⟨i, hi, rfl⟩ := exists_embed (next_mem_kept hws hnext)
      rw [bypass, if_pos rfl, hnext, renumber_embed hi] at hnone
      cases hnone
  · obtain ⟨i, hi, rfl⟩ := exists_embed hx
    rw [bypass_embed hws hb, renumber_embed hi] at hnone
    cases hnone

/-- References from the blocks that stay lead to such blocks or to the removed one. -/
theorem mem_kept_of_target {t : BlockRef} (ht : t ∈ (ws.block (ws.embed b i)).targets) :
    t = b ∨ t ∈ ws.kept b :=
  mem_kept_of_child hws (not_within_embed hws hb i) (mem_append_left _ ht)

omit hws hb in
theorem children_remove (i : BlockRef) :
    (ws.remove b).children i = (ws.children (ws.embed b i)).filterMap fun c =>
      ws.renumber b (ws.bypass b (some c)) := by
  unfold children
  rw [targets_remove, filterMap_append, block_remove]
  congr 1
  show (ws.renumber b (ws.bypass b (ws.block (ws.embed b i)).next)).toList = _
  cases hnext : (ws.block (ws.embed b i)).next with
  | none => simp [bypass, renumber]
  | some c => cases hc : ws.renumber b (ws.bypass b (some c)) <;> simp [hc]

omit hws hb in
theorem mem_children_remove :
    x ∈ (ws.remove b).children i ↔ x < (ws.remove b).size ∧
      ∃ c ∈ ws.children (ws.embed b i), ws.bypass b (some c) = some (ws.embed b x) := by
  rw [children_remove, mem_filterMap]
  simp only [renumber_eq_some]
  exact ⟨fun ⟨c, hc, hx, hcx⟩ => ⟨hx, c, hc, hcx⟩, fun ⟨hx, c, hc, hcx⟩ => ⟨c, hc, hx, hcx⟩⟩

omit hb in
theorem parent?_remove_eq_some :
    (ws.remove b).parent? x = some i ↔ i < (ws.remove b).size ∧
      ws.newParent? b (ws.embed b x) = some (ws.embed b i) := by
  rw [parent?_remove hws, renumber_eq_some]

/-- The parent that a block gets is among the blocks that stay. -/
theorem exists_newParent (hy : ws.newParent? b (ws.embed b x) = some y) :
    ∃ i, ws.embed b i = y ∧ (ws.remove b).parent? x = some i := by
  have hywithin := not_within_newParent hws (not_within_embed hws hb x) hy
  obtain ⟨i, hi, rfl⟩ := exists_embed ((mem_kept hws).mpr ⟨(lt_of_newParent hws hy).2, hywithin⟩)
  exact ⟨i, rfl, (parent?_remove_eq_some hws).mpr ⟨hi, hy⟩⟩

/-- A reference from a block that stays leads to one that stays, past the removed block. -/
theorem exists_bypass {a : BlockRef} (hc : c ∈ ws.children (ws.embed b a))
    (hx : ws.bypass b (some c) = some x) :
    ∃ i, ws.embed b i = x ∧ ws.renumber b (ws.bypass b (some c)) = some i := by
  have hxwithin := not_within_bypass hws (not_within_embed hws hb a) hc hx
  have hparent := (newParent?_iff hws hxwithin (not_within_embed hws hb a)).mpr ⟨c, hc, hx⟩
  have hkept := (mem_kept hws).mpr ⟨(lt_of_newParent hws hparent).1, hxwithin⟩
  obtain ⟨i, hi, rfl⟩ := exists_embed hkept
  exact ⟨i, rfl, renumber_eq_some.mpr ⟨hi, hx⟩⟩

theorem remove_sound : (ws.remove b).Sound := by
  have hstays := not_within_embed hws hb
  refine { parent_eq := ?_, nodup := ?_, ranked := ?_, child_of_parent := ?_, child_lt := ?_ }
  · intro i x hx
    have hi := lt_of_child hx
    obtain ⟨_, hchild⟩ := mem_children_remove.mp hx
    exact (parent?_remove_eq_some hws).mpr
      ⟨hi, (newParent?_iff hws (hstays x) (hstays i)).mpr hchild⟩
  · intro i
    rw [children_remove, List.Nodup, pairwise_filterMap]
    refine (hws.nodup (ws.embed b i)).imp_of_mem ?_
    intro c c' hc hc' hne x hx x' hx' hxx'
    rw [← hxx', renumber_eq_some] at hx'
    exact hne (eq_of_bypass hws (embed_ne hws hb i) hc hc' (renumber_eq_some.mp hx).2 hx'.2)
  · refine ⟨fun i => ws.height (ws.embed b i), fun i x hx => ?_⟩
    exact height_newParent hws ((parent?_remove_eq_some hws).mp hx).2
  · intro i x hx
    obtain ⟨_, hparent⟩ := (parent?_remove_eq_some hws).mp hx
    have hlt := (embed_lt_iff x).mp (lt_of_newParent hws hparent).1
    exact mem_children_remove.mpr ⟨hlt, (newParent?_iff hws (hstays x) (hstays i)).mp hparent⟩
  · exact fun i x hx => (mem_children_remove.mp hx).1

/-! ## Above and below -/

theorem under_remove (a x : BlockRef) :
    ws.Under (ws.embed b a) (ws.embed b x) ↔ (ws.remove b).Under a x := by
  constructor
  · intro h
    induction hh : ws.height (ws.embed b x) using Nat.strongRecOn generalizing x with
    | ind n ih =>
      by_cases hne : x = a
      · rw [hne]
        exact .refl
      · obtain ⟨y, hy, hay⟩ := under_newParent (embed_ne hws hb a) h
          fun heq => hne (strictMono_embed.injective heq)
        obtain ⟨i, rfl, hi⟩ := exists_newParent hws hb hy
        exact (ih _ (hh ▸ height_newParent hws hy) i hay rfl).head hi
  · intro h
    induction h using ReflTransGen.head_induction_on with
    | refl => exact .refl
    | @head x i hx _ ih =>
      have hparent := ((parent?_remove_eq_some hws).mp hx).2
      refine ih.trans ?_
      unfold newParent? at hparent
      split at hparent
      · next hbx => exact .head hbx (.single hparent)
      · exact .single hparent

theorem mem_descendants_remove (hi : i < (ws.remove b).size) :
    ws.embed b x ∈ ws.descendants (ws.embed b i) ↔ x ∈ (ws.remove b).descendants i := by
  rw [mem_descendants hws ((embed_lt_iff i).mpr hi), mem_descendants (remove_sound hws hb) hi,
    under_remove hws hb]

theorem within_remove (a x : BlockRef) :
    ws.Within (ws.embed b a) (ws.embed b x) ↔ (ws.remove b).Within a x := by
  have hstays := not_within_embed hws hb
  unfold Within
  refine or_congr strictMono_embed.injective.eq_iff ?_
  rw [targets_remove]
  constructor
  · rintro ⟨t, ht, htx⟩
    -- what takes the place of `t` is above `x`, and it stays
    have hplace : ∃ u, ws.bypass b (some t) = some u ∧ ws.Under u (ws.embed b x) := by
      unfold bypass
      by_cases htb : t = b
      · rw [htb, if_pos rfl]
        exact under_next hws (htb ▸ htx) (hstays x)
      · rw [if_neg fun h => htb (Option.some.inj h)]
        exact ⟨t, rfl, htx⟩
    obtain ⟨u, hu, hux⟩ := hplace
    obtain ⟨i, rfl, hi⟩ := exists_bypass hws hb (mem_append_left _ ht) hu
    exact ⟨i, mem_filterMap.mpr ⟨t, ht, hi⟩, (under_remove hws hb i x).mp hux⟩
  · rintro ⟨i, hi, hix⟩
    obtain ⟨t, ht, hrenumber⟩ := mem_filterMap.mp hi
    have hti := (renumber_eq_some.mp hrenumber).2
    have hix := (under_remove hws hb i x).mpr hix
    refine ⟨t, ht, ?_⟩
    unfold bypass at hti
    split at hti
    · next htb =>
      cases htb
      exact (under_of_next hws.toIsForest hti).trans hix
    · cases hti
      exact hix

/-! ## What is enabled -/

omit hb in
/-- The parent that a block gets, and what surrounds that one, say whether the block is surrounded
by enabled blocks only. -/
theorem surroundings_of_newParent (hx : ¬ ws.Within b x) (hy : ws.newParent? b x = some y) :
    ws.surroundingsEnabled ws.size x =
      ((ws.bypass b (ws.block y).next == some x || (ws.block y).enabled) &&
        ws.surroundingsEnabled ws.size y) := by
  have hxb : x ≠ b := fun h => hx (.inl h)
  have hyb : y ≠ b := fun h => not_within_newParent hws hx hy (.inl h)
  unfold newParent? at hy
  split at hy
  · next hparent =>
    have hnext := next_of_parent hws hx hparent
    have hsame : (ws.bypass b (ws.block y).next == some x) = ((ws.block y).next == some b) := by
      unfold bypass
      split
      · next hb => rw [hnext, hb, beq_self_eq_true, beq_self_eq_true]
      · next hne =>
        rw [beq_eq_false_iff_ne.mpr hne, beq_eq_false_iff_ne]
        intro hyx
        rw [hws.parent_eq y x (next_mem_children hyx)] at hparent
        exact hyb (Option.some.inj hparent)
    rw [surroundings_of_next hws hnext, surroundings_of_parent hws hy, hsame]
  · next hne =>
    have hsame : (ws.bypass b (ws.block y).next == some x) = ((ws.block y).next == some x) := by
      unfold bypass
      split
      · next hb =>
        rw [hb, beq_eq_false_iff_ne.mpr fun h => hxb (Option.some.inj h).symm, beq_eq_false_iff_ne]
        exact fun hbx => hne (hws.parent_eq b x (next_mem_children hbx))
      · rfl
    rw [surroundings_of_parent hws hy, hsame]

theorem surroundings_remove (x : BlockRef) :
    (ws.remove b).surroundingsEnabled (ws.remove b).size x =
      ws.surroundingsEnabled ws.size (ws.embed b x) := by
  have hsound := remove_sound hws hb
  have hstays := not_within_embed hws hb
  induction hh : ws.height (ws.embed b x) using Nat.strongRecOn generalizing x with
  | ind n ih =>
    cases hy : ws.newParent? b (ws.embed b x) with
    | none =>
      have htop : (ws.remove b).parent? x = none := by
        rw [parent?_remove hws, hy]
        rfl
      rw [surroundings_of_top htop]
      unfold newParent? at hy
      split at hy
      · next hparent =>
        rw [surroundings_of_next hws (next_of_parent hws (hstays x) hparent),
          surroundings_of_top hy]
      · rw [surroundings_of_top hy]
    | some y =>
      obtain ⟨i, rfl, hi⟩ := exists_newParent hws hb hy
      have hnext : (((ws.remove b).block i).next == some x) =
          (ws.bypass b (ws.block (ws.embed b i)).next == some (ws.embed b x)) := by
        have hlt := (embed_lt_iff x).mp (lt_of_newParent hws hy).1
        rw [block_remove, Bool.eq_iff_iff, beq_iff_eq, beq_iff_eq]
        exact renumber_eq_some.trans (and_iff_right hlt)
      have henabled : ((ws.remove b).block i).enabled = (ws.block (ws.embed b i)).enabled := by
        rw [block_remove]
        rfl
      rw [surroundings_of_parent hsound hi, surroundings_of_newParent hws (hstays x) hy, hnext,
        henabled, ih _ (hh ▸ height_newParent hws hy) i rfl]

/-- The blocks that stay are enabled as before. -/
theorem isEnabled_remove (x : BlockRef) :
    (ws.remove b).isEnabled x = ws.isEnabled (ws.embed b x) := by
  unfold isEnabled
  rw [surroundings_remove hws hb, block_remove]
  rfl

/-- All blocks that are enabled stay. -/
theorem mem_kept_of_enabled (hoff : (ws.block b).enabled = false) (hx : x < ws.size)
    (henabled : ws.isEnabled x = true) : x ∈ ws.kept b := by
  refine (mem_kept hws).mpr ⟨hx, ?_⟩
  have hb : ws.isEnabled b = false := by
    unfold isEnabled
    rw [hoff, Bool.false_and]
  have habove : ∀ t y, ws.Under t y → ws.surroundingsEnabled ws.size y = true →
      ws.surroundingsEnabled ws.size t = true := by
    intro t y hty hy
    induction hty with
    | refl => exact hy
    | tail _ hlast ih =>
      rw [surroundings_of_parent hws hlast, Bool.and_eq_true] at ih
      exact ih.2
  rintro (rfl | ⟨t, ht, htx⟩)
  · rw [hb] at henabled
    cases henabled
  · have hsurrounded := (Bool.and_eq_true_iff.mp henabled).2
    have htarget := habove t x htx hsurrounded
    rw [surroundings_of_target hws ht, hb] at htarget
    cases htarget

/-! ## Chains and walks -/

/-- A chain loses the removed statement only. -/
theorem chain_remove {t : Option BlockRef} (ht : ∀ x ∈ t, x = b ∨ x ∈ ws.kept b) :
    (ws.chain t).filter (· != b) =
      ((ws.remove b).chain (ws.renumber b (ws.bypass b t))).map (ws.embed b) := by
  have hsound := remove_sound hws hb
  induction hl : ws.chain t generalizing t with
  | nil =>
    cases t with
    | none => simp [bypass, renumber]
    | some x =>
      rcases ht x rfl with rfl | hx
      · rw [chain_some hws hb] at hl
        cases hl
      · rw [chain_some hws (lt_of_mem_kept hx)] at hl
        cases hl
  | cons y l ih =>
    cases t with
    | none =>
      rw [chain_none] at hl
      cases hl
    | some x =>
      rcases ht x rfl with rfl | hx
      · rw [chain_some hws hb] at hl
        injection hl with hy hl
        have hrest := ih (fun z hz => .inr (next_mem_kept hws hz)) hl
        rw [bypass_next hws] at hrest
        rw [← hy, filter_cons_of_neg (by simp), hrest]
        unfold bypass
        rw [if_pos rfl]
      · obtain ⟨i, hi, rfl⟩ := exists_embed hx
        have hne := embed_ne hws hb i
        rw [chain_some hws (lt_of_mem_kept hx)] at hl
        injection hl with hy hl
        have hrest := ih (fun z hz => mem_kept_of_child hws (not_within_embed hws hb i)
          (next_mem_children hz)) hl
        rw [← hy, filter_cons_of_pos (by simpa using hne), hrest, bypass_embed hws hb,
          renumber_embed hi, chain_some hsound hi, block_remove]
        rfl

/-- Of the blocks below the removed one, those that stay are below what follows it. -/
theorem filter_descendants_self : (ws.descendants b).filter (· ∈ ws.kept b) =
      (ws.block b).next.elim [] fun n => (ws.descendants n).filter (· ∈ ws.kept b) := by
  have hself : b ∉ ws.kept b := fun h => ((mem_kept hws).mp h).2 (.inl rfl)
  have htargets : ((ws.block b).targets.flatMap ws.descendants).filter (· ∈ ws.kept b) = [] := by
    rw [filter_eq_nil_iff]
    intro x hx
    obtain ⟨t, ht, hxt⟩ := mem_flatMap.mp hx
    have hunder := (mem_descendants hws (hws.child_lt b t (mem_append_left _ ht))).mp hxt
    simpa using fun hkept => ((mem_kept hws).mp hkept).2 (.inr ⟨t, ht, hunder⟩)
  rw [descendants_eq hws hb, filter_cons_of_neg (by simpa using hself)]
  unfold children
  rw [flatMap_append, filter_append, htargets, nil_append]
  cases (ws.block b).next with
  | none => rfl
  | some n => simp

/-- The blocks below a block that stays lose the removed block and what is plugged into it. -/
theorem descendants_remove (hi : i < (ws.remove b).size) :
    (ws.descendants (ws.embed b i)).filter (· ∈ ws.kept b) =
      ((ws.remove b).descendants i).map (ws.embed b) := by
  have hsound := remove_sound hws hb
  induction hr : ws.reach (ws.embed b i) using Nat.strongRecOn generalizing i with
  | ind r ih =>
    have hkept := embed_mem hi
    have hchild : ∀ c ∈ ws.children (ws.embed b i), (ws.descendants c).filter (· ∈ ws.kept b) =
          (ws.renumber b (ws.bypass b (some c))).elim [] fun j =>
            ((ws.remove b).descendants j).map (ws.embed b) := by
      intro c hc
      have hlt := reach_lt hws hc
      rcases mem_kept_of_child hws (not_within_embed hws hb i) hc with rfl | hckept
      · rw [filter_descendants_self hws hb, bypass, if_pos rfl]
        cases hnext : (ws.block c).next with
        | none => rfl
        | some n =>
          obtain ⟨j, hj, rfl⟩ := exists_embed (next_mem_kept hws hnext)
          have hreach := reach_lt hws (next_mem_children hnext)
          rw [renumber_embed hj]
          exact ih _ (by omega) hj rfl
      · obtain ⟨j, hj, rfl⟩ := exists_embed hckept
        rw [bypass_embed hws hb, renumber_embed hj]
        exact ih _ (hr ▸ hlt) hj rfl
    have hall : ∀ l : List BlockRef, (∀ c ∈ l, c ∈ ws.children (ws.embed b i)) →
        l.flatMap (fun c => (ws.descendants c).filter (· ∈ ws.kept b)) =
          (l.filterMap fun c => ws.renumber b (ws.bypass b (some c))).flatMap fun j =>
            ((ws.remove b).descendants j).map (ws.embed b) := by
      intro l hl
      induction l with
      | nil => rfl
      | cons c l ih =>
        rw [flatMap_cons, hchild c (hl c (.head _)),
          ih fun c hc => hl c (.tail _ hc), filterMap_cons]
        cases ws.renumber b (ws.bypass b (some c)) <;> rfl
    rw [descendants_eq hws (lt_of_mem_kept hkept), descendants_eq hsound hi,
      filter_cons_of_pos (by simpa using hkept), filter_flatMap, hall _ fun _ h => h,
      children_remove, map_cons, map_flatMap]

end Sound

end BlockProgram.Workspace
