import BlockProgram.Compilation.State
import BlockProgram.Proofs.Workspace.Traversal

/-!
# Enabled and live blocks

A statement is surrounded by what surrounds the one that it follows, and what is plugged into a
block is surrounded by that block. So a block in an input is enabled only if the block that has the
input is (`isEnabled_of_mem_chain`), and the same holds of being live (`isLive_of_mem_chain`). A
block below another one stands in a chain in an input of a block that is below it too
(`exists_owner`).
-/

namespace BlockProgram

open Workspace List

namespace Workspace

variable {ws : Workspace} (hws : ws.Sound) {b t x : BlockRef}

theorem mem_targets {i : Input} (hi : i ∈ (ws.block b).inputs) (ht : i.target = some t) :
    t ∈ (ws.block b).targets :=
  mem_filterMap.mpr ⟨i, hi, ht⟩

include hws

/-- What is plugged into a block does not follow it. -/
theorem next_ne_of_target (ht : t ∈ (ws.block b).targets) : (ws.block b).next ≠ some t := by
  intro hnext
  have hnodup := hws.nodup b
  unfold children at hnodup
  rw [hnext] at hnodup
  exact (nodup_append.mp hnodup).2.2 t ht t (.head _) rfl

theorem surroundings_of_next (hx : (ws.block b).next = some x) :
    ws.surroundingsEnabled ws.size x = ws.surroundingsEnabled ws.size b := by
  rw [surroundings_of_parent hws (hws.parent_eq b x (next_mem_children hx)), hx]
  simp

theorem surroundings_of_target (ht : t ∈ (ws.block b).targets) :
    ws.surroundingsEnabled ws.size t = ws.isEnabled b := by
  have hnext : ((ws.block b).next == some t) = false := by
    simpa using next_ne_of_target hws ht
  rw [surroundings_of_parent hws (hws.parent_eq b t (mem_append_left _ ht)), hnext,
    Bool.false_or]
  rfl

theorem surroundings_of_mem_chain (ht : t < ws.size) (hx : x ∈ ws.chain (some t)) :
    ws.surroundingsEnabled ws.size x = ws.surroundingsEnabled ws.size t :=
  mem_chain_induction hws
    (P := fun t x => ws.surroundingsEnabled ws.size x = ws.surroundingsEnabled ws.size t)
    (fun _ => rfl) (fun _ _ _ hnext h => h.trans (surroundings_of_next hws hnext)) ht hx

/-- A block that stands in an input is enabled only if the block with the input is. -/
theorem isEnabled_of_mem_chain (ht : t ∈ (ws.block b).targets) (hx : x ∈ ws.chain (some t))
    (henabled : ws.isEnabled x = true) : ws.isEnabled b = true := by
  have htlt := hws.child_lt b t (mem_append_left _ ht)
  unfold isEnabled at henabled
  rw [Bool.and_eq_true, surroundings_of_mem_chain hws htlt hx, surroundings_of_target hws ht]
    at henabled
  exact henabled.2

/-- A statement that nothing follows is a chain by itself. -/
theorem eq_of_mem_chain_last (ht : t < ws.size) (hlast : (ws.block t).next = none)
    (hx : x ∈ ws.chain (some t)) : x = t := by
  rw [chain_some hws ht, hlast, chain_none] at hx
  exact mem_singleton.mp hx

/-- A statement of a chain is its first one or follows another. -/
theorem eq_or_next_of_mem_chain (ht : t < ws.size) (hx : x ∈ ws.chain (some t)) :
    x = t ∨ ∃ y, (ws.block y).next = some x := by
  refine mem_chain_induction hws (P := fun t x => x = t ∨ ∃ y, (ws.block y).next = some x)
    (fun _ => .inl rfl) ?_ ht hx
  rintro t n x hnext (rfl | h)
  · exact .inr ⟨t, hnext⟩
  · exact .inr h

/-- A chain goes on with what follows one of its statements. -/
theorem mem_chain_of_next (ht : t < ws.size) (hb : b ∈ ws.chain (some t))
    (hx : (ws.block b).next = some x) : x ∈ ws.chain (some t) := by
  refine mem_chain_induction hws (P := fun t b => t < ws.size → (ws.block b).next = some x →
    x ∈ ws.chain (some t)) ?_ ?_ ht hb ht hx
  · intro t ht hx
    rw [chain_some hws ht, hx]
    exact .tail _ (mem_chain_self hws (hws.child_lt t x (next_mem_children hx)))
  · intro t n b hnext ih ht hx
    rw [chain_some hws ht, hnext]
    exact .tail _ (ih (hws.child_lt t n (next_mem_children hnext)) hx)

/-- A block below one that nothing follows stands in a chain in an input of a block below it. -/
theorem exists_owner {d : BlockRef} (hd : (ws.block d).next = none) (hx : ws.Under d x)
    (hne : x ≠ d) :
    ∃ o, ws.Under d o ∧ ∃ i ∈ (ws.block o).inputs, ∃ t, i.target = some t ∧
      x ∈ ws.chain (some t) := by
  induction hh : ws.height x using Nat.strongRecOn generalizing x with
  | ind h ih =>
    rcases Relation.ReflTransGen.cases_head hx with rfl | ⟨y, hy, hdy⟩
    · exact absurd rfl hne
    · have hchild := hws.child_of_parent y x hy
      rcases mem_append.mp hchild with htarget | hnext
      · obtain ⟨i, hi, hit⟩ := mem_filterMap.mp htarget
        exact ⟨y, hdy, i, hi, x, hit, mem_chain_self hws (hws.child_lt y x hchild)⟩
      · have hnext := Option.mem_toList.mp hnext
        have hyd : y ≠ d := by
          rintro rfl
          rw [hd] at hnext
          cases hnext
        obtain ⟨o, ho, i, hi, t, hit, hyt⟩ := ih _ (hh ▸ height_lt hws hy) hdy hyd rfl
        have htlt := hws.child_lt o t (mem_append_left _ (mem_targets hi hit))
        exact ⟨o, ho, i, hi, t, hit, mem_chain_of_next hws htlt hyt hnext⟩

omit hws in
theorem Under.height_le {a : BlockRef} (h : ws.Under a b) : ws.height a ≤ ws.height b :=
  Finset.card_le_card fun _ hx => mem_above.mpr ⟨(mem_above.mp hx).1, (mem_above.mp hx).2.trans h⟩

/-- What stands in an input of a block is further down than the block. -/
theorem height_lt_of_mem_chain (ht : t ∈ (ws.block b).targets) (hx : x ∈ ws.chain (some t)) :
    ws.height b < ws.height x := by
  have hchild : t ∈ ws.children b := mem_append_left _ ht
  have hunder := under_of_mem_chain hws (hws.child_lt b t hchild) hx
  exact lt_of_lt_of_le (height_lt hws (hws.parent_eq b t hchild)) hunder.height_le

end Workspace

namespace Program

variable {p : Program} {c : Compilation} (hws : p.workspace.Sound)
include hws

theorem isLive_iff : p.isLive c b = true ↔
      p.workspace.isEnabled b = true ∧ ∀ a, p.workspace.Under a b → a ∉ c.disabled := by
  unfold isLive
  rw [Bool.and_eq_true, all_eq_true]
  refine and_congr_right fun _ => forall_congr' fun a => ?_
  rw [mem_ancestors hws]
  simp

/-- A block that stands in an input is live only if the block with the input is. -/
theorem isLive_of_mem_chain {i : Input} (hi : i ∈ (p.block b).inputs) (ht : i.target = some t)
    (hx : x ∈ p.workspace.chain (some t)) (hlive : p.isLive c x = true) : p.isLive c b = true := by
  have htarget : t ∈ (p.workspace.block b).targets := mem_targets hi ht
  have hchild : t ∈ p.workspace.children b := mem_append_left _ htarget
  obtain ⟨henabled, hdisabled⟩ := (isLive_iff hws).mp hlive
  refine (isLive_iff hws).mpr ⟨isEnabled_of_mem_chain hws htarget hx henabled, ?_⟩
  intro a ha
  refine hdisabled a (ha.trans ?_)
  exact (under_of_child hws.toIsForest hchild).trans
    (under_of_mem_chain hws (hws.child_lt b t hchild) hx)

/-- A block that nothing follows is live if a block below it is. -/
theorem isLive_of_under {d : BlockRef} (hd : (p.block d).next = none) (hx : p.workspace.Under d x)
    (hlive : p.isLive c x = true) : p.isLive c d = true := by
  induction hh : p.workspace.height x using Nat.strongRecOn generalizing x with
  | ind h ih =>
    by_cases hne : x = d
    · rw [← hne]
      exact hlive
    · obtain ⟨o, ho, i, hi, t, hit, hxt⟩ := exists_owner hws hd hx hne
      have hlt := height_lt_of_mem_chain hws (mem_targets hi hit) hxt
      exact ih _ (hh ▸ hlt) ho (isLive_of_mem_chain hws hi hit hxt hlive) rfl

end Program

end BlockProgram
