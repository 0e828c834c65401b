import BlockProgram.Proofs.Workspace.Cover

/-!
# The walk down is the recursive order

The walk down from a block keeps what is left to visit on a stack. In a built workspace it lists the
blocks in the order of the recursion over the tree: a block, what is below its inputs one after
another, and what follows it. That recursion has one solution (`IsPreorderWalk.eq_descendants`).
-/

namespace BlockProgram.Workspace

variable {ws : Workspace}

/-- From each block, `order` lists the block, then what it lists from the block in each input, and
then what it lists from the statement that follows. -/
def IsPreorderWalk (ws : Workspace) (order : BlockRef → List BlockRef) : Prop :=
  ∀ b < ws.size, order b =
    b :: ((ws.block b).targets.flatMap order ++ (ws.block b).next.elim [] order)

theorem flatMap_children (b : BlockRef) (order : BlockRef → List BlockRef) :
    (ws.children b).flatMap order =
      (ws.block b).targets.flatMap order ++ (ws.block b).next.elim [] order := by
  unfold children
  rw [List.flatMap_append]
  cases (ws.block b).next with
  | none => rfl
  | some n => simp

section Walking

variable (hws : ws.Sound)

include hws

theorem isPreorderWalk_descendants : ws.IsPreorderWalk ws.descendants := by
  intro b hb
  rw [descendants_eq hws hb, flatMap_children]

/-- There is only one way to walk in preorder. -/
theorem IsPreorderWalk.eq_descendants {order : BlockRef → List BlockRef}
    (h : ws.IsPreorderWalk order) {b : BlockRef} (hb : b < ws.size) :
    order b = ws.descendants b := by
  induction b, hb using children_induction hws with
  | step b hb ih =>
    rw [h b hb, descendants_eq hws hb, ← flatMap_children]
    congr 1
    exact List.flatMap_congr ih

/-- What follows a block is not below its inputs, so leaving it out of the walk leaves these. -/
theorem subtree_eq_filter {b : BlockRef} (hb : b < ws.size) :
    ws.subtree b =
      (ws.descendants b).filter fun x => x ∉ (ws.block b).next.elim [] ws.descendants := by
  have hwalk : ws.descendants b =
      ws.subtree b ++ (ws.block b).next.elim [] ws.descendants :=
    isPreorderWalk_descendants hws b hb
  have hapart : ∀ x ∈ ws.subtree b, x ∉ (ws.block b).next.elim [] ws.descendants := by
    have hnodup := nodup_descendants hws hb
    rw [hwalk] at hnodup
    exact List.disjoint_of_nodup_append hnodup
  rw [hwalk, List.filter_append]
  rw [List.filter_eq_self.mpr (by simpa using hapart), List.filter_eq_nil_iff.mpr (by simp)]
  simp

end Walking

/-- In a built workspace the walk with a stack, which ends by itself within one round more than
there are blocks, is the one walk in preorder: a block, the walks from its inputs, the walk from
what follows. It meets no block twice, and the blocks within a block are those that are left when
the walk from what follows it is taken out. -/
theorem descendants_preorder {surface : Surface} {specs : List BlockSpec}
    {vars : List VariableModel} (h : build surface specs vars = .ok ws) :
    ws.IsPreorderWalk ws.descendants ∧
    (∀ order, ws.IsPreorderWalk order → ∀ b < ws.size, order b = ws.descendants b) ∧
    ∀ b < ws.size,
      (∀ clock, ws.size < clock → ws.walkWithin clock [b] = some (ws.descendants b)) ∧
      (ws.descendants b).Nodup ∧
      ws.subtree b =
        (ws.descendants b).filter fun x => x ∉ (ws.block b).next.elim [] ws.descendants := by
  have hws := build_sound h
  refine ⟨isPreorderWalk_descendants hws, fun order horder b hb => horder.eq_descendants hws hb, ?_⟩
  intro b hb
  refine ⟨?_, nodup_descendants hws hb, subtree_eq_filter hws hb⟩
  intro clock hclock
  have hreach : ws.reach b ≤ ws.size := reach_le b
  have hwalk := walkWithin_eq hws clock [b] (by simpa using hb) (by simp; omega)
  simpa using hwalk

theorem descendants_preorder_loop :
    ∃ ws, build {} loopBlocks [] = .ok ws ∧
      ws.walkWithin 6 [1] = some [1, 0, 2, 3] ∧ (ws.descendants 1).Nodup ∧
      ws.subtree 1 = [1, 0, 2, 3].filter (· ∉ [3]) := by
  refine ⟨_, rfl, ?_⟩
  obtain ⟨_, _, hblocks⟩ := descendants_preorder (show build {} loopBlocks [] = .ok _ from rfl)
  obtain ⟨hends, hnodup, hsubtree⟩ := hblocks 1 (by decide)
  exact ⟨hends 6 (by decide), hnodup, hsubtree⟩

end BlockProgram.Workspace
