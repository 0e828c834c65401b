import BlockProgram.Proofs.Workspace.Forest
import Mathlib.Algebra.BigOperators.Group.List.Lemmas
import Mathlib.Algebra.GroupWithZero.Nat
import Mathlib.Algebra.Order.BigOperators.Group.Finset
import Mathlib.Data.Finset.Card

/-!
# Walks over a forest

The walks of a workspace carry fuel, as many steps as there are blocks. In a forest that is enough:
below a block there are `reach` blocks, itself included, and every step down leaves some of them
behind. So each walk satisfies the equation that it has without fuel: a chain is a statement and the
chain of its follower (`chain_some`), the blocks below a block are the block and those below its
children (`descendants_eq`), the blocks above it are its parent and those above that one
(`ancestors_of_parent`).
-/

namespace BlockProgram.Workspace

open List Relation

variable {surface : Surface} {b x : BlockRef}

/-- A forest whose parents are all noted for children that are blocks of the workspace. -/
structure Sound (ws : Workspace) : Prop extends ws.IsForest where
  child_of_parent : ∀ b x, ws.parent? x = some b → x ∈ ws.children b
  child_lt : ∀ b x, x ∈ ws.children b → x < ws.size

/-! ## Building -/

/-- Every noted parent is one of the blocks so far and has the block as a child, and children are
below `n`. -/
structure Noted (n : Nat) (acc : Array Block × Array (Option BlockRef)) : Prop where
  child : ∀ x b, noted acc.2 x = some b → ∃ block, acc.1[b]? = some block ∧ x ∈ childrenOf block
  lt : ∀ (b : BlockRef) block, acc.1[b]? = some block → ∀ x ∈ childrenOf block, x < n

theorem noted_empty (n : Nat) : Noted n (#[], Array.replicate n none) := by
  constructor
  · intro x b hx
    unfold noted at hx
    rw [Array.getElem?_replicate] at hx
    split at hx <;> cases hx
  · intro b block hb
    simp at hb

theorem noted_adopt {owner : String} {position x : BlockRef}
    {parents parents' : Array (Option BlockRef)}
    (h : adopt owner position parents x = .ok parents') {y : BlockRef}
    (hy : noted parents' y = some b) : noted parents y = some b ∨ b = position ∧ y = x := by
  unfold adopt at h
  split at h
  · cases h
  · split at h
    · cases h
    · cases h
      unfold noted at hy ⊢
      rw [Array.getElem?_setIfInBounds] at hy
      split at hy
      · next hxy =>
        split at hy
        · exact .inr ⟨(Option.some.inj hy).symm, hxy.symm⟩
        · cases hy
      · exact .inl hy

theorem noted_adoptAll {owner : String} {position : BlockRef} {children : List BlockRef}
    {parents parents' : Array (Option BlockRef)}
    (h : children.foldlM (adopt owner position) parents = .ok parents') {y : BlockRef}
    (hy : noted parents' y = some b) : noted parents y = some b ∨ b = position ∧ y ∈ children := by
  induction children generalizing parents with
  | nil =>
    cases h
    exact .inl hy
  | cons x r ih =>
    rw [foldlM_cons] at h
    obtain ⟨parents1, hfirst, h⟩ := ok_of_bind h
    rcases ih h with hy | ⟨hb, hy⟩
    · rcases noted_adopt hfirst hy with hy | ⟨hb, hy⟩
      · exact .inl hy
      · exact .inr ⟨hb, by rw [hy]; exact mem_cons_self⟩
    · exact .inr ⟨hb, .tail x hy⟩

theorem addBlock_noted {ids : List String} {spec : BlockSpec}
    {acc acc' : Array Block × Array (Option BlockRef)} (hacc : Noted ids.length acc)
    (h : addBlock surface ids acc spec = .ok acc') : Noted ids.length acc' := by
  obtain ⟨b, parents, hb, hparents, rfl⟩ := exists_of_addBlock h
  constructor
  · intro x a hx
    rcases noted_adoptAll hparents hx with hx | ⟨ha, hx⟩
    · obtain ⟨block, hblock, hmem⟩ := hacc.child x a hx
      refine ⟨block, ?_, hmem⟩
      have hlt := (Array.getElem?_eq_some_iff.mp hblock).1
      rw [Array.getElem?_push_lt hlt, ← Array.getElem?_eq_getElem hlt]
      exact hblock
    · exact ⟨b, by rw [ha]; exact Array.getElem?_push_size, hx⟩
  · intro a block hblock x hx
    rw [Array.getElem?_push] at hblock
    split at hblock
    · cases hblock
      exact childrenOf_lt hb hx
    · exact hacc.lt a block hblock x hx

theorem addBlocks_noted {ids : List String} {specs : List BlockSpec}
    {acc acc' : Array Block × Array (Option BlockRef)} (hacc : Noted ids.length acc)
    (h : specs.foldlM (addBlock surface ids) acc = .ok acc') : Noted ids.length acc' :=
  addBlocks_induction (J := fun _ => Noted _) (fun _ _ _ _ => addBlock_noted) [] hacc h

theorem build_sound {specs : List BlockSpec} {vars : List VariableModel} {ws : Workspace}
    (h : build surface specs vars = .ok ws) : ws.Sound := by
  have hnoted := addBlocks_noted (noted_empty _) (exists_of_build h).2.1
  refine { build_isForest h with child_of_parent := ?_, child_lt := ?_ }
  · intro b x hx
    obtain ⟨block, hblock, hmem⟩ := hnoted.child x b hx
    unfold children Workspace.block
    rw [hblock]
    exact hmem
  · intro b x hx
    unfold children block at hx
    cases hblock : ws.blocks[b]? with
    | none =>
      rw [hblock] at hx
      cases hx
    | some block =>
      rw [hblock] at hx
      have hlt := hnoted.lt b block hblock x hx
      rwa [length_map, ← (build_linked h).2] at hlt

/-! ## How much is below a block -/

section Reach

open Classical in
/-- The blocks of the workspace that are below a block or the block itself. -/
noncomputable def under (ws : Workspace) (b : BlockRef) : Finset BlockRef :=
  (Finset.range ws.size).filter (ws.Under b)

/-- How many blocks are below a block, itself included. -/
noncomputable def reach (ws : Workspace) (b : BlockRef) : Nat :=
  (ws.under b).card

variable {ws : Workspace}

theorem mem_under : x ∈ ws.under b ↔ x < ws.size ∧ ws.Under b x := by
  simp [under]

theorem reach_le (b : BlockRef) : ws.reach b ≤ ws.size := by
  have hsub : ws.under b ⊆ Finset.range ws.size := fun x hx =>
    Finset.mem_range.mpr (mem_under.mp hx).1
  exact (Finset.card_le_card hsub).trans_eq (Finset.card_range _)

theorem reach_pos (hb : b < ws.size) : 0 < ws.reach b :=
  Finset.card_pos.mpr ⟨b, mem_under.mpr ⟨hb, .refl⟩⟩

theorem block_eq_default (hb : ws.size ≤ b) : ws.block b = default := by
  unfold block
  rw [Array.getElem?_eq_none hb]
  rfl

/-- Only blocks of the workspace have children. -/
theorem lt_of_child (hx : x ∈ ws.children b) : b < ws.size := by
  apply Nat.lt_of_not_le
  intro hle
  unfold children at hx
  rw [block_eq_default hle] at hx
  cases hx

variable (hws : ws.Sound)

include hws

/-- The children of a block share the blocks below it out among them, all but the block itself. -/
theorem reach_children (b : BlockRef) (hb : b < ws.size) :
    ((ws.children b).map ws.reach).sum < ws.reach b := by
  have hparent := hws.parent_eq b
  have hdisjoint : ((ws.children b).toFinset : Set BlockRef).PairwiseDisjoint ws.under := by
    intro t ht u hu htu
    rw [Function.onFun, Finset.disjoint_left]
    intro x hxt hxu
    apply htu
    exact eq_of_under_of_sibling hws.toIsForest (hparent t (by simpa using ht))
      (hparent u (by simpa using hu)) (mem_under.mp hxt).2 (mem_under.mp hxu).2
  have hsum : ((ws.children b).map ws.reach).sum =
      ((ws.children b).toFinset.biUnion ws.under).card := by
    rw [Finset.card_biUnion hdisjoint, sum_toFinset _ (hws.nodup b)]
    rfl
  rw [hsum]
  refine Finset.card_lt_card ⟨?_, ?_⟩
  · intro x hx
    obtain ⟨t, ht, hx⟩ := Finset.mem_biUnion.mp hx
    have hx := mem_under.mp hx
    exact mem_under.mpr ⟨hx.1, (under_of_child hws.toIsForest (by simpa using ht)).trans hx.2⟩
  · intro hsub
    have hself := hsub (mem_under.mpr ⟨hb, .refl⟩)
    obtain ⟨t, ht, hbt⟩ := Finset.mem_biUnion.mp hself
    exact not_under_of_parent hws.toIsForest (hparent t (by simpa using ht)) (mem_under.mp hbt).2

theorem reach_lt {t : BlockRef} (ht : t ∈ ws.children b) : ws.reach t < ws.reach b :=
  lt_of_le_of_lt (single_le_sum (fun _ _ => Nat.zero_le _) _ (mem_map_of_mem ht))
    (reach_children hws b (lt_of_child ht))

/-- What holds of a block if it does of its children, holds of every block. -/
theorem children_induction {P : ∀ b < ws.size, Prop}
    (step : ∀ b hb, (∀ t (ht : t ∈ ws.children b), P t (hws.child_lt b t ht)) → P b hb)
    (b : BlockRef) (hb : b < ws.size) : P b hb := by
  induction hr : ws.reach b using Nat.strongRecOn generalizing b with
  | ind r ih =>
    exact step b hb fun t ht => ih _ (hr ▸ reach_lt hws ht) t (hws.child_lt b t ht) rfl

/-! ## Chains -/

omit hws in
@[simp] theorem chain_none : ws.chain none = [] := by
  unfold chain
  cases ws.size <;> rfl

theorem chainFrom_of_reach {m n : Nat} (hb : b < ws.size) (hm : ws.reach b ≤ m)
    (hn : ws.reach b ≤ n) : ws.chainFrom m (some b) = ws.chainFrom n (some b) := by
  induction m generalizing b n with
  | zero => exact absurd (reach_pos hb) (Nat.not_lt_of_le hm)
  | succ m ih =>
    cases n with
    | zero => exact absurd (reach_pos hb) (Nat.not_lt_of_le hn)
    | succ n =>
      show b :: ws.chainFrom m (ws.block b).next = b :: ws.chainFrom n (ws.block b).next
      cases hnext : (ws.block b).next with
      | none => cases m <;> cases n <;> rfl
      | some x =>
        have hx := next_mem_children hnext
        have hlt := reach_lt hws hx
        rw [ih (n := n) (hws.child_lt b x hx) (by omega) (by omega)]

theorem chain_some (hb : b < ws.size) : ws.chain (some b) = b :: ws.chain (ws.block b).next := by
  unfold chain
  rw [chainFrom_of_reach hws hb (reach_le b) (Nat.le_succ_of_le (reach_le b))]
  rfl

theorem mem_chain_self (hb : b < ws.size) : b ∈ ws.chain (some b) := by
  rw [chain_some hws hb]
  exact .head _

/-- A chain goes from a statement to what follows it. -/
theorem mem_chain_induction {P : BlockRef → BlockRef → Prop} (hself : ∀ t, P t t)
    (hstep : ∀ t n x, (ws.block t).next = some n → P n x → P t x) {t x : BlockRef}
    (ht : t < ws.size) (hx : x ∈ ws.chain (some t)) : P t x := by
  induction t, ht using children_induction hws with
  | step t ht ih =>
    rw [chain_some hws ht] at hx
    rcases mem_cons.mp hx with rfl | hx
    · exact hself x
    · cases hnext : (ws.block t).next with
      | none =>
        rw [hnext, chain_none] at hx
        cases hx
      | some n =>
        rw [hnext] at hx
        exact hstep t n x hnext (ih n (next_mem_children hnext) hx)

theorem under_of_mem_chain (hb : b < ws.size) (hx : x ∈ ws.chain (some b)) : ws.Under b x :=
  mem_chain_induction hws (P := ws.Under) (fun _ => .refl)
    (fun _ _ _ hnext h => (under_of_next hws.toIsForest hnext).trans h) hb hx

omit hws in
theorem Under.reach_le (h : ws.Under b x) : ws.reach x ≤ ws.reach b :=
  Finset.card_le_card fun _ hy => mem_under.mpr ⟨(mem_under.mp hy).1, h.trans (mem_under.mp hy).2⟩

theorem Under.lt (hb : b < ws.size) (h : ws.Under b x) : x < ws.size := by
  rcases ReflTransGen.cases_head h with rfl | ⟨y, hy, _⟩
  · exact hb
  · exact hws.child_lt y x (hws.child_of_parent y x hy)

/-! ## Everything below -/

theorem walk_eq_flatMap (l : List BlockRef) (hl : ∀ b ∈ l, b < ws.size) (n : Nat)
    (hn : (l.map ws.reach).sum ≤ n) : ws.walk n l = l.flatMap ws.descendants := by
  induction hk : (l.map ws.reach).sum using Nat.strongRecOn generalizing l n with
  | ind k ih =>
    cases l with
    | nil => cases n <;> rfl
    | cons b r =>
      have hb := hl b (.head _)
      have hpos := reach_pos hb
      have hbelow := reach_children hws b hb
      have hchild : ∀ x ∈ ws.children b, x < ws.size := hws.child_lt b
      rw [map_cons, sum_cons] at hk hn
      -- with any fuel that lasts, the walk from `b` goes on with its children
      have hstep : ∀ m stack, (∀ x ∈ stack, x < ws.size) →
        ws.reach b + (stack.map ws.reach).sum ≤ m →
          (stack.map ws.reach).sum ≤ (r.map ws.reach).sum →
          ws.walk m (b :: stack) = b :: (ws.children b ++ stack).flatMap ws.descendants := by
        intro m stack hstack hm hle
        cases m with
        | zero => omega
        | succ m =>
          show b :: ws.walk m (ws.children b ++ stack) = _
          have hsum : ((ws.children b ++ stack).map ws.reach).sum =
              ((ws.children b).map ws.reach).sum + (stack.map ws.reach).sum := by simp
          rw [ih _ (by omega) (ws.children b ++ stack) ?_ m (by omega) rfl]
          intro x hx
          rcases mem_append.mp hx with hx | hx
          · exact hchild x hx
          · exact hstack x hx
      have hself : ws.descendants b = b :: (ws.children b).flatMap ws.descendants := by
        have hlong := hstep ws.size [] (by simp) (by simpa using reach_le b) (by simp)
        rwa [append_nil] at hlong
      rw [hstep n r (fun x hx => hl x (.tail b hx)) hn le_rfl, flatMap_cons, flatMap_append, hself]
      rfl

theorem descendants_eq (hb : b < ws.size) :
    ws.descendants b = b :: (ws.children b).flatMap ws.descendants := by
  have hpos := reach_pos hb
  have hle : ws.reach b ≤ ws.size := reach_le b
  have hbelow := reach_children hws b hb
  show ws.walk ws.size [b] = _
  obtain ⟨m, hm⟩ : ∃ m, ws.size = m + 1 := ⟨ws.size - 1, by omega⟩
  have hwalk := walk_eq_flatMap hws (ws.children b) (hws.child_lt b) m (by omega)
  rw [hm]
  show b :: ws.walk m (ws.children b ++ []) = _
  rw [append_nil, hwalk]

theorem mem_descendants (hb : b < ws.size) : x ∈ ws.descendants b ↔ ws.Under b x := by
  induction b, hb using children_induction hws with
  | step b hb ih =>
    rw [descendants_eq hws hb, mem_cons, mem_flatMap]
    constructor
    · rintro (rfl | ⟨t, ht, hx⟩)
      · exact .refl
      · exact (under_of_child hws.toIsForest ht).trans ((ih t ht).mp hx)
    · intro h
      rcases ReflTransGen.cases_tail h with rfl | ⟨t, hx, ht⟩
      · exact .inl rfl
      · have ht := hws.child_of_parent b t ht
        exact .inr ⟨t, ht, (ih t ht).mpr hx⟩

theorem mem_subtree : x ∈ ws.subtree b ↔ ws.Within b x := by
  unfold subtree Within
  rw [mem_cons, mem_flatMap]
  refine or_congr_right (exists_congr fun t => and_congr_right fun ht => ?_)
  exact mem_descendants hws (hws.child_lt b t (mem_append_left _ ht))

end Reach

/-! ## Upwards -/

section Above

variable {ws : Workspace}

theorem ancestors_of_top (hb : ws.parent? b = none) : ws.ancestors b = [] := by
  unfold ancestors
  cases ws.size with
  | zero => rfl
  | succ n =>
    unfold ancestorsFrom
    rw [hb]

theorem surroundings_of_top (hb : ws.parent? b = none) :
    ws.surroundingsEnabled ws.size b = true := by
  cases ws.size with
  | zero => rfl
  | succ n =>
    unfold surroundingsEnabled
    rw [hb]

open Classical in
/-- The blocks of the workspace that are above a block or the block itself. -/
noncomputable def above (ws : Workspace) (b : BlockRef) : Finset BlockRef :=
  (Finset.range ws.size).filter (ws.Under · b)

/-- How many blocks are above a block, itself included. -/
noncomputable def height (ws : Workspace) (b : BlockRef) : Nat :=
  (ws.above b).card

theorem mem_above {a : BlockRef} : a ∈ ws.above b ↔ a < ws.size ∧ ws.Under a b := by
  simp [above]

theorem height_le (b : BlockRef) : ws.height b ≤ ws.size := by
  have hsub : ws.above b ⊆ Finset.range ws.size := fun x hx =>
    Finset.mem_range.mpr (mem_above.mp hx).1
  exact (Finset.card_le_card hsub).trans_eq (Finset.card_range _)

variable (hws : ws.Sound)

include hws

theorem height_lt (hx : ws.parent? x = some b) : ws.height b < ws.height x := by
  have hchild := hws.child_of_parent b x hx
  refine Finset.card_lt_card ⟨?_, ?_⟩
  · intro a ha
    have ha := mem_above.mp ha
    exact mem_above.mpr ⟨ha.1, ha.2.trans (under_of_child hws.toIsForest hchild)⟩
  · intro hsub
    have hself := hsub (mem_above.mpr ⟨hws.child_lt b x hchild, .refl⟩)
    exact not_under_of_parent hws.toIsForest hx (mem_above.mp hself).2

/-- A function that climbs from parent to parent needs no more fuel than there are blocks above. -/
theorem climb_of_height {α : Type} {f : Nat → BlockRef → α} {top : α}
    {F : BlockRef → BlockRef → α → α} (hzero : ∀ b, f 0 b = top)
    (hsucc : ∀ n b, f (n + 1) b = (ws.parent? b).elim top fun q => F b q (f n q))
    {m n : Nat} (hm : ws.height b ≤ m) (hn : ws.height b ≤ n) : f m b = f n b := by
  induction m generalizing b n with
  | zero =>
    cases hp : ws.parent? b with
    | none => cases n <;> simp [hzero, hsucc, hp]
    | some q => exact absurd (height_lt hws hp) (by omega)
  | succ m ih =>
    cases hp : ws.parent? b with
    | none => cases n <;> simp [hzero, hsucc, hp]
    | some q =>
      have hlt := height_lt hws hp
      cases n with
      | zero => omega
      | succ n =>
        rw [hsucc, hsucc, hp, Option.elim_some, Option.elim_some, ih (n := n) (by omega) (by omega)]

/-- Above a block are its parent and what is above that one. -/
theorem ancestors_of_parent {q : BlockRef} (hq : ws.parent? b = some q) :
    ws.ancestors b = q :: ws.ancestors q := by
  have hsucc : ∀ n b, ws.ancestorsFrom (n + 1) b =
      (ws.parent? b).elim [] fun q => q :: ws.ancestorsFrom n q := by
    intro n b
    rw [ancestorsFrom]
    cases ws.parent? b <;> rfl
  have hstable := climb_of_height (F := fun _ q l => q :: l) hws (fun _ => rfl) hsucc (height_le b)
    (Nat.le_succ_of_le (height_le b))
  unfold ancestors
  rw [hstable, hsucc, hq]
  rfl

/-- What surrounds a block is its parent, unless the block follows it, and what surrounds that. -/
theorem surroundings_of_parent {q : BlockRef} (hq : ws.parent? b = some q) :
    ws.surroundingsEnabled ws.size b = (((ws.block q).next == some b || (ws.block q).enabled) &&
        ws.surroundingsEnabled ws.size q) := by
  have hsucc : ∀ n b, ws.surroundingsEnabled (n + 1) b = (ws.parent? b).elim true fun q =>
      ((ws.block q).next == some b || (ws.block q).enabled) && ws.surroundingsEnabled n q := by
    intro n b
    rw [surroundingsEnabled]
    cases ws.parent? b <;> rfl
  have hstable := climb_of_height
    (F := fun b q r => ((ws.block q).next == some b || (ws.block q).enabled) && r) hws
    (fun _ => rfl) hsucc (height_le b) (Nat.le_succ_of_le (height_le b))
  rw [hstable, hsucc, hq]
  rfl

theorem mem_ancestors {a : BlockRef} : a ∈ b :: ws.ancestors b ↔ ws.Under a b := by
  induction hh : ws.height b using Nat.strongRecOn generalizing b with
  | ind h ih =>
    rw [mem_cons]
    cases hq : ws.parent? b with
    | none =>
      rw [ancestors_of_top hq]
      constructor
      · rintro (rfl | ha)
        · exact .refl
        · cases ha
      · intro ha
        rcases ReflTransGen.cases_head ha with rfl | ⟨y, hy, _⟩
        · exact .inl rfl
        · rw [hq] at hy
          cases hy
    | some q =>
      rw [ancestors_of_parent hws hq, ih _ (hh ▸ height_lt hws hq) rfl]
      constructor
      · rintro (rfl | ha)
        · exact .refl
        · exact ha.trans (under_of_child hws.toIsForest (hws.child_of_parent q b hq))
      · intro ha
        rcases ReflTransGen.cases_head ha with rfl | ⟨y, hy, ha⟩
        · exact .inl rfl
        · rw [hq] at hy
          cases hy
          exact .inr ha

end Above

end BlockProgram.Workspace
