import BlockProgram.Proofs.TypeGraph.Reachable
import Mathlib.Data.List.ProdSigma
import Mathlib.Data.List.Perm.Subperm

/-!
# The check before a union

Joining two classes forces further pairs together: their elements if both have some, their lists if
both have some, and so on (`Forced`). The check of a union refuses it exactly when the types of some
forced pair cannot be one (`Clashes`), and changes nothing that can be seen.

The walk keeps the pairs it has compared, so it ends on graphs whose lists and elements form rings,
and when it ends well, what it has compared is closed under forcing.
-/

namespace BlockProgram.TypeGraph

open List

variable {seen : Pairs} {g : TypeGraph}

/-- The pairs of roots that joining the classes of `p` and `q` forces together, as the graph stands
before anything is joined. -/
inductive Forced (g : TypeGraph) (p q : NodeId) : NodeId → NodeId → Prop where
  | start : Forced g p q (g.root p) (g.root q)
  | element {a b x y : NodeId} (h : Forced g p q a b) (hab : a ≠ b)
      (hx : (g.node a).element = some x) (hy : (g.node b).element = some y) :
      Forced g p q (g.root x) (g.root y)
  | container {a b x y : NodeId} (h : Forced g p q a b) (hab : a ≠ b)
      (hx : (g.node a).container = some x) (hy : (g.node b).container = some y) :
      Forced g p q (g.root x) (g.root y)

/-- Some pair that is forced together has types that cannot be one. -/
def Clashes (g : TypeGraph) (p q : NodeId) : Prop :=
  ∃ a b e, Forced g p q a b ∧ TypeName.unify (g.node a).type (g.node b).type = .error e

/-! ## Compared pairs -/

/-- Different pairs of nodes of a graph with `n` nodes. -/
structure PairsBelow (n : Nat) (seen : Pairs) : Prop where
  nodup : seen.Nodup
  lt : ∀ ab ∈ seen, ab.1 < n ∧ ab.2 < n

theorem PairsBelow.length_le {n : Nat} (h : PairsBelow n seen) : seen.length ≤ n * n := by
  have hsub : seen ⊆ List.range n ×ˢ List.range n := by
    intro ab hab
    obtain ⟨h1, h2⟩ := h.lt ab hab
    exact mem_product.mpr ⟨mem_range.mpr h1, mem_range.mpr h2⟩
  have hle := (h.nodup.subperm hsub).length_le
  rwa [length_product, length_range] at hle

/-- A pair whose types fit, with its forced pairs joined already or in `seen`. -/
structure Compared (g : TypeGraph) (seen : Pairs) (a b : NodeId) : Prop where
  unifies : ∃ t, TypeName.unify (g.node a).type (g.node b).type = .ok t
  element : ∀ x y, (g.node a).element = some x → (g.node b).element = some y →
    g.root x = g.root y ∨ (g.root x, g.root y) ∈ seen
  container : ∀ x y, (g.node a).container = some x → (g.node b).container = some y →
    g.root x = g.root y ∨ (g.root x, g.root y) ∈ seen

theorem Compared.mono {seen seen' : Pairs} {a b : NodeId} (h : Compared g seen a b)
    (hsub : seen ⊆ seen') : Compared g seen' a b where
  unifies := h.unifies
  element x y hx hy := (h.element x y hx hy).imp id (fun hm => hsub hm)
  container x y hx hy := (h.container x y hx hy).imp id (fun hm => hsub hm)

/-- The walk went on from `seen` to `seen'`: all that is new there is compared. -/
structure Explores (g : TypeGraph) (seen seen' : Pairs) : Prop where
  below : PairsBelow g.size seen'
  subset : seen ⊆ seen'
  length_le : seen.length ≤ seen'.length
  compared : ∀ a b, (a, b) ∈ seen' → (a, b) ∈ seen ∨ Compared g seen' a b

theorem Explores.refl (h : PairsBelow g.size seen) : Explores g seen seen :=
  ⟨h, List.Subset.refl _, le_rfl, fun _ _ hm => .inl hm⟩

theorem Explores.trans {seen seen' seen'' : Pairs} (h1 : Explores g seen seen')
    (h2 : Explores g seen' seen'') : Explores g seen seen'' where
  below := h2.below
  subset := List.Subset.trans h1.subset h2.subset
  length_le := le_trans h1.length_le h2.length_le
  compared a b hm := by
    rcases h2.compared a b hm with hm' | hc
    · exact (h1.compared a b hm').imp id (fun hc => hc.mono h2.subset)
    · exact .inr hc

/-! ## The walk -/

section Walk

variable {g : TypeGraph} {p q : NodeId}

/-- What is known of graph `k` during the walk over `g`. -/
def Walked (g k : TypeGraph) : Prop :=
  k.WellFormed ∧ SameClasses g k

/-- What a walk from the classes of `x` and `y` yields, and what it fails for. -/
def Walks (g : TypeGraph) (p q : NodeId) (m : UnifyM Pairs) (seen : Pairs) (x y : NodeId) : Prop :=
  ∀ k, Walked g k → Ensures m k (fun seen' k' => Walked g k' ∧ Explores g seen seen' ∧
      (g.root x = g.root y ∨ (g.root x, g.root y) ∈ seen'))
    (fun _ _ => Clashes g p q)

/-- The walk goes on over two classes, if both are recorded. -/
theorem ensures_checkBoth (check : Pairs → NodeId → NodeId → UnifyM Pairs) (seen : Pairs)
    (hseen : PairsBelow g.size seen) (u v : Option NodeId)
    (hcheck : ∀ x y, u = some x → v = some y → Walks g p q (check seen x y) seen x y)
    (k : TypeGraph) (hk : Walked g k) :
    Ensures (checkBoth check seen u v) k (fun seen' k' => Walked g k' ∧ Explores g seen seen' ∧
        ∀ x y, u = some x → v = some y → g.root x = g.root y ∨ (g.root x, g.root y) ∈ seen')
      (fun _ _ => Clashes g p q) := by
  unfold checkBoth
  split
  · next x y =>
    refine (hcheck x y rfl rfl k hk).imp ?_ (fun _ _ h => h)
    rintro seen' k' ⟨hk', hex, hxy⟩
    refine ⟨hk', hex, ?_⟩
    intro x' y' hx hy
    cases hx
    cases hy
    exact hxy
  · next hnot =>
    refine ⟨hk, Explores.refl hseen, ?_⟩
    intro x y hx hy
    exact absurd hy (hnot x y hx)

/-- The part of the walk that goes from a new pair to the pairs it forces. -/
theorem walks_forced (hg : g.WellFormed) {fuel : Nat} (hseen : PairsBelow g.size seen)
    (hfuel : g.size * g.size < fuel + 1 + seen.length) {x y : NodeId} (hx : x < g.size)
    (hy : y < g.size) (hforced : Forced g p q (g.root x) (g.root y)) (hab : g.root x ≠ g.root y)
    (hnot : (g.root x, g.root y) ∉ seen)
    (hunify : ∃ t, TypeName.unify (g.node (g.root x)).type (g.node (g.root y)).type = .ok t)
    (ih : ∀ seen, PairsBelow g.size seen → g.size * g.size < fuel + seen.length →
      ∀ x y, x < g.size → y < g.size → Forced g p q (g.root x) (g.root y) →
        Walks g p q (checkUnion fuel seen x y) seen x y) :
    Walks g p q (do
      let g' ← get
      let seen ← checkBoth (checkUnion fuel) ((g.root x, g.root y) :: seen)
        (g'.node (g.root x)).element (g'.node (g.root y)).element
      let g' ← get
      checkBoth (checkUnion fuel) seen (g'.node (g.root x)).container
        (g'.node (g.root y)).container) seen x y := by
  have hseen0 : PairsBelow g.size ((g.root x, g.root y) :: seen) := by
    refine ⟨nodup_cons.mpr ⟨hnot, hseen.nodup⟩, ?_⟩
    intro ab hab
    rcases mem_cons.mp hab with rfl | hab
    · exact ⟨root_lt hg x hx, root_lt hg y hy⟩
    · exact hseen.lt ab hab
  intro k hk
  refine .bind_get ?_
  refine .bind (ensures_checkBoth _ _ hseen0 _ _ ?_ k hk) ?_
  · intro u v hu hv
    rw [hk.2.element_eq] at hu hv
    refine ih _ hseen0 (by rw [length_cons]; omega) u v ?_ ?_ (hforced.element hab hu hv)
    · exact hg.element_lt _ u hu
    · exact hg.element_lt _ v hv
  · rintro seen1 k1 ⟨hk1, hex1, hel⟩
    have hlen := hex1.length_le
    rw [length_cons] at hlen
    refine .bind_get ?_
    refine (ensures_checkBoth _ _ hex1.below _ _ ?_ k1 hk1).imp ?_ (fun _ _ h => h)
    · intro u v hu hv
      rw [hk1.2.container_eq] at hu hv
      refine ih _ hex1.below (by omega) u v ?_ ?_ (hforced.container hab hu hv)
      · exact hg.container_lt _ u hu
      · exact hg.container_lt _ v hv
    · rintro seen2 k2 ⟨hk2, hex2, hco⟩
      have hex := hex1.trans hex2
      have hmem : (g.root x, g.root y) ∈ seen2 := hex.subset (mem_cons_self ..)
      refine ⟨hk2, ⟨hex.below, ?_, ?_, ?_⟩, .inr hmem⟩
      · exact List.Subset.trans (subset_cons_self _ _) hex.subset
      · exact le_trans (Nat.le_succ _) hex.length_le
      · intro a b hm
        rcases hex.compared a b hm with hm' | hc
        · rcases mem_cons.mp hm' with heq | hm'
          · -- the new pair itself: its forced pairs were walked to
            cases heq
            refine .inr ⟨hunify, ?_, ?_⟩
            · intro u v hu hv
              rw [← hk.2.element_eq] at hu hv
              exact (hel u v hu hv).imp id (fun h => hex2.subset h)
            · intro u v hu hv
              rw [← hk1.2.container_eq] at hu hv
              exact hco u v hu hv
          · exact .inl hm'
        · exact .inr hc

theorem walks_checkUnion (hg : g.WellFormed) (fuel : Nat) (seen : Pairs)
    (hseen : PairsBelow g.size seen) (hfuel : g.size * g.size < fuel + seen.length) (x y : NodeId)
    (hx : x < g.size) (hy : y < g.size) (hforced : Forced g p q (g.root x) (g.root y)) :
    Walks g p q (checkUnion fuel seen x y) seen x y := by
  induction fuel generalizing seen x y with
  | zero =>
    have := hseen.length_le
    omega
  | succ fuel ih =>
    rintro k ⟨hk, hs⟩
    unfold checkUnion
    refine .bind_lift ?_
    refine .bind_lift ?_
    have hk1 := compress_wellFormed hk x
    have hk2 := compress_wellFormed hk1 y
    have hs1 := hs.trans (compress_sameClasses hk x)
    have hs2 := hs1.trans (compress_sameClasses hk1 y)
    have ha : (find x k).1 = g.root x := hs.root_eq x
    have hb : (find y (find x k).2).1 = g.root y := hs1.root_eq y
    rw [ha, hb]
    have hw : Walked g (find y (find x k).2).2 := ⟨hk2, hs2⟩
    generalize (find y (find x k).2).2 = k2 at hw
    split
    · next hdone =>
      refine ⟨hw, Explores.refl hseen, hdone⟩
    · next hnew =>
      have hab : g.root x ≠ g.root y := fun h => hnew (.inl h)
      have hnot : (g.root x, g.root y) ∉ seen := fun h => hnew (.inr h)
      refine .bind ((ensures_unifyRoots _ _).imp (fun _ _ h => h) ?_) ?_
      · rintro e _ ⟨rfl, he⟩
        rw [hw.2.type_eq, hw.2.type_eq] at he
        exact ⟨_, _, e, hforced, he⟩
      · rintro t _ ⟨rfl, ht⟩
        rw [hw.2.type_eq, hw.2.type_eq] at ht
        exact walks_forced hg hseen hfuel hx hy hforced hab hnot ⟨t, ht⟩ ih _ hw

end Walk

/-! ## What the check decides -/

theorem unify_self (t : Option TypeName) : TypeName.unify t t = .ok t := by
  cases t with
  | none => rfl
  | some a =>
    simp only [TypeName.unify]
    split
    · rfl
    · rfl

/-- Pairs that are closed under forcing and hold the first pair hold all forced pairs. -/
theorem mem_of_forced {p q : NodeId} (hstart : g.root p = g.root q ∨ (g.root p, g.root q) ∈ seen)
    (hclosed : ∀ a b, (a, b) ∈ seen → Compared g seen a b) {a b : NodeId} (hf : Forced g p q a b) :
    a = b ∨ (a, b) ∈ seen := by
  induction hf with
  | start => exact hstart
  | element _ hab hx hy ih =>
    rcases ih with h | h
    · exact absurd h hab
    · exact (hclosed _ _ h).element _ _ hx hy
  | container _ hab hx hy ih =>
    rcases ih with h | h
    · exact absurd h hab
    · exact (hclosed _ _ h).container _ _ hx hy

/-- The check refuses a union exactly when a forced pair clashes, and keeps all classes. -/
theorem ensures_checkUnion (hg : g.WellFormed) (p q : NodeId) (hp : p < g.size) (hq : q < g.size) :
    Ensures (checkUnion (g.size * g.size + 1) [] p q) g (fun _ h => Walked g h ∧ ¬ Clashes g p q)
      (fun _ h => SameClasses g h ∧ Clashes g p q) := by
  have hnil : PairsBelow g.size [] := ⟨nodup_nil, fun _ h => by cases h⟩
  have hwalk := walks_checkUnion hg (g.size * g.size + 1) [] hnil
    (by rw [length_nil]; omega) p q hp hq Forced.start g ⟨hg, SameClasses.refl g⟩
  refine (Ensures.and (moves_checkUnion _ [] p q g hg) hwalk).imp ?_ ?_
  · rintro seen h ⟨_, hw, hex, hstart⟩
    refine ⟨hw, ?_⟩
    rintro ⟨a, b, e, hf, he⟩
    have hclosed : ∀ a b, (a, b) ∈ seen → Compared g seen a b := by
      intro a b hab
      rcases hex.compared a b hab with h | h
      · cases h
      · exact h
    rcases mem_of_forced hstart hclosed hf with hab | hab
    · rw [hab, unify_self] at he
      cases he
    · obtain ⟨t, ht⟩ := (hclosed a b hab).unifies
      rw [ht] at he
      cases he
  · rintro e h ⟨hc, hclash⟩
    exact ⟨hc.sameClasses hg, hclash⟩

/-- A union that succeeds joins two classes whose types fit. -/
theorem union_unifies {g h : TypeGraph} (hg : g.WellFormed) {p q : NodeId} (hp : p < g.size)
    (hq : q < g.size) (hok : union p q g = .ok () h) :
    ∃ t, TypeName.unify (g.typeAt p) (g.typeAt q) = .ok t := by
  have hcheck : Ensures (union p q) g (fun _ _ => ¬ Clashes g p q) (fun _ _ => True) := by
    unfold union
    refine .bind_get ?_
    refine .bind ((ensures_checkUnion hg p q hp hq).imp (fun _ _ hw => hw)
      (fun _ _ _ => trivial)) ?_
    rintro _ k ⟨_, hno⟩
    exact Ensures.intro (fun _ _ _ => hno) (fun _ _ _ => trivial)
  have hno := hcheck.of_ok hok
  cases hu : TypeName.unify (g.typeAt p) (g.typeAt q) with
  | ok t => exact ⟨t, rfl⟩
  | error e => exact absurd ⟨_, _, e, Forced.start, hu⟩ hno

end BlockProgram.TypeGraph
