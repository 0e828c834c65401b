import BlockProgram.Proofs.Moves
import Mathlib.Data.Fintype.Card
import Mathlib.Logic.Function.Iterate

/-!
# Classes of a type graph

The links of a graph in use climb towards roots (`WellFormed`): some rank grows along every link, so
no search for a root comes back to where it was, and the number of nodes bounds all of them.

* `isRoot_root`: the search ends at a node without link.
* `eq_root_of_invariant`: the root is the only map that fixes the nodes without link and does not
  change along links. All that is said below about the roots of changed graphs comes from it.
* `compress_sameClasses`: compression moves links only, and no root.
* `root_joinRoots`: linking root `a` to root `b` moves the class of `a` to that of `b`.
-/

namespace BlockProgram.TypeGraph

/-! ## Nodes of changed graphs -/

@[simp]
theorem size_update (g : TypeGraph) (i : NodeId) (f : Node → Node) :
    (g.update i f).size = g.size := by
  simp [update, size]

theorem node_update (g : TypeGraph) (i j : NodeId) (f : Node → Node) :
    (g.update i f).node j = if i = j ∧ i < g.size then f (g.node j) else g.node j := by
  unfold update node size
  rw [Array.getElem?_modify]
  by_cases hij : i = j
  · subst hij
    by_cases hi : i < g.nodes.size
    · simp [hi]
    · simp [hi]
  · simp [hij]

theorem node_update_self (g : TypeGraph) (i : NodeId) (f : Node → Node) (hi : i < g.size) :
    (g.update i f).node i = f (g.node i) := by
  rw [node_update, if_pos ⟨rfl, hi⟩]

theorem node_update_ne (g : TypeGraph) (i j : NodeId) (f : Node → Node) (hij : i ≠ j) :
    (g.update i f).node j = g.node j := by
  rw [node_update, if_neg (fun h => hij h.1)]

theorem update_update (g : TypeGraph) (i : NodeId) (f f' : Node → Node) :
    (g.update i f).update i f' = g.update i (fun n => f' (f n)) := by
  unfold update
  congr 1
  apply Array.ext
  · simp
  · intro j hj hj'
    simp only [Array.getElem_modify]
    split <;> rfl

/-- A change that keeps one field of a node keeps it in the whole graph. -/
theorem field_update {α : Type} (field : Node → α) (g : TypeGraph) (i j : NodeId) (f : Node → Node)
    (hf : ∀ n, field (f n) = field n) : field ((g.update i f).node j) = field (g.node j) := by
  rw [node_update]
  split
  · exact hf _
  · rfl

theorem node_eq_default (g : TypeGraph) (i : NodeId) (hi : g.size ≤ i) : g.node i = {} := by
  unfold size at hi
  simp [node, hi]

theorem lt_size_of_link (g : TypeGraph) (i j : NodeId) (h : (g.node i).link = some j) :
    i < g.size := by
  rcases lt_or_ge i g.size with hi | hi
  · exact hi
  · rw [node_eq_default g i hi] at h
    simp at h

/-! ## Roots -/

def IsRoot (g : TypeGraph) (i : NodeId) : Prop :=
  (g.node i).link = none

/-- The node that `i` links to, or `i` itself. -/
def next (g : TypeGraph) (i : NodeId) : NodeId :=
  (g.node i).link.getD i

theorem next_of_isRoot (g : TypeGraph) (i : NodeId) (h : g.IsRoot i) : g.next i = i := by
  unfold next
  rw [h]
  rfl

theorem next_of_link (g : TypeGraph) (i j : NodeId) (h : (g.node i).link = some j) :
    g.next i = j := by
  unfold next
  rw [h]
  rfl

theorem rootFrom_eq_iterate (g : TypeGraph) (fuel : Nat) (i : NodeId) :
    g.rootFrom fuel i = g.next^[fuel] i := by
  induction fuel generalizing i with
  | zero => rfl
  | succ fuel ih =>
    rw [Function.iterate_succ_apply]
    unfold rootFrom
    cases h : (g.node i).link with
    | none =>
      have hi := next_of_isRoot g i h
      rw [hi, Function.iterate_fixed hi]
    | some j => rw [next_of_link g i j h, ← ih j]

theorem root_eq_iterate (g : TypeGraph) (i : NodeId) : g.root i = g.next^[g.size] i :=
  rootFrom_eq_iterate g g.size i

theorem root_of_isRoot (g : TypeGraph) (i : NodeId) (h : g.IsRoot i) : g.root i = i := by
  rw [root_eq_iterate, Function.iterate_fixed (next_of_isRoot g i h)]

theorem root_of_size_le (g : TypeGraph) (i : NodeId) (hi : g.size ≤ i) : g.root i = i := by
  apply root_of_isRoot
  unfold IsRoot
  rw [node_eq_default g i hi]

/-- Roots depend on the links alone. -/
theorem root_congr (g h : TypeGraph) (hs : h.size = g.size)
    (hl : ∀ i, (h.node i).link = (g.node i).link) (i : NodeId) : h.root i = g.root i := by
  have hn : h.next = g.next := by
    funext j
    simp only [next, hl]
  rw [root_eq_iterate, root_eq_iterate, hs, hn]

/-! ## Well-formed graphs -/

/-- All that a node records is in the graph, and a rank grows along every link. -/
structure WellFormed (g : TypeGraph) : Prop where
  link_lt : ∀ i j, (g.node i).link = some j → j < g.size
  element_lt : ∀ i j, (g.node i).element = some j → j < g.size
  container_lt : ∀ i j, (g.node i).container = some j → j < g.size
  ranked : ∃ rank : NodeId → Nat, ∀ i j, (g.node i).link = some j → rank i < rank j

variable {g h : TypeGraph}

/-- The rank of a node on the way up, as long as the way has not ended. -/
theorem rank_iterate_lt (rank : NodeId → Nat)
    (hr : ∀ i j, (g.node i).link = some j → rank i < rank j) (i : NodeId) (m d : Nat)
    (hm : ∀ k, k ≤ m + d → ¬ g.IsRoot (g.next^[k] i)) :
    rank (g.next^[m] i) < rank (g.next^[m + d + 1] i) := by
  have step : ∀ k, k ≤ m + d → rank (g.next^[k] i) < rank (g.next^[k + 1] i) := by
    intro k hk
    rw [Function.iterate_succ_apply']
    cases hl : (g.node (g.next^[k] i)).link with
    | none => exact absurd hl (hm k hk)
    | some j =>
      rw [next_of_link g _ j hl]
      exact hr _ j hl
  induction d with
  | zero => exact step m (by omega)
  | succ d ih =>
    have h1 := ih (fun k hk => hm k (by omega)) (fun k hk => step k (by omega))
    have h2 := step (m + d + 1) (by omega)
    rw [show m + (d + 1) + 1 = m + d + 1 + 1 by omega]
    omega

section

variable (hg : g.WellFormed)
include hg

/-- The search for a root ends: the nodes on a way that has not ended differ, and there are not more
of them than nodes. -/
theorem isRoot_root (i : NodeId) : g.IsRoot (g.root i) := by
  obtain ⟨rank, hr⟩ := hg.ranked
  by_contra hend
  rw [root_eq_iterate] at hend
  have hopen : ∀ k, k ≤ g.size → ¬ g.IsRoot (g.next^[k] i) := by
    intro k hk hroot
    apply hend
    have hfix := Function.iterate_fixed (next_of_isRoot g _ hroot) (g.size - k)
    rw [← Function.iterate_add_apply, show g.size - k + k = g.size by omega] at hfix
    rw [hfix]
    exact hroot
  have hlt : ∀ k, k ≤ g.size → g.next^[k] i < g.size := by
    intro k hk
    cases hl : (g.node (g.next^[k] i)).link with
    | none => exact absurd hl (hopen k hk)
    | some j => exact lt_size_of_link g _ j hl
  let visit : Fin (g.size + 1) → Fin g.size := fun k =>
    ⟨g.next^[k.val] i, hlt k.val (by omega)⟩
  have hinj : Function.Injective visit := by
    intro a b hab
    have hval : g.next^[a.val] i = g.next^[b.val] i := congrArg Fin.val hab
    rcases Nat.lt_trichotomy a.val b.val with hl | he | hl
    · have := rank_iterate_lt rank hr i a.val (b.val - a.val - 1) (fun k hk => hopen k (by omega))
      rw [show a.val + (b.val - a.val - 1) + 1 = b.val by omega, hval] at this
      omega
    · exact Fin.ext he
    · have := rank_iterate_lt rank hr i b.val (a.val - b.val - 1) (fun k hk => hopen k (by omega))
      rw [show b.val + (a.val - b.val - 1) + 1 = a.val by omega, hval] at this
      omega
  have hcard := Fintype.card_le_of_injective visit hinj
  simp only [Fintype.card_fin] at hcard
  omega

theorem isRoot_iff (i : NodeId) : g.IsRoot i ↔ g.root i = i := by
  constructor
  · exact root_of_isRoot g i
  · intro hi
    have := isRoot_root hg i
    rwa [hi] at this

/-- The root is the only map that fixes the nodes without link and does not change along links. -/
theorem eq_root_of_invariant (f : NodeId → NodeId) (hroot : ∀ i, g.IsRoot i → f i = i)
    (hlink : ∀ i j, (g.node i).link = some j → f i = f j) (i : NodeId) : f i = g.root i := by
  have hnext : ∀ j, f (g.next j) = f j := by
    intro j
    cases hl : (g.node j).link with
    | none => rw [next_of_isRoot g j hl]
    | some k => rw [next_of_link g j k hl, hlink j k hl]
  have hiter : ∀ k, f (g.next^[k] i) = f i := by
    intro k
    induction k with
    | zero => rfl
    | succ k ih => rw [Function.iterate_succ_apply', hnext, ih]
  rw [← hiter g.size, ← root_eq_iterate]
  exact hroot _ (isRoot_root hg i)

theorem root_of_link (i j : NodeId) (hl : (g.node i).link = some j) : g.root i = g.root j := by
  have hi : g.next^[g.size + 1] i = g.root j := by
    rw [Function.iterate_succ_apply, next_of_link g i j hl, ← root_eq_iterate]
  rw [← hi, Function.iterate_succ_apply', ← root_eq_iterate, next_of_isRoot g _ (isRoot_root hg i)]

theorem root_root (i : NodeId) : g.root (g.root i) = g.root i :=
  root_of_isRoot g _ (isRoot_root hg i)

theorem root_lt (i : NodeId) (hi : i < g.size) : g.root i < g.size := by
  have hiter : ∀ k, g.next^[k] i < g.size := by
    intro k
    induction k with
    | zero => exact hi
    | succ k ih =>
      rw [Function.iterate_succ_apply']
      cases hl : (g.node (g.next^[k] i)).link with
      | none => rw [next_of_isRoot g _ hl]; exact ih
      | some j => rw [next_of_link g _ j hl]; exact hg.link_lt _ j hl
  rw [root_eq_iterate]
  exact hiter g.size

/-- A node with a link has a smaller rank than its root. -/
theorem rank_lt_rank_root (rank : NodeId → Nat)
    (hr : ∀ i j, (g.node i).link = some j → rank i < rank j) (i : NodeId) (hi : ¬ g.IsRoot i) :
    rank i < rank (g.root i) := by
  have hle : ∀ k j, rank j ≤ rank (g.next^[k] j) := by
    intro k
    induction k with
    | zero => intro j; exact le_rfl
    | succ k ih =>
      intro j
      rw [Function.iterate_succ_apply']
      cases hl : (g.node (g.next^[k] j)).link with
      | none => rw [next_of_isRoot g _ hl]; exact ih j
      | some m =>
        rw [next_of_link g _ m hl]
        exact le_trans (ih j) (le_of_lt (hr _ m hl))
  cases hl : (g.node i).link with
  | none => exact absurd hl hi
  | some j =>
    have h1 := hr i j hl
    have h2 := hle g.size j
    rw [← root_eq_iterate, ← root_of_link hg i j hl] at h2
    omega

end

/-! ## Compression -/

/-- Two graphs that differ in their links only, and in no root. -/
structure SameClasses (g h : TypeGraph) : Prop where
  size_eq : h.size = g.size
  root_eq : ∀ i, h.root i = g.root i
  type_eq : ∀ i, (h.node i).type = (g.node i).type
  element_eq : ∀ i, (h.node i).element = (g.node i).element
  container_eq : ∀ i, (h.node i).container = (g.node i).container
  isArray_eq : ∀ i, (h.node i).isArray = (g.node i).isArray

theorem SameClasses.refl (g : TypeGraph) : SameClasses g g :=
  ⟨rfl, fun _ => rfl, fun _ => rfl, fun _ => rfl, fun _ => rfl, fun _ => rfl⟩

theorem SameClasses.trans {k : TypeGraph} (h1 : SameClasses g h) (h2 : SameClasses h k) :
    SameClasses g k where
  size_eq := h2.size_eq.trans h1.size_eq
  root_eq i := (h2.root_eq i).trans (h1.root_eq i)
  type_eq i := (h2.type_eq i).trans (h1.type_eq i)
  element_eq i := (h2.element_eq i).trans (h1.element_eq i)
  container_eq i := (h2.container_eq i).trans (h1.container_eq i)
  isArray_eq i := (h2.isArray_eq i).trans (h1.isArray_eq i)

theorem link_relink (g : TypeGraph) (i r x : NodeId) (hi : ¬ g.IsRoot i) :
    ((g.update i ({ · with link := some r })).node x).link =
      if x = i then some r else (g.node x).link := by
  obtain ⟨j, hj⟩ := Option.ne_none_iff_exists'.mp hi
  have hlt := lt_size_of_link g i j hj
  by_cases hx : x = i
  · subst hx
    rw [node_update_self g x _ hlt, if_pos rfl]
  · rw [node_update_ne g i x _ (Ne.symm hx), if_neg hx]

theorem relink_wellFormed (hg : g.WellFormed) (i : NodeId) (hi : ¬ g.IsRoot i) :
    (g.update i ({ · with link := some (g.root i) })).WellFormed := by
  have hlink := link_relink g i (g.root i)
  obtain ⟨rank, hr⟩ := hg.ranked
  obtain ⟨j, hj⟩ := Option.ne_none_iff_exists'.mp hi
  refine ⟨?_, ?_, ?_, rank, ?_⟩
  · intro x y hxy
    rw [hlink x hi] at hxy
    rw [size_update]
    split at hxy
    · cases hxy
      exact root_lt hg i (lt_size_of_link g i j hj)
    · exact hg.link_lt x y hxy
  · intro x y hxy
    have hx := field_update Node.element g i x ({ · with link := some (g.root i) }) (fun _ => rfl)
    rw [size_update]
    exact hg.element_lt x y (hx.symm.trans hxy)
  · intro x y hxy
    have hx := field_update Node.container g i x ({ · with link := some (g.root i) }) (fun _ => rfl)
    rw [size_update]
    exact hg.container_lt x y (hx.symm.trans hxy)
  · intro x y hxy
    rw [hlink x hi] at hxy
    split at hxy
    · next hx =>
      cases hxy
      rw [hx]
      exact rank_lt_rank_root hg rank hr i hi
    · exact hr x y hxy

theorem relink_sameClasses (hg : g.WellFormed) (i : NodeId) (hi : ¬ g.IsRoot i) :
    SameClasses g (g.update i ({ · with link := some (g.root i) })) := by
  refine ⟨size_update _ _ _, ?_, ?_, ?_, ?_, ?_⟩
  · intro x
    refine (eq_root_of_invariant (relink_wellFormed hg i hi) g.root ?_ ?_ x).symm
    · intro y hy
      unfold IsRoot at hy
      rw [link_relink g i _ y hi] at hy
      split at hy
      · cases hy
      · exact root_of_isRoot g y hy
    · intro y z hyz
      rw [link_relink g i _ y hi] at hyz
      split at hyz
      · next hy =>
        cases hyz
        rw [hy, root_root hg]
      · exact root_of_link hg y z hyz
  · exact fun x => field_update Node.type _ _ _ _ (fun _ => rfl)
  · exact fun x => field_update Node.element _ _ _ _ (fun _ => rfl)
  · exact fun x => field_update Node.container _ _ _ _ (fun _ => rfl)
  · exact fun x => field_update Node.isArray _ _ _ _ (fun _ => rfl)

theorem compressFrom_spec (fuel : Nat) (g : TypeGraph) (hg : g.WellFormed) (i : NodeId) :
    (compressFrom (g.root i) fuel g i).WellFormed ∧
      SameClasses g (compressFrom (g.root i) fuel g i) := by
  induction fuel generalizing g i with
  | zero => exact ⟨hg, SameClasses.refl g⟩
  | succ fuel ih =>
    unfold compressFrom
    cases hl : (g.node i).link with
    | none => exact ⟨hg, SameClasses.refl g⟩
    | some j =>
      have hi : ¬ g.IsRoot i := by
        unfold IsRoot
        rw [hl]
        simp
      have hw := relink_wellFormed hg i hi
      have hs := relink_sameClasses hg i hi
      have hj : (g.update i ({ · with link := some (g.root i) })).root j = g.root i := by
        rw [hs.root_eq, root_of_link hg i j hl]
      have hrest := ih _ hw j
      rw [hj] at hrest
      exact ⟨hrest.1, hs.trans hrest.2⟩

theorem compress_wellFormed (hg : g.WellFormed) (i : NodeId) : (g.compress i).WellFormed :=
  (compressFrom_spec g.size g hg i).1

theorem compress_sameClasses (hg : g.WellFormed) (i : NodeId) : SameClasses g (g.compress i) :=
  (compressFrom_spec g.size g hg i).2

theorem SameClasses.isRoot_iff (hs : SameClasses g h) (hg : g.WellFormed) (hh : h.WellFormed)
    (i : NodeId) : h.IsRoot i ↔ g.IsRoot i := by
  rw [TypeGraph.isRoot_iff hh, TypeGraph.isRoot_iff hg, hs.root_eq]

/-! ## Changes that keep the links -/

theorem root_update (g : TypeGraph) (i x : NodeId) (f : Node → Node)
    (hf : ∀ n, (f n).link = n.link) : (g.update i f).root x = g.root x :=
  root_congr g _ (size_update _ _ _) (fun _ => field_update Node.link _ _ _ _ hf) x

/-- A change that keeps the link of a node and records only nodes of the graph. -/
theorem update_wellFormed (hg : g.WellFormed) (i : NodeId) (f : Node → Node)
    (hl : ∀ n, (f n).link = n.link)
    (he : ∀ n j, (f n).element = some j → n.element = some j ∨ j < g.size)
    (hc : ∀ n j, (f n).container = some j → n.container = some j ∨ j < g.size) :
    (g.update i f).WellFormed := by
  have hlink : ∀ x, ((g.update i f).node x).link = (g.node x).link :=
    fun x => field_update Node.link _ _ _ _ hl
  obtain ⟨rank, hr⟩ := hg.ranked
  refine ⟨?_, ?_, ?_, rank, ?_⟩
  · intro x y hxy
    rw [hlink] at hxy
    rw [size_update]
    exact hg.link_lt x y hxy
  · intro x y hxy
    rw [size_update]
    rw [node_update] at hxy
    split at hxy
    · rcases he _ y hxy with h1 | h1
      · exact hg.element_lt x y h1
      · exact h1
    · exact hg.element_lt x y hxy
  · intro x y hxy
    rw [size_update]
    rw [node_update] at hxy
    split at hxy
    · rcases hc _ y hxy with h1 | h1
      · exact hg.container_lt x y h1
      · exact h1
    · exact hg.container_lt x y hxy
  · intro x y hxy
    rw [hlink] at hxy
    exact hr x y hxy

/-! ## Joining two roots -/

/-- Root `a` linked to root `b`, which takes type `t` for both. -/
def joinRoots (g : TypeGraph) (a b : NodeId) (t : Option TypeName) : TypeGraph :=
  (g.update a ({ · with link := some b, type := none })).update b
    ({ · with type := t, isArray := (g.node a).isArray || (g.node b).isArray })

theorem linkRoots_eq (g : TypeGraph) (a b : NodeId) : linkRoots a b g =
      match TypeName.unify (g.node a).type (g.node b).type with
      | .ok t => .ok () (g.joinRoots a b t)
      | .error e => .error e g := by
  unfold linkRoots
  cases hu : TypeName.unify (g.node a).type (g.node b).type with
  | ok t =>
    have hroots : unifyRoots a b g = .ok t g := by
      unfold unifyRoots
      rw [hu]
    rw [run_bind_of_ok hroots]
    rfl
  | error e =>
    have hroots : unifyRoots a b g = .error e g := by
      unfold unifyRoots
      rw [hu]
    rw [run_bind_of_error hroots]

@[simp]
theorem size_joinRoots (g : TypeGraph) (a b : NodeId) (t : Option TypeName) :
    (g.joinRoots a b t).size = g.size := by
  simp [joinRoots]

section Join

variable (g : TypeGraph) (a b : NodeId) (t : Option TypeName)

theorem link_joinRoots (ha : a < g.size) (x : NodeId) :
    ((g.joinRoots a b t).node x).link = if x = a then some b else (g.node x).link := by
  unfold joinRoots
  refine (field_update Node.link _ b x _ ?_).trans ?_
  · exact fun _ => rfl
  by_cases hx : x = a
  · subst hx
    rw [node_update_self g x _ ha, if_pos rfl]
  · rw [node_update_ne g a x _ (Ne.symm hx), if_neg hx]

theorem type_joinRoots (ha : a < g.size) (hb : b < g.size) (x : NodeId) :
    ((g.joinRoots a b t).node x).type =
      if x = b then t else if x = a then none else (g.node x).type := by
  unfold joinRoots
  by_cases hx : x = b
  · subst hx
    rw [node_update_self _ x _ (by rw [size_update]; exact hb), if_pos rfl]
  · rw [node_update_ne _ b x _ (Ne.symm hx), if_neg hx]
    by_cases hxa : x = a
    · subst hxa
      rw [node_update_self g x _ ha, if_pos rfl]
    · rw [node_update_ne g a x _ (Ne.symm hxa), if_neg hxa]

theorem isArray_joinRoots (hb : b < g.size) (x : NodeId) : ((g.joinRoots a b t).node x).isArray =
      if x = b then (g.node a).isArray || (g.node b).isArray else (g.node x).isArray := by
  unfold joinRoots
  by_cases hx : x = b
  · subst hx
    rw [node_update_self _ x _ (by rw [size_update]; exact hb), if_pos rfl]
  · rw [node_update_ne _ b x _ (Ne.symm hx), if_neg hx]
    exact field_update Node.isArray g a x _ (fun _ => rfl)

theorem element_joinRoots (x : NodeId) :
    ((g.joinRoots a b t).node x).element = (g.node x).element := by
  unfold joinRoots
  refine (field_update Node.element _ b x _ ?_).trans ?_
  · exact fun _ => rfl
  exact field_update Node.element g a x _ (fun _ => rfl)

theorem container_joinRoots (x : NodeId) :
    ((g.joinRoots a b t).node x).container = (g.node x).container := by
  unfold joinRoots
  refine (field_update Node.container _ b x _ ?_).trans ?_
  · exact fun _ => rfl
  exact field_update Node.container g a x _ (fun _ => rfl)

end Join

theorem joinRoots_wellFormed (hg : g.WellFormed) (a b : NodeId) (t : Option TypeName)
    (hra : g.IsRoot a) (hrb : g.IsRoot b) (hab : a ≠ b) (ha : a < g.size) (hb : b < g.size) :
    (g.joinRoots a b t).WellFormed := by
  obtain ⟨rank, hr⟩ := hg.ranked
  refine ⟨?_, ?_, ?_, fun x => rank x + if g.root x = b then rank a + 1 else 0, ?_⟩
  · intro x y hxy
    rw [link_joinRoots g a b t ha] at hxy
    rw [size_joinRoots]
    split at hxy
    · cases hxy
      exact hb
    · exact hg.link_lt x y hxy
  · intro x y hxy
    rw [element_joinRoots] at hxy
    rw [size_joinRoots]
    exact hg.element_lt x y hxy
  · intro x y hxy
    rw [container_joinRoots] at hxy
    rw [size_joinRoots]
    exact hg.container_lt x y hxy
  · -- the class of `b` is lifted above `a`; links inside a class stay on one side
    intro x y hxy
    rw [link_joinRoots g a b t ha] at hxy
    show rank x + (if g.root x = b then rank a + 1 else 0) <
      rank y + (if g.root y = b then rank a + 1 else 0)
    split at hxy
    · next hx =>
      cases hxy
      rw [hx, root_of_isRoot g a hra, root_of_isRoot g b hrb, if_neg hab, if_pos rfl]
      omega
    · have h1 := hr x y hxy
      rw [root_of_link hg x y hxy]
      omega

/-- Linking root `a` to root `b` moves the class of `a` to that of `b`. -/
theorem root_joinRoots (hg : g.WellFormed) (a b : NodeId) (t : Option TypeName) (hra : g.IsRoot a)
    (hrb : g.IsRoot b) (hab : a ≠ b) (ha : a < g.size) (hb : b < g.size) (x : NodeId) :
    (g.joinRoots a b t).root x = if g.root x = a then b else g.root x := by
  have hw := joinRoots_wellFormed hg a b t hra hrb hab ha hb
  refine (eq_root_of_invariant hw (fun x => if g.root x = a then b else g.root x) ?_ ?_ x).symm
  · intro y hy
    unfold IsRoot at hy
    rw [link_joinRoots g a b t ha] at hy
    split at hy
    · cases hy
    · next hya =>
      have hroot := root_of_isRoot g y hy
      rw [hroot, if_neg hya]
  · intro y z hyz
    rw [link_joinRoots g a b t ha] at hyz
    split at hyz
    · next hya =>
      cases hyz
      rw [hya, root_of_isRoot g a hra, root_of_isRoot g b hrb, if_pos rfl, if_neg (Ne.symm hab)]
    · rw [root_of_link hg y z hyz]

/-! ## New nodes -/

def push (g : TypeGraph) (n : Node) : TypeGraph :=
  ⟨g.nodes.push n⟩

@[simp]
theorem size_push (g : TypeGraph) (n : Node) : (g.push n).size = g.size + 1 := by
  simp [push, size]

theorem node_push (g : TypeGraph) (n : Node) (i : NodeId) :
    (g.push n).node i = if i = g.size then n else g.node i := by
  unfold push node size
  rw [Array.getElem?_push]
  split <;> simp_all

theorem push_wellFormed (hg : g.WellFormed) (type : Option TypeName) (isArray : Bool) :
    (g.push { type, isArray }).WellFormed := by
  obtain ⟨rank, hr⟩ := hg.ranked
  refine ⟨?_, ?_, ?_, rank, ?_⟩
  · intro x y hxy
    rw [node_push] at hxy
    rw [size_push]
    split at hxy
    · cases hxy
    · exact Nat.lt_succ_of_lt (hg.link_lt x y hxy)
  · intro x y hxy
    rw [node_push] at hxy
    rw [size_push]
    split at hxy
    · cases hxy
    · exact Nat.lt_succ_of_lt (hg.element_lt x y hxy)
  · intro x y hxy
    rw [node_push] at hxy
    rw [size_push]
    split at hxy
    · cases hxy
    · exact Nat.lt_succ_of_lt (hg.container_lt x y hxy)
  · intro x y hxy
    rw [node_push] at hxy
    split at hxy
    · cases hxy
    · exact hr x y hxy

/-- A new node is a class of its own, and no root moves. -/
theorem root_push (hg : g.WellFormed) (type : Option TypeName) (isArray : Bool) (x : NodeId) :
    (g.push { type, isArray }).root x = g.root x := by
  refine (eq_root_of_invariant (push_wellFormed hg type isArray) g.root ?_ ?_ x).symm
  · intro y hy
    unfold IsRoot at hy
    rw [node_push] at hy
    split at hy
    · next hys => exact root_of_size_le g y (le_of_eq hys.symm)
    · exact root_of_isRoot g y hy
  · intro y z hyz
    rw [node_push] at hyz
    split at hyz
    · cases hyz
    · exact root_of_link hg y z hyz

/-! ## Records -/

/-- The two records of a root. -/
inductive Slot where
  | element
  | container
deriving DecidableEq

namespace Slot

def read : Slot → Node → Option NodeId
  | element, n => n.element
  | container, n => n.container

def write (x : Option NodeId) : Slot → Node → Node
  | element, n => { n with element := x }
  | container, n => { n with container := x }

def flip : Slot → Slot
  | element => container
  | container => element

@[simp] theorem read_write (s : Slot) (x : Option NodeId) (n : Node) :
    s.read (s.write x n) = x := by
  cases s <;> rfl

theorem read_write_ne {s s' : Slot} (h : s ≠ s') (x : Option NodeId) (n : Node) :
    s'.read (s.write x n) = s'.read n := by
  cases s with
  | element =>
    cases s' with
    | element => exact absurd rfl h
    | container => rfl
  | container =>
    cases s' with
    | element => rfl
    | container => exact absurd rfl h

@[simp] theorem link_write (s : Slot) (x : Option NodeId) (n : Node) :
    (s.write x n).link = n.link := by
  cases s <;> rfl

@[simp] theorem type_write (s : Slot) (x : Option NodeId) (n : Node) :
    (s.write x n).type = n.type := by
  cases s <;> rfl

end Slot

def record (g : TypeGraph) (s : Slot) (i : NodeId) : Option NodeId :=
  s.read (g.node i)

theorem WellFormed.record_lt {s : Slot} {i x : NodeId} (hg : g.WellFormed)
    (h : g.record s i = some x) : x < g.size := by
  cases s with
  | element => exact hg.element_lt i x h
  | container => exact hg.container_lt i x h

theorem SameClasses.record_eq (hs : SameClasses g h) (s : Slot) (i : NodeId) :
    h.record s i = g.record s i := by
  cases s with
  | element => exact hs.element_eq i
  | container => exact hs.container_eq i

/-- `mergeElements` and `mergeContainers` in one. -/
def mergeRecords (s : Slot) (join : NodeId → NodeId → UnifyM Unit) (a b : NodeId) :
    UnifyM Unit := do
  let g ← get
  match g.record s a, g.record s b with
  | some x, some y => do
    set (g.update a (s.write none))
    join x y
  | some x, none => set (g.update b (s.write (some x)))
  | none, _ => pure ()

theorem mergeElements_eq (join : NodeId → NodeId → UnifyM Unit) (a b : NodeId) :
    mergeElements join a b = mergeRecords .element join a b :=
  rfl

theorem mergeContainers_eq (join : NodeId → NodeId → UnifyM Unit) (a b : NodeId) :
    mergeContainers join a b = mergeRecords .container join a b :=
  rfl

/-- `recordElement` and `recordContainer` in one: joins `x` with what root `r` has recorded, or
records it if the type of `r` leaves room. -/
def recordAt (s : Slot) (room : Option TypeName → Bool) (r x : NodeId) : UnifyM Unit := do
  let g ← get
  match g.record s r with
  | some known => union known x
  | none => if room (g.node r).type then set (g.update r (s.write (some x))) else pure ()

theorem recordElement_eq (p c : NodeId) :
    recordElement p c = recordAt .element TypeName.isOpen p c :=
  rfl

theorem recordContainer_eq (p c : NodeId) :
    recordContainer p c = recordAt .container Option.isNone c p :=
  rfl

end BlockProgram.TypeGraph
