import BlockProgram.Proofs.TypeGraph.Clocked
import Mathlib.Data.Finset.Card
import Mathlib.Tactic.Linarith

/-!
# Searches, checks and merges end

No recursion on a well-formed graph runs out of time, so the bounds of the operations are never
reached.

* `ends_find`: links lead to a root, and a way that is compressed on the go gets no longer.
* `endsUnify_checkUnion`: each level of the check before a union compares a new pair of roots.
* `endsUnify_merge`: merges nested in a merge have less and less to do (`mergeBound`). A merge of
  elements may join classes, and so change the roots and records that the outer merge goes on with.
  If it does, there are fewer classes; if not, the records of lists are as they were.
-/

namespace BlockProgram.TypeGraph

variable {g h : TypeGraph} {a x : NodeId}

/-! ## Searches for roots -/

/-- A search that reaches a root in `k` links ends there. -/
theorem clocked_root_eq (k clock : Nat) (hk : k < clock) (i : NodeId)
    (h : g.IsRoot (g.next^[k] i)) : Clocked.root clock g i = some (g.rootFrom k i) := by
  obtain _ | clock := clock
  · omega
  induction k generalizing i clock with
  | zero =>
    rw [Function.iterate_zero_apply] at h
    unfold Clocked.root
    rw [h]
    rfl
  | succ k ih =>
    unfold Clocked.root rootFrom
    cases hl : (g.node i).link with
    | none => rfl
    | some j =>
      rw [Function.iterate_succ_apply, next_of_link g i j hl] at h
      obtain _ | clock := clock
      · omega
      exact ih j h clock (by omega)

/-- Linking a node straight to its root makes no way to a root longer. -/
theorem isRoot_iterate_relink (hg : g.WellFormed) (i : NodeId) (hi : ¬ g.IsRoot i) (k : Nat)
    (x : NodeId) (hx : g.IsRoot (g.next^[k] x)) :
    (g.update i ({ · with link := some (g.root i) })).IsRoot
      ((g.update i ({ · with link := some (g.root i) })).next^[k] x) := by
  have hlink := fun y => link_relink g i (g.root i) y hi
  have hkeep : ∀ y, g.IsRoot y → (g.update i ({ · with link := some (g.root i) })).IsRoot y := by
    intro y hy
    unfold IsRoot
    rw [hlink, if_neg (fun (h : y = i) => hi (h ▸ hy))]
    exact hy
  induction k generalizing x with
  | zero => exact hkeep x hx
  | succ k ih =>
    rw [Function.iterate_succ_apply]
    by_cases hxi : x = i
    · -- one step now, however many it were before
      have hnext := next_of_link _ x (g.root i) (by rw [hlink, if_pos hxi])
      have hroot := hkeep _ (isRoot_root hg i)
      rw [hnext, Function.iterate_fixed (next_of_isRoot _ _ hroot)]
      exact hroot
    · have hnext : (g.update i ({ · with link := some (g.root i) })).next x = g.next x := by
        unfold next
        rw [hlink, if_neg hxi]
      rw [hnext]
      rw [Function.iterate_succ_apply] at hx
      exact ih (g.next x) hx

theorem clocked_compress_eq (k clock : Nat) (hk : k < clock) (g : TypeGraph) (hg : g.WellFormed)
    (i : NodeId) (h : g.IsRoot (g.next^[k] i)) :
    Clocked.compress (g.root i) clock g i = some (compressFrom (g.root i) k g i) := by
  obtain _ | clock := clock
  · omega
  induction k generalizing g i clock with
  | zero =>
    rw [Function.iterate_zero_apply] at h
    unfold Clocked.compress
    rw [h]
    rfl
  | succ k ih =>
    unfold Clocked.compress compressFrom
    cases hl : (g.node i).link with
    | none => rfl
    | some j =>
      have hi : ¬ g.IsRoot i := by
        unfold IsRoot
        rw [hl]
        simp
      rw [Function.iterate_succ_apply, next_of_link g i j hl] at h
      have hroot := (relink_sameClasses hg i hi).root_eq j
      rw [← root_of_link hg i j hl] at hroot
      obtain _ | clock := clock
      · omega
      have hrest := ih _ (relink_wellFormed hg i hi) j (isRoot_iterate_relink hg i hi k j h) clock
        (by omega)
      rwa [hroot] at hrest

theorem ends_find {clock : Nat} (hg : g.WellFormed) (hclock : g.size < clock) (i : NodeId) :
    Ends (Clocked.find clock i) (find i) g := by
  have hend : g.IsRoot (g.next^[g.size] i) := by
    rw [← root_eq_iterate]
    exact isRoot_root hg i
  unfold Ends Clocked.find
  rw [clocked_root_eq g.size clock hclock i hend]
  show (Clocked.compress (g.root i) clock g i).bind _ = _
  rw [clocked_compress_eq g.size clock hclock g hg i hend]
  rfl

-- on a ring of links, which no graph in use has, the search for a root runs out of time
example : Clocked.root 20 ⟨#[{ link := some 1 }, { link := some 0 }]⟩ 0 = none := by decide

/-! ## The check before a union -/

theorem endsUnify_checkBoth {search : Pairs → NodeId → NodeId → SearchUnifyM Pairs}
    {check : Pairs → NodeId → NodeId → UnifyM Pairs} {seen : Pairs} (x y : Option NodeId)
    (hcheck : ∀ u v, x = some u → y = some v → EndsUnify (search seen u v) (check seen u v) g) :
    EndsUnify (Clocked.checkBoth search seen x y) (checkBoth check seen x y) g := by
  unfold Clocked.checkBoth checkBoth
  cases x with
  | none => exact .pure seen
  | some u =>
    cases y with
    | none => exact .pure seen
    | some v => exact hcheck u v rfl rfl

/-- The check goes on with more pairs. -/
theorem ensures_checkBoth_below (hg : g.WellFormed) {k : TypeGraph} (hk : Walked g k) {fuel : Nat}
    {seen : Pairs} (hseen : PairsBelow g.size seen) (hfuel : g.size * g.size < fuel + seen.length)
    (x y : Option NodeId) (hx : ∀ u, x = some u → u < g.size) (hy : ∀ v, y = some v → v < g.size) :
    Ensures (checkBoth (checkUnion fuel) seen x y) k
      (fun seen' k' => Walked g k' ∧ PairsBelow g.size seen' ∧ seen.length ≤ seen'.length)
      (fun _ _ => True) := by
  unfold checkBoth
  split
  · next u v =>
    have hwalk := walks_checkUnion hg fuel seen hseen hfuel u v (hx u rfl) (hy v rfl)
      (Forced.start (p := u) (q := v))
    refine (hwalk k hk).imp ?_ (fun _ _ _ => trivial)
    rintro seen' k' ⟨hk', hex, _⟩
    exact ⟨hk', hex.below, hex.length_le⟩
  · exact ⟨hk, hseen, le_rfl⟩

/-- The check ends: each level compares a new pair of roots. -/
theorem endsUnify_checkUnion (hg : g.WellFormed) (fuel clock : Nat) (hclock : g.size + fuel < clock)
    (seen : Pairs) (hseen : PairsBelow g.size seen) (hfuel : g.size * g.size < fuel + seen.length)
    (x y : NodeId) (hx : x < g.size) (hy : y < g.size) (k : TypeGraph) (hk : Walked g k) :
    EndsUnify (Clocked.checkUnion clock seen x y) (checkUnion fuel seen x y) k := by
  obtain _ | clock := clock
  · omega
  induction fuel generalizing seen x y k clock with
  | zero =>
    have := hseen.length_le
    omega
  | succ fuel ih =>
    obtain ⟨hwk, hs⟩ := hk
    obtain _ | clock := clock
    · omega
    have hk1 := compress_wellFormed hwk x
    have hs1 := hs.trans (compress_sameClasses hwk x)
    have hk2 : Walked g (find y (find x k).2).2 :=
      ⟨compress_wellFormed hk1 y, hs1.trans (compress_sameClasses hk1 y)⟩
    have ha : (find x k).1 = g.root x := hs.root_eq x
    have hb : (find y (find x k).2).1 = g.root y := hs1.root_eq y
    unfold Clocked.checkUnion checkUnion
    refine .bind_lift (ends_find hwk (by rw [hs.size_eq]; omega) x) ?_
    refine .bind_lift (ends_find hk1 (by rw [hs1.size_eq]; omega) y) ?_
    rw [ha, hb]
    generalize (find y (find x k).2).2 = k2 at hk2
    by_cases hdone : g.root x = g.root y ∨ (g.root x, g.root y) ∈ seen
    · rw [if_pos hdone, if_pos (by simpa using hdone)]
      exact .pure seen
    · rw [if_neg hdone, if_neg (by simpa using hdone)]
      have hseen' : PairsBelow g.size ((g.root x, g.root y) :: seen) := by
        refine ⟨List.nodup_cons.mpr ⟨fun h => hdone (.inr h), hseen.nodup⟩, ?_⟩
        intro ab hab
        rcases List.mem_cons.mp hab with rfl | hab
        · exact ⟨root_lt hg x hx, root_lt hg y hy⟩
        · exact hseen.lt ab hab
      have hlen : g.size * g.size < fuel + ((g.root x, g.root y) :: seen).length := by
        rw [List.length_cons]
        omega
      refine .bind (EndsUnify.step _) ?_
      intro _ k3 hunify
      obtain ⟨rfl, _⟩ := (ensures_unifyRoots _ _).of_ok hunify
      refine .bind_get ?_
      rw [hk2.2.element_eq, hk2.2.element_eq]
      refine .bind (endsUnify_checkBoth _ _ ?_) ?_
      · intro u v hu hv
        exact ih _ hseen' hlen u v (hg.element_lt _ u hu) (hg.element_lt _ v hv) _ hk2 clock
          (by omega)
      · intro seen1 k4 hrun
        obtain ⟨hk4, hseen1, hlen1⟩ := (ensures_checkBoth_below hg hk2 hseen' hlen _ _
          (hg.element_lt _) (hg.element_lt _)).of_ok hrun
        refine .bind_get ?_
        rw [hk4.2.container_eq, hk4.2.container_eq]
        refine endsUnify_checkBoth _ _ ?_
        intro u v hu hv
        exact ih _ hseen1 (by omega) u v (hg.container_lt _ u hu) (hg.container_lt _ v hv) _ hk4
          clock (by omega)

/-! ## How deep merges are nested -/

def classCount (g : TypeGraph) : Nat :=
  ((Finset.range g.size).image g.root).card

def recordCount (field : Node → Option NodeId) (g : TypeGraph) : Nat :=
  ((Finset.range g.size).filter fun i => (field (g.node i)).isSome).card

/-- A bound for the depth of nested merges: what falls first is the number of classes, then that of
recorded lists, then that of recorded elements. -/
def mergeBound (g : TypeGraph) : Nat :=
  g.classCount * ((g.size + 1) * (g.size + 1)) + g.recordCount Node.container * (g.size + 1) +
    g.recordCount Node.element

theorem classCount_le (g : TypeGraph) : g.classCount ≤ g.size :=
  (Finset.card_image_le).trans_eq (Finset.card_range g.size)

theorem recordCount_le (field : Node → Option NodeId) (g : TypeGraph) :
    g.recordCount field ≤ g.size :=
  (Finset.card_filter_le _ _).trans_eq (Finset.card_range g.size)

theorem classCount_congr (hs : h.size = g.size) (hr : ∀ i, h.root i = g.root i) :
    h.classCount = g.classCount := by
  unfold classCount
  rw [hs, funext hr]

theorem recordCount_congr {field : Node → Option NodeId} (hs : h.size = g.size)
    (hf : ∀ i, field (h.node i) = field (g.node i)) :
    h.recordCount field = g.recordCount field := by
  unfold recordCount
  simp only [hs, hf]

/-- Joined classes are fewer. -/
theorem classCount_lt_of_joined (hg : g.WellFormed) (hh : h.WellFormed) (hs : h.size = g.size)
    (hext : Extends g h) (hj : Joined g h) : h.classCount < g.classCount := by
  obtain ⟨i, j, hij, hroot⟩ := hj
  have hout : ∀ x y, g.root x ≠ g.root y → h.root x = h.root y → x < g.size := by
    intro x y hne heq
    by_contra hx
    have hx : g.size ≤ x := Nat.le_of_not_lt hx
    -- a node outside the graph is alone in its class
    rw [root_of_size_le h x (by omega)] at heq
    rcases lt_or_ge y g.size with hy | hy
    · have := root_lt hh y (by rwa [hs])
      rw [← heq, hs] at this
      exact absurd this (Nat.not_lt.mpr hx)
    · rw [root_of_size_le h y (by rwa [hs])] at heq
      exact hne (by rw [heq])
  have hi := hout i j hij hroot
  have hjlt := hout j i (Ne.symm hij) hroot.symm
  have himage : (Finset.range h.size).image h.root =
      ((Finset.range g.size).image g.root).image h.root := by
    rw [hs, Finset.image_image]
    refine Finset.image_congr ?_
    intro x _
    exact hext.root_eq x (g.root x) (root_root hg x).symm
  unfold classCount
  rw [himage]
  refine Nat.lt_of_le_of_ne Finset.card_image_le ?_
  intro hcard
  have hinj := Finset.card_image_iff.mp hcard
  refine hij (hinj ?_ ?_ ?_)
  · exact Finset.mem_coe.mpr (Finset.mem_image_of_mem _ (Finset.mem_range.mpr hi))
  · exact Finset.mem_coe.mpr (Finset.mem_image_of_mem _ (Finset.mem_range.mpr hjlt))
  · rw [← hext.root_eq i (g.root i) (root_root hg i).symm,
      ← hext.root_eq j (g.root j) (root_root hg j).symm, hroot]

/-- A record that is cleared is one less. -/
theorem recordCount_clear {field : Node → Option NodeId} (f : Node → Node)
    (hf : ∀ n, field (f n) = none) (ha : a < g.size) (hx : field (g.node a) = some x) :
    (g.update a f).recordCount field < g.recordCount field := by
  unfold recordCount
  refine Finset.card_lt_card ?_
  rw [Finset.ssubset_iff_of_subset]
  · refine ⟨a, ?_, ?_⟩
    · simp [ha, hx]
    · simp [node_update_self g a f ha, hf]
  · intro i hi
    rw [Finset.mem_filter, size_update] at hi
    refine Finset.mem_filter.mpr ⟨hi.1, ?_⟩
    have hi2 := hi.2
    rw [node_update] at hi2
    split at hi2
    · simp [hf] at hi2
    · exact hi2

theorem mergeBound_lt_cube (g : TypeGraph) :
    g.mergeBound < (g.size + 1) * (g.size + 1) * (g.size + 1) := by
  have h1 := Nat.mul_le_mul_right ((g.size + 1) * (g.size + 1)) g.classCount_le
  have h2 := Nat.mul_le_mul_right (g.size + 1) (g.recordCount_le Node.container)
  have h3 := g.recordCount_le Node.element
  unfold mergeBound
  nlinarith

theorem mergeBound_congr (hs : SameClasses g h) : h.mergeBound = g.mergeBound := by
  unfold mergeBound
  rw [hs.size_eq, classCount_congr hs.size_eq hs.root_eq,
    recordCount_congr hs.size_eq hs.container_eq, recordCount_congr hs.size_eq hs.element_eq]

theorem mergeBound_lt_of_classCount (hs : h.size = g.size) (hc : h.classCount < g.classCount) :
    h.mergeBound < g.mergeBound := by
  have h1 := Nat.mul_le_mul_right ((g.size + 1) * (g.size + 1)) (Nat.succ_le_of_lt hc)
  have h2 := Nat.mul_le_mul_right (g.size + 1) (h.recordCount_le Node.container)
  have h3 := h.recordCount_le Node.element
  unfold mergeBound
  rw [hs] at h2 h3 ⊢
  nlinarith

theorem mergeBound_lt_of_containers (hs : h.size = g.size) (hc : h.classCount = g.classCount)
    (hr : h.recordCount Node.container < g.recordCount Node.container) :
    h.mergeBound < g.mergeBound := by
  have h2 := Nat.mul_le_mul_right (g.size + 1) (Nat.succ_le_of_lt hr)
  have h3 := h.recordCount_le Node.element
  unfold mergeBound
  rw [hs] at h3 ⊢
  rw [hc]
  nlinarith

theorem mergeBound_lt_of_elements (hs : h.size = g.size) (hc : h.classCount = g.classCount)
    (hr : h.recordCount Node.container = g.recordCount Node.container)
    (he : h.recordCount Node.element < g.recordCount Node.element) :
    h.mergeBound < g.mergeBound := by
  unfold mergeBound
  rw [hs, hc, hr]
  omega

/-! ## Merges -/

def SameSize (g h : TypeGraph) : Prop :=
  h.size = g.size

instance sameSizeRefl : Std.Refl SameSize :=
  ⟨fun _ => rfl⟩

instance sameSizeTrans : IsTrans TypeGraph SameSize :=
  ⟨fun _ _ _ h1 h2 => h2.trans h1⟩

theorem size_compressFrom (r : NodeId) (fuel : Nat) (g : TypeGraph) (i : NodeId) :
    (compressFrom r fuel g i).size = g.size := by
  induction fuel generalizing g i with
  | zero => rfl
  | succ fuel ih =>
    unfold compressFrom
    cases (g.node i).link with
    | none => rfl
    | some j => exact (ih _ j).trans (size_update g i _)

theorem runs_find_size (i : NodeId) : Runs SameSize (find i) g (fun _ _ => True) :=
  ⟨size_compressFrom _ _ g i, trivial⟩

theorem moves_unifyRoots_size (a b : NodeId) :
    Moves SameSize (unifyRoots a b) g (fun _ _ => True) := by
  refine (ensures_unifyRoots a b).imp ?_ ?_
  · rintro _ h ⟨rfl, _⟩
    exact ⟨rfl, trivial⟩
  · rintro _ h ⟨rfl, _⟩
    rfl

theorem moves_linkRoots_size (a b : NodeId) :
    Moves SameSize (linkRoots a b) g (fun _ _ => True) := by
  unfold linkRoots
  refine .bind (moves_unifyRoots_size a b) ?_
  intro t h _ _
  refine .bind_get ?_
  refine Moves.of_set _ ?_ trivial
  unfold SameSize
  rw [size_update, size_update]

theorem moves_mergeRecords_size (s : Slot) {join : NodeId → NodeId → UnifyM Unit}
    (hjoin : ∀ x y k, Moves SameSize (join x y) k (fun _ _ => True)) (a b : NodeId) :
    Moves SameSize (mergeRecords s join a b) g (fun _ _ => True) := by
  unfold mergeRecords
  refine .bind_get ?_
  split
  · exact .bind_set _ (size_update g a _) (hjoin _ _ _)
  · exact Moves.of_set _ (size_update g b _) trivial
  · exact .pure () trivial

theorem moves_merge_size (fuel : Nat) (p q : NodeId) (g : TypeGraph) :
    Moves SameSize (merge fuel p q) g (fun _ _ => True) := by
  induction fuel generalizing p q g with
  | zero => exact .pure () trivial
  | succ fuel ih =>
    unfold merge
    refine .bind (.lift (runs_find_size p)) ?_
    intro a g1 _ _
    refine .bind (.lift (runs_find_size q)) ?_
    intro b g2 _ _
    split
    · exact .pure () trivial
    · refine .bind (moves_unifyRoots_size a b) ?_
      intro _ g3 _ _
      refine .bind (moves_mergeRecords_size .element ih a b) ?_
      intro _ g4 _ _
      refine .bind (moves_mergeRecords_size .container ih a b) ?_
      intro _ g5 _ _
      refine .bind (.lift (runs_find_size a)) ?_
      intro a' g6 _ _
      refine .bind (.lift (runs_find_size b)) ?_
      intro b' g7 _ _
      split
      · exact .pure () trivial
      · exact moves_linkRoots_size a' b'

/-- In graphs with `n` nodes and a bound below `bound`, `search` ends as `join` does. -/
def EndsBelow (search : NodeId → NodeId → SearchUnifyM Unit) (join : NodeId → NodeId → UnifyM Unit)
    (n bound : Nat) : Prop :=
  ∀ k x y, k.WellFormed → k.size = n → x < n → y < n → k.mergeBound < bound →
    EndsUnify (search x y) (join x y) k

section Merging

variable {search : NodeId → NodeId → SearchUnifyM Unit} {join : NodeId → NodeId → UnifyM Unit}
  {n bound clock : Nat}

theorem endsUnify_linkFound (hg : g.WellFormed) (hclock : g.size < clock) (a b : NodeId) :
    EndsUnify (Clocked.linkFound clock a b) (linkFound a b) g := by
  have hg1 := compress_wellFormed hg a
  have hs1 := compress_sameClasses hg a
  unfold Clocked.linkFound linkFound
  refine .bind_lift (ends_find hg hclock a) ?_
  refine .bind_lift (ends_find hg1 (by rwa [hs1.size_eq]) b) ?_
  split
  · exact .pure ()
  · exact EndsUnify.step _

theorem mergeBound_clearElement (ha : a < g.size) (hx : (g.node a).element = some x) :
    (g.update a ({ · with element := none })).mergeBound < g.mergeBound := by
  refine mergeBound_lt_of_elements (size_update g a _) ?_ ?_ ?_
  · exact classCount_congr (size_update g a _) (fun i => root_update g a i _ (fun _ => rfl))
  · exact recordCount_congr (size_update g a _)
      (fun i => field_update Node.container g a i _ (fun _ => rfl))
  · exact recordCount_clear _ (fun _ => rfl) ha hx

theorem endsUnify_mergeElements (hg : g.WellFormed)
    (hjoin : EndsBelow search join g.size g.mergeBound) (a b : NodeId) (ha : a < g.size) :
    EndsUnify (Clocked.mergeElements search a b) (mergeElements join a b) g := by
  unfold Clocked.mergeElements mergeElements
  refine .bind_get ?_
  cases hx : (g.node a).element with
  | none => exact .pure ()
  | some x =>
    cases hy : (g.node b).element with
    | none => exact EndsUnify.of_set _
    | some y =>
      refine .bind_set _ (hjoin _ x y ?_ (size_update g a _) (hg.element_lt a x hx)
        (hg.element_lt b y hy) (mergeBound_clearElement ha hx))
      exact (Change.element g a none (fun _ hj => by cases hj)).wellFormed hg

/-- Once the elements are brought together, clearing a record of a list leaves less to do than there
was before: classes were joined, or the records of lists are as they were. -/
theorem mergeBound_clearContainer (hg : g.WellFormed) (hh : h.WellFormed) (hs : h.size = g.size)
    (hext : Extends g h) (hcase : Joined g h ∨ KeepsBut .element g h) (ha : a < h.size)
    (hx : (h.node a).container = some x) :
    (h.update a ({ · with container := none })).mergeBound < g.mergeBound := by
  have hsize : (h.update a ({ · with container := none })).size = g.size :=
    (size_update h a _).trans hs
  have hclasses : (h.update a ({ · with container := none })).classCount = h.classCount :=
    classCount_congr (size_update h a _) (fun i => root_update h a i _ (fun _ => rfl))
  rcases hcase with hj | hk
  · refine mergeBound_lt_of_classCount hsize ?_
    rw [hclasses]
    exact classCount_lt_of_joined hg hh hs hext hj
  · refine mergeBound_lt_of_containers hsize ?_ ?_
    · rw [hclasses]
      exact classCount_congr hs hk.root_eq
    · have hlists : ∀ i, (h.node i).container = (g.node i).container := hk.record_eq
      rw [← recordCount_congr hs hlists]
      exact recordCount_clear _ (fun _ => rfl) ha hx

theorem endsUnify_mergeContainers (hg : g.WellFormed) (hjoin : EndsBelow search join g.size bound)
    (a b : NodeId)
    (hlt : ∀ x, (g.node a).container = some x →
      (g.update a ({ · with container := none })).mergeBound < bound) :
    EndsUnify (Clocked.mergeContainers search a b) (mergeContainers join a b) g := by
  unfold Clocked.mergeContainers mergeContainers
  refine .bind_get ?_
  cases hx : (g.node a).container with
  | none => exact .pure ()
  | some x =>
    cases hy : (g.node b).container with
    | none => exact EndsUnify.of_set _
    | some y =>
      refine .bind_set _ (hjoin _ x y ?_ (size_update g a _) (hg.container_lt a x hx)
        (hg.container_lt b y hy) (hlt x hx))
      exact (Change.container g a none (fun _ hj => by cases hj)).wellFormed hg

/-- A merge of two roots ends if the merges nested in it do. -/
theorem endsUnify_mergeRoots (fuel : Nat) (hg : g.WellFormed) (hclock : g.size < clock)
    (hjoin : EndsBelow search (merge fuel) g.size g.mergeBound) (a b : NodeId) (ha : a < g.size)
    (hra : g.root a = a) :
    EndsUnify
      (do Clocked.mergeElements search a b; Clocked.mergeContainers search a b
          Clocked.linkFound clock a b)
      (do mergeElements (merge fuel) a b; mergeContainers (merge fuel) a b; linkFound a b) g := by
  refine .bind (endsUnify_mergeElements hg hjoin a b ha) ?_
  intro _ g1 hrun1
  have hc1 := ((moves_mergeRecords .element _ (joins_merge fuel) hg a b).of_ok hrun1).1
  have hs1 := ((moves_mergeRecords_size .element (moves_merge_size fuel) a b).of_ok hrun1).1
  have hcase := (ensures_mergeRecords .element _ (damaging_merge fuel) hg a b ha hra).of_ok hrun1
  have hg1 := hc1.wellFormed hg
  have ha1 : a < g1.size := by rwa [hs1]
  have hjoin1 : EndsBelow search (merge fuel) g1.size g.mergeBound := by rwa [hs1]
  refine .bind (endsUnify_mergeContainers hg1 hjoin1 a b ?_) ?_
  · intro x hx
    exact mergeBound_clearContainer hg hg1 hs1 (hc1.extends hg) hcase ha1 hx
  · intro _ g2 hrun2
    have hc2 := ((moves_mergeRecords .container _ (joins_merge fuel) hg1 a b).of_ok hrun2).1
    have hs2 := ((moves_mergeRecords_size .container (moves_merge_size fuel) a b).of_ok hrun2).1
    exact endsUnify_linkFound (hc2.wellFormed hg1) (by rwa [hs2, hs1]) a b

/-- A merge ends: nested merges have less and less to do. -/
theorem endsUnify_merge (fuel clock : Nat) (hclock : n + fuel < clock) :
    EndsBelow (Clocked.merge clock) (merge fuel) n fuel := by
  obtain _ | clock := clock
  · omega
  induction fuel generalizing clock with
  | zero => exact fun k _ _ _ _ _ _ hlt => absurd hlt (Nat.not_lt_zero _)
  | succ fuel ih =>
    rintro g p q hg rfl hp hq hlt
    obtain _ | clock := clock
    · omega
    have hg1 := compress_wellFormed hg p
    have hs1 := compress_sameClasses hg p
    have hw : Walked g (find q (find p g).2).2 :=
      ⟨compress_wellFormed hg1 q, hs1.trans (compress_sameClasses hg1 q)⟩
    have ha : (find p g).1 = g.root p := rfl
    have hb : (find q (find p g).2).1 = g.root q := hs1.root_eq q
    unfold Clocked.merge
    rw [merge_succ]
    refine .bind_lift (ends_find hg (by omega) p) ?_
    refine .bind_lift (ends_find hg1 (by rw [hs1.size_eq]; omega) q) ?_
    rw [ha, hb]
    generalize (find q (find p g).2).2 = k at hw
    split
    · exact .pure ()
    · refine .bind (EndsUnify.step _) ?_
      intro _ k' hunify
      obtain ⟨rfl, _⟩ := (ensures_unifyRoots _ _).of_ok hunify
      have hsize := hw.2.size_eq
      refine endsUnify_mergeRoots fuel hw.1 (by omega) ?_ _ _ ?_ ?_
      · intro m x y hm hms hx hy hmlt
        rw [mergeBound_congr hw.2] at hmlt
        rw [hsize] at hms hx hy
        exact ih clock (by omega) m x y hm hms hx hy (by omega)
      · rw [hsize]
        exact root_lt hg p hp
      · rw [hw.2.root_eq, root_root hg]

end Merging

/-- Ticks that every operation on a graph with `n` nodes gets along with. -/
def ticks (n : Nat) : Nat :=
  n + (n + 1) * (n + 1) * (n + 1)

theorem endsUnify_union {clock : Nat} (hg : g.WellFormed) (hclock : ticks g.size < clock)
    (p q : NodeId) (hp : p < g.size) (hq : q < g.size) :
    EndsUnify (Clocked.union clock p q) (union p q) g := by
  unfold ticks at hclock
  have hnil : PairsBelow g.size [] := ⟨List.nodup_nil, fun _ h => by cases h⟩
  have hsquare : g.size + (g.size * g.size + 1) < clock := by nlinarith
  unfold Clocked.union union
  refine EndsUnify.of_get ?_
  refine .bind (endsUnify_checkUnion hg _ clock hsquare [] hnil (by simp) p q hp hq g
    ⟨hg, SameClasses.refl g⟩) ?_
  intro _ k hrun
  obtain ⟨⟨hk, hs⟩, _⟩ := (ensures_checkUnion hg p q hp hq).of_ok hrun
  refine endsUnify_merge _ clock hclock k p q hk hs.size_eq hp hq ?_
  rw [← hs.size_eq]
  exact k.mergeBound_lt_cube

theorem moves_union_size (hg : g.WellFormed) (p q : NodeId) :
    Moves SameSize (union p q) g (fun _ _ => True) := by
  unfold union
  refine .bind_get ?_
  refine .bind ((moves_checkUnion _ [] p q g hg).mono (fun _ hc => ?_)) ?_
  · exact (hc.sameClasses hg).size_eq
  · intro _ k _ _
    exact moves_merge_size _ p q k

end BlockProgram.TypeGraph
