import BlockProgram.Proofs.TypeGraph.Growth
import Mathlib.Tactic.Positivity

/-!
# What the operations of a type graph do

For every operation: which changes it makes of a well-formed graph, whether it fails or not, and
what holds when it succeeds.

* `moves_checkUnion`: the check before a union only compresses.
* `moves_union`: a union that succeeds has joined its two classes.
* `resolver_resolveFrom`: resolution moves no root, and settles no class that was visited before.
-/

namespace BlockProgram

open List

variable {visited : List NodeId}

/-- A step that only compresses, among steps that change. -/
theorem Moves.ofCompressions {ε α : Type} {m : EStateM ε TypeGraph α} {g : TypeGraph}
    {Q : α → TypeGraph → Prop} (h : Moves TypeGraph.Compressions m g Q) :
    Moves TypeGraph.Changes m g Q :=
  h.mono (fun _ hc => hc.changes)

namespace TypeGraph

variable {g : TypeGraph}

/-! ## Finding roots -/

theorem runs_find (hg : g.WellFormed) (i : NodeId) :
    Runs Compressions (find i) g (fun r h => r = g.root i ∧ SameClasses g h) :=
  ⟨Compressions.single g i, rfl, compress_sameClasses hg i⟩

theorem moves_find (hg : g.WellFormed) (i : NodeId) :
    Moves Compressions (find i : UnifyM NodeId) g (fun r h => r = g.root i ∧ SameClasses g h) :=
  .lift (runs_find hg i)

theorem ensures_unifyRoots (a b : NodeId) : Ensures (unifyRoots a b) g
      (fun t h => h = g ∧ TypeName.unify (g.node a).type (g.node b).type = .ok t)
      (fun e h => h = g ∧ TypeName.unify (g.node a).type (g.node b).type = .error e) := by
  unfold Ensures unifyRoots
  cases hu : TypeName.unify (g.node a).type (g.node b).type with
  | ok t => exact ⟨rfl, rfl⟩
  | error e => exact ⟨rfl, rfl⟩

theorem moves_unifyRoots (a b : NodeId) : Moves Compressions (unifyRoots a b) g
      (fun t h => h = g ∧ TypeName.unify (g.node a).type (g.node b).type = .ok t) := by
  refine (ensures_unifyRoots a b).imp ?_ ?_
  · rintro t h ⟨rfl, ht⟩
    exact ⟨Std.Refl.refl h, rfl, ht⟩
  · rintro e h ⟨rfl, _⟩
    exact Std.Refl.refl h

/-! ## Checking -/

theorem moves_checkBoth (check : Pairs → NodeId → NodeId → UnifyM Pairs)
    (hcheck : ∀ seen p q k, k.WellFormed → Moves Compressions (check seen p q) k (fun _ _ => True))
    (hg : g.WellFormed) (seen : Pairs) (x y : Option NodeId) :
    Moves Compressions (checkBoth check seen x y) g (fun _ _ => True) := by
  unfold checkBoth
  split
  · exact hcheck seen _ _ g hg
  · exact .pure seen trivial

/-- The check before a union only compresses. -/
theorem moves_checkUnion (fuel : Nat) (seen : Pairs) (p q : NodeId) (g : TypeGraph)
    (hg : g.WellFormed) : Moves Compressions (checkUnion fuel seen p q) g (fun _ _ => True) := by
  induction fuel generalizing seen p q g with
  | zero => exact .pure seen trivial
  | succ fuel ih =>
    unfold checkUnion
    refine .bind (moves_find hg p) ?_
    intro a g1 hc1 _
    refine .bind (moves_find (hc1.wellFormed hg) q) ?_
    intro b g2 hc2 _
    split
    · exact .pure seen trivial
    · refine .bind (moves_unifyRoots a b) ?_
      intro _ g3 hc3 _
      have hg3 := hc3.wellFormed (hc2.wellFormed (hc1.wellFormed hg))
      refine .bind_get ?_
      refine .bind (moves_checkBoth _ ih hg3 _ _ _) ?_
      intro seen' g4 hc4 _
      refine .bind_get ?_
      exact moves_checkBoth _ ih (hc4.wellFormed hg3) _ _ _

/-! ## Merging -/

/-- A join of two classes that may be nested in another one. -/
def Joins (join : NodeId → NodeId → UnifyM Unit) : Prop :=
  ∀ k x y, k.WellFormed → x < k.size → y < k.size → Moves Changes (join x y) k (fun _ _ => True)

/-- A change of the graph, then a join of nodes that were there before. -/
theorem moves_set_join {join : NodeId → NodeId → UnifyM Unit} (hjoin : Joins join)
    (hg : g.WellFormed) {k : TypeGraph} (hk : Change g k) {x y : NodeId} (hx : x < g.size)
    (hy : y < g.size) : Moves Changes (do set k; join x y : UnifyM Unit) g (fun _ _ => True) := by
  have hsize := hk.single.size_le hg
  refine .bind_set _ hk.single (hjoin k x y (hk.single.wellFormed hg) ?_ ?_)
  · exact lt_of_lt_of_le hx hsize
  · exact lt_of_lt_of_le hy hsize

theorem moves_mergeRecords (s : Slot) (join : NodeId → NodeId → UnifyM Unit) (hjoin : Joins join)
    (hg : g.WellFormed) (a b : NodeId) :
    Moves Changes (mergeRecords s join a b) g (fun _ _ => True) := by
  unfold mergeRecords
  refine .bind_get ?_
  split
  · next x y hx hy =>
    have hclear := Change.write g s a none (fun _ hj => by cases hj)
    exact moves_set_join hjoin hg hclear (hg.record_lt hx) (hg.record_lt hy)
  · next x hx _ =>
    have hmove := Change.write g s b (some x) (fun j hj => by cases hj; exact hg.record_lt hx)
    exact Moves.of_set _ hmove.single trivial
  · exact .pure () trivial

theorem moves_linkRoots (hg : g.WellFormed) (a b : NodeId) (hra : g.IsRoot a) (hrb : g.IsRoot b)
    (hab : a ≠ b) (ha : a < g.size) (hb : b < g.size) :
    Moves Changes (linkRoots a b) g (fun _ h => h.root a = h.root b) := by
  unfold Moves Ensures
  rw [linkRoots_eq]
  cases hu : TypeName.unify (g.node a).type (g.node b).type with
  | error e => exact Std.Refl.refl g
  | ok t =>
    refine ⟨(Change.join g a b t hra hrb hab ha hb hu).single, ?_⟩
    show (g.joinRoots a b t).root a = (g.joinRoots a b t).root b
    rw [root_joinRoots hg a b t hra hrb hab ha hb, root_joinRoots hg a b t hra hrb hab ha hb,
      root_of_isRoot g a hra, root_of_isRoot g b hrb, if_pos rfl, if_neg (Ne.symm hab)]

/-- The last part of a merge: links the root of `a` to that of `b` unless they are one by now. -/
def linkFound (a b : NodeId) : UnifyM Unit := do
  let a ← find a
  let b ← find b
  if a = b then pure () else linkRoots a b

theorem merge_succ (fuel : Nat) (p q : NodeId) : merge (fuel + 1) p q = (do
      let a ← find p
      let b ← find q
      if a = b then
        pure ()
      else
        let _ ← unifyRoots a b
        mergeElements (merge fuel) a b
        mergeContainers (merge fuel) a b
        linkFound a b) :=
  rfl

theorem moves_linkFound (hg : g.WellFormed) (a b : NodeId) (ha : a < g.size) (hb : b < g.size) :
    Moves Changes (linkFound a b) g (fun _ h => h.root a = h.root b) := by
  unfold linkFound
  refine .bind (moves_find hg a).ofCompressions ?_
  rintro _ g1 hc1 ⟨rfl, hs1⟩
  have hg1 := hc1.wellFormed hg
  refine .bind (moves_find hg1 b).ofCompressions ?_
  rintro _ g2 hc2 ⟨rfl, hs2⟩
  have hg2 := hc2.wellFormed hg1
  have hs := hs1.trans hs2
  rw [hs1.root_eq]
  split
  · next hab =>
    refine .pure () ?_
    rw [hs.root_eq, hs.root_eq, hab]
  · next hab =>
    have hra := (hs.isRoot_iff hg hg2 _).mpr (isRoot_root hg a)
    have hrb := (hs.isRoot_iff hg hg2 _).mpr (isRoot_root hg b)
    refine (moves_linkRoots hg2 _ _ hra hrb hab ?_ ?_).imp ?_
    · rw [hs.size_eq]
      exact root_lt hg a ha
    · rw [hs.size_eq]
      exact root_lt hg b hb
    · intro _ h hc hab'
      have hext := hs.extends.trans (hc.extends hg2)
      have h1 := hext.root_eq a (g.root a) (root_root hg a).symm
      have h2 := hext.root_eq b (g.root b) (root_root hg b).symm
      rw [h1, h2, hab']

/-- A merge with at least one level that succeeds has joined its two classes. -/
theorem moves_merge_succ (fuel : Nat) (p q : NodeId) (hg : g.WellFormed) (hp : p < g.size)
    (hq : q < g.size) (hjoin : Joins (merge fuel)) :
    Moves Changes (merge (fuel + 1) p q) g (fun _ h => h.root p = h.root q) := by
  rw [merge_succ]
  refine .bind (moves_find hg p).ofCompressions ?_
  rintro a g1 hc1 ⟨rfl, hs1⟩
  have hg1 := hc1.wellFormed hg
  refine .bind (moves_find hg1 q).ofCompressions ?_
  rintro b g2 hc2 ⟨rfl, hs2⟩
  have hg2 := hc2.wellFormed hg1
  have hs := hs1.trans hs2
  rw [hs1.root_eq]
  split
  · next hpq =>
    refine .pure () ?_
    rw [hs.root_eq, hs.root_eq, hpq]
  · next hpq =>
    refine .bind (moves_unifyRoots _ _).ofCompressions ?_
    rintro _ g3 hc3 ⟨rfl, _⟩
    refine .bind (moves_mergeRecords .element _ hjoin hg2 _ _) ?_
    intro _ g4 hc4 _
    have hg4 := hc4.wellFormed hg2
    refine .bind (moves_mergeRecords .container _ hjoin hg4 _ _) ?_
    intro _ g5 hc5 _
    have hg5 := hc5.wellFormed hg4
    have hext := (hs.extends.trans (hc4.extends hg2)).trans (hc5.extends hg4)
    have ha := lt_of_lt_of_le (root_lt hg p hp) hext.size_le
    have hb := lt_of_lt_of_le (root_lt hg q hq) hext.size_le
    refine (moves_linkFound hg5 _ _ ha hb).imp ?_
    -- whatever was joined on the way, `p` and `q` are still with their old roots
    intro _ h hc hab
    have hall := hext.trans (hc.extends hg5)
    have h1 := hall.root_eq p (g.root p) (root_root hg p).symm
    have h2 := hall.root_eq q (g.root q) (root_root hg q).symm
    rw [h1, h2, hab]

theorem joins_merge (fuel : Nat) : Joins (merge fuel) := by
  induction fuel with
  | zero => exact fun k _ _ _ _ _ => .pure () trivial
  | succ fuel ih =>
    intro k x y hk hx hy
    exact (moves_merge_succ fuel x y hk hx hy ih).imp (fun _ _ _ _ => trivial)

/-- A union merges with at least one level. -/
theorem merge_fuel_succ (n : Nat) : ∃ fuel, (n + 1) * (n + 1) * (n + 1) = fuel + 1 :=
  Nat.exists_eq_succ_of_ne_zero (by positivity)

/-- A union that succeeds has joined its two classes. -/
theorem moves_union (hg : g.WellFormed) (p q : NodeId) (hp : p < g.size) (hq : q < g.size) :
    Moves Changes (union p q) g (fun _ h => h.root p = h.root q) := by
  unfold union
  refine .bind_get ?_
  refine .bind (moves_checkUnion _ [] p q g hg).ofCompressions ?_
  intro _ h hc _
  have hsize := hc.size_le hg
  obtain ⟨fuel, hfuel⟩ := merge_fuel_succ g.size
  rw [hfuel]
  exact moves_merge_succ _ p q (hc.wellFormed hg) (lt_of_lt_of_le hp hsize)
    (lt_of_lt_of_le hq hsize) (joins_merge _)

/-! ## Lists and elements -/

theorem moves_recordAt (s : Slot) (room : Option TypeName → Bool) (hg : g.WellFormed) (r x : NodeId)
    (hx : x < g.size) : Moves Changes (recordAt s room r x) g (fun _ _ => True) := by
  unfold recordAt
  refine .bind_get ?_
  split
  · next known hk =>
    exact (moves_union hg known x (hg.record_lt hk) hx).imp (fun _ _ _ _ => trivial)
  · split
    · have hnew := Change.write g s r (some x) (fun j hj => by cases hj; exact hx)
      exact Moves.of_set _ hnew.single trivial
    · exact .pure () trivial

theorem moves_markArray (p : NodeId) : Moves Changes (markArray p) g (fun _ _ => True) := by
  unfold markArray
  refine .bind_get ?_
  split
  · exact Moves.of_set _ (Change.mark g p).single trivial
  · exact .pure () trivial

theorem moves_linkElement (hg : g.WellFormed) (l e : NodeId) (hl : l < g.size) (he : e < g.size) :
    Moves Changes (linkElement l e) g (fun _ _ => True) := by
  unfold linkElement
  refine .bind (moves_find hg l).ofCompressions ?_
  rintro p g1 hc1 ⟨rfl, hs1⟩
  have hg1 := hc1.wellFormed hg
  refine .bind (moves_find hg1 e).ofCompressions ?_
  rintro c g2 hc2 ⟨rfl, hs2⟩
  have hg2 := hc2.wellFormed hg1
  have hp2 : g.root l < g2.size :=
    lt_of_lt_of_le (root_lt hg l hl) (le_of_eq (hs1.trans hs2).size_eq.symm)
  have hc2 : g1.root e < g2.size := by
    rw [hs1.root_eq]
    exact lt_of_lt_of_le (root_lt hg e he) (le_of_eq (hs1.trans hs2).size_eq.symm)
  split
  · exact .pure () trivial
  · refine .bind (moves_recordAt .element TypeName.isOpen hg2 _ _ hc2) ?_
    intro _ g3 hc3 _
    have hg3 := hc3.wellFormed hg2
    have hp3 := root_lt hg3 _ (lt_of_lt_of_le hp2 (hc3.size_le hg2))
    refine .bind (moves_find hg3 _).ofCompressions ?_
    rintro p g4 hc4 ⟨rfl, hs4⟩
    have hg4 := hc4.wellFormed hg3
    refine .bind (moves_find hg4 _).ofCompressions ?_
    rintro c g5 hc5 ⟨rfl, hs5⟩
    have hg5 := hc5.wellFormed hg4
    have hp5 := lt_of_lt_of_le hp3 (le_of_eq (hs4.trans hs5).size_eq.symm)
    refine .bind (moves_recordAt .container Option.isNone hg5 _ _ hp5) ?_
    intro _ g6 hc6 _
    have hg6 := hc6.wellFormed hg5
    refine .bind (moves_find hg6 _).ofCompressions ?_
    intro p g7 _ _
    exact moves_markArray p

/-! ## Resolution -/

/-- What resolution does to a graph, apart from the classes in `visited`. -/
structure Resolves (visited : List NodeId) (g h : TypeGraph) : Prop where
  changes : Changes g h
  size_eq : h.size = g.size
  root_eq : ∀ i, h.root i = g.root i
  type_eq : ∀ r ∈ visited, (h.node r).type = (g.node r).type

instance resolvesRefl (visited : List NodeId) : Std.Refl (Resolves visited) :=
  ⟨fun g => ⟨Std.Refl.refl g, rfl, fun _ => rfl, fun _ _ => rfl⟩⟩

theorem Resolves.trans {g h k : TypeGraph} (h1 : Resolves visited g h)
    (h2 : Resolves visited h k) : Resolves visited g k where
  changes := h1.changes.trans h2.changes
  size_eq := h2.size_eq.trans h1.size_eq
  root_eq i := (h2.root_eq i).trans (h1.root_eq i)
  type_eq r hr := (h2.type_eq r hr).trans (h1.type_eq r hr)

instance resolvesTrans (visited : List NodeId) : IsTrans TypeGraph (Resolves visited) :=
  ⟨fun _ _ _ => Resolves.trans⟩

theorem resolves_compress (hg : g.WellFormed) (visited : List NodeId) (i : NodeId) :
    Resolves visited g (g.compress i) where
  changes := (Change.compress g i).single
  size_eq := (compress_sameClasses hg i).size_eq
  root_eq := (compress_sameClasses hg i).root_eq
  type_eq r _ := (compress_sameClasses hg i).type_eq r

theorem resolves_settle (visited : List NodeId) (r : NodeId) (t : TypeName) (hr : g.IsRoot r)
    (ho : TypeName.isOpen (g.node r).type = true) (hv : r ∉ visited) :
    Resolves visited g (g.update r ({ · with type := some t })) where
  changes := (Change.settle g r t hr ho).single
  size_eq := size_update g r _
  root_eq i := root_update g r i _ (fun _ => rfl)
  type_eq x hx := by
    rw [node_update_ne g r x _ (fun h => hv (h ▸ hx))]

theorem resolves_mark (visited : List NodeId) (r : NodeId) :
    Resolves visited g (g.update r ({ · with isArray := true })) where
  changes := (Change.mark g r).single
  size_eq := size_update g r _
  root_eq i := root_update g r i _ (fun _ => rfl)
  type_eq x _ := field_update Node.type g r x _ (fun _ => rfl)

theorem resolves_settle_list (visited : List NodeId) (r : NodeId) (t : TypeName) (hr : g.IsRoot r)
    (ho : TypeName.isOpen (g.node r).type = true) (hv : r ∉ visited) :
    Resolves visited g (g.update r ({ · with type := some t, isArray := true })) := by
  have htwo := (resolves_settle visited r t hr ho hv).trans (resolves_mark visited r)
  rwa [update_update] at htwo

/-- Different nodes of a graph with `n` nodes. -/
structure NodesBelow (n : Nat) (visited : List NodeId) : Prop where
  nodup : visited.Nodup
  lt : ∀ i ∈ visited, i < n

theorem NodesBelow.length_le {n : Nat} (h : NodesBelow n visited) : visited.length ≤ n := by
  have hsub : visited ⊆ List.range n := fun i hi => mem_range.mpr (h.lt i hi)
  have hle := (h.nodup.subperm hsub).length_le
  rwa [length_range] at hle

theorem NodesBelow.cons {n : Nat} (h : NodesBelow n visited) {t : NodeId}
    (ht : t < n) (hnot : t ∉ visited) : NodesBelow n (t :: visited) := by
  refine ⟨nodup_cons.mpr ⟨hnot, h.nodup⟩, ?_⟩
  intro i hi
  rcases mem_cons.mp hi with rfl | hi
  · exact ht
  · exact h.lt i hi

/-- What is visited later on: what was before, and more nodes of a graph with `n` nodes. -/
structure VisitsMore (n : Nat) (visited visited' : List NodeId) : Prop where
  subset : visited ⊆ visited'
  below : NodesBelow n visited → NodesBelow n visited'

theorem VisitsMore.refl (n : Nat) (visited : List NodeId) : VisitsMore n visited visited :=
  ⟨List.Subset.refl visited, id⟩

theorem VisitsMore.trans {n : Nat} {u v w : List NodeId} (h : VisitsMore n u v)
    (h' : VisitsMore n v w) : VisitsMore n u w :=
  ⟨List.Subset.trans h.subset h'.subset, fun hu => h'.below (h.below hu)⟩

/-- A resolution of single classes that leaves the visited ones alone. -/
def Resolver (resolve : List NodeId → NodeId → GraphM (NodeId × List NodeId)) : Prop :=
  ∀ k visited i, k.WellFormed → Runs (Resolves visited) (resolve visited i) k
    (fun r _ => r.1 = k.root i ∧ visited ⊆ r.2 ∧ (i < k.size → VisitsMore k.size visited r.2))

theorem runs_resolveRecorded (resolve : List NodeId → NodeId → GraphM (NodeId × List NodeId))
    (hresolve : Resolver resolve) (readType : TypeGraph → NodeId → Option TypeName)
    (visited : List NodeId) (x : Option NodeId) (hg : g.WellFormed)
    (hx : ∀ i, x = some i → i < g.size) :
    Runs (Resolves visited) (resolveRecorded resolve readType visited x) g
      (fun r _ => VisitsMore g.size visited r.2) := by
  unfold resolveRecorded
  split
  · exact .pure _ (.refl _ visited)
  · next i =>
    refine .bind (hresolve g visited i hg) ?_
    rintro ⟨r, visited'⟩ h _ ⟨_, _, hmore⟩
    exact .bind_get (.pure _ (hmore (hx i rfl)))

/-- A resolution that knows more classes as visited. -/
theorem runs_visited {α : Type} {m : GraphM α} {visited' : List NodeId}
    {Q : α → TypeGraph → Prop} (h : Runs (Resolves visited') m g Q) (hsub : visited ⊆ visited') :
    Runs (Resolves visited) m g (fun a k => Resolves visited' g k ∧ Q a k) :=
  ⟨{ h.1 with type_eq := fun r hr => h.1.type_eq r (hsub hr) }, h.1, h.2⟩

/-- Settling root `t` changes no type of a class visited before `t`. -/
theorem runs_settle (resolve : List NodeId → NodeId → GraphM (NodeId × List NodeId))
    (hresolve : Resolver resolve) (visited : List NodeId) (t : NodeId) (hg : g.WellFormed)
    (ht : g.IsRoot t) (ho : TypeName.isOpen (g.node t).type = true) (hv : t ∉ visited) :
    Runs (Resolves visited) (settle resolve (t :: visited) t) g
      (fun r _ => VisitsMore g.size (t :: visited) r) := by
  -- after any resolution that knows `t` as visited, `t` is still a root of open type
  have hstill : ∀ k, Resolves (t :: visited) g k →
      k.WellFormed ∧ k.IsRoot t ∧ TypeName.isOpen (k.node t).type = true := by
    intro k hk
    have hwk := hk.changes.wellFormed hg
    refine ⟨hwk, ?_, ?_⟩
    · rw [isRoot_iff hwk, hk.root_eq, (isRoot_iff hg t).mp ht]
    · rw [hk.type_eq t (mem_cons_self ..), ho]
  have hsub : visited ⊆ t :: visited := subset_cons_self t visited
  unfold settle
  refine .bind_get ?_
  refine .bind (runs_visited (runs_resolveRecorded resolve hresolve elementTypeAt
    (t :: visited) _ hg (hg.container_lt t)) hsub) ?_
  rintro ⟨type1, visited1⟩ g1 _ ⟨hr1, hv1⟩
  obtain ⟨hg1, ht1, ho1⟩ := hstill g1 hr1
  cases type1 with
  | some type =>
    refine .bind_modify _ (resolves_settle visited t type ht1 ho1 hv) ?_
    exact .pure _ hv1
  | none =>
    refine .bind_get ?_
    refine .bind (runs_visited (runs_resolveRecorded resolve hresolve listTypeAt visited1 _ hg1
      (hg1.element_lt t)) (List.Subset.trans hsub hv1.subset)) ?_
    rintro ⟨type2, visited2⟩ g2 _ ⟨hr2, hv2⟩
    obtain ⟨_, ht2, ho2⟩ := hstill g2
      (hr1.trans { hr2 with type_eq := fun r hr => hr2.type_eq r (hv1.subset hr) })
    rw [hr1.size_eq] at hv2
    have hall := hv1.trans hv2
    cases type2 with
    | some type =>
      refine .bind_modify _ (resolves_settle_list visited t type ht2 ho2 hv) ?_
      exact .pure _ hall
    | none => exact .pure _ hall

theorem runs_find_resolves (hg : g.WellFormed) (visited : List NodeId) (i : NodeId) :
    Runs (Resolves visited) (find i) g (fun r h => r = g.root i ∧ SameClasses g h) :=
  ⟨resolves_compress hg visited i, rfl, compress_sameClasses hg i⟩

theorem resolver_resolveFrom (fuel : Nat) : Resolver (resolveFrom fuel) := by
  induction fuel with
  | zero =>
    intro k visited i hk
    unfold resolveFrom
    refine .bind (runs_find_resolves hk visited i) ?_
    rintro r h _ ⟨rfl, _⟩
    exact .pure _ ⟨rfl, List.Subset.refl visited, fun _ => .refl _ visited⟩
  | succ fuel ih =>
    intro k visited i hk
    unfold resolveFrom
    refine .bind (runs_find_resolves hk visited i) ?_
    rintro r h hr ⟨rfl, hs⟩
    have hh := hr.changes.wellFormed hk
    split
    · exact .pure _ ⟨rfl, List.Subset.refl visited, fun _ => .refl _ visited⟩
    · next hv =>
      have hcons : visited ⊆ k.root i :: visited := subset_cons_self _ visited
      have hmore : i < k.size → VisitsMore k.size visited (k.root i :: visited) :=
        fun hi => ⟨hcons, fun hbelow => hbelow.cons (root_lt hk i hi) hv⟩
      refine .bind_get ?_
      split
      · next ho =>
        have hroot := (hs.isRoot_iff hk hh _).mpr (isRoot_root hk i)
        refine .bind (runs_settle _ ih visited _ hh hroot ho hv) ?_
        intro visited' h' _ hv'
        rw [hs.size_eq] at hv'
        exact .pure _ ⟨rfl, List.Subset.trans hcons hv'.subset, fun hi => (hmore hi).trans hv'⟩
      · exact .pure _ ⟨rfl, hcons, hmore⟩

theorem runs_resolve (hg : g.WellFormed) (i : NodeId) :
    Runs (Resolves []) (resolve i) g (fun r h => r = h.root i) := by
  unfold resolve
  refine .bind_get ?_
  refine .bind (resolver_resolveFrom (g.size + 1) g [] i hg) ?_
  rintro ⟨r, visited⟩ h hr ⟨rfl, _⟩
  refine .pure _ ?_
  rw [hr.root_eq]

/-- Resolution moves no root and yields the type that the class then carries. -/
theorem runs_resolvedType (hg : g.WellFormed) (i : NodeId) :
    Runs (Resolves []) (resolvedType i) g (fun t h => t = h.typeAt i) := by
  unfold resolvedType
  refine .bind (runs_resolve hg i) ?_
  rintro r h _ rfl
  refine .bind_get ?_
  exact .pure _ rfl

end TypeGraph

end BlockProgram
