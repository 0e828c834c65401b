import BlockProgram.Proofs.TypeGraph.Check

/-!
# Unions that fail

A union first checks all pairs of classes that it would force together, as they stand, and then
joins them one after another. The check does not look ahead: when one class takes part in two pairs,
each of them may fit while the two together do not. The union then fails half way.

* `failed_union_unchanged_iff`: a failed union leaves all classes as they were exactly when the
  check refused it, that is, when some forced pair clashes.
* `failed_union_changes_tangled`: a graph on which a failed union has joined two classes.

A merge that fails after a check that passed has either joined classes or dropped a record of a list
or of elements for good: `Damages`.
-/

namespace BlockProgram.TypeGraph

/-- No class differs in its members, nor its root in what it records. -/
structure Unchanged (g h : TypeGraph) : Prop where
  size_eq : h.size = g.size
  root_eq : ∀ i, h.root i = g.root i
  record_eq : ∀ i, h.node (h.root i) = g.node (g.root i)

variable {g h k : TypeGraph}

theorem SameClasses.unchanged (hs : SameClasses g h) (hg : g.WellFormed) (hh : h.WellFormed) :
    Unchanged g h := by
  refine ⟨hs.size_eq, hs.root_eq, ?_⟩
  intro i
  have hlg : (g.node (g.root i)).link = none := isRoot_root hg i
  have hlh : (h.node (h.root i)).link = none := isRoot_root hh i
  rw [hs.root_eq] at hlh ⊢
  have htype := hs.type_eq (g.root i)
  have helement := hs.element_eq (g.root i)
  have hcontainer := hs.container_eq (g.root i)
  have harray := hs.isArray_eq (g.root i)
  cases hn : h.node (g.root i)
  cases hn' : g.node (g.root i)
  simp_all

/-! ## Damage -/

/-- Some classes that were apart are one. -/
def Joined (g h : TypeGraph) : Prop :=
  ∃ i j, g.root i ≠ g.root j ∧ h.root i = h.root j

/-- Some class no longer has a record. -/
def Loses (s : Slot) (g h : TypeGraph) : Prop :=
  ∃ r, g.root r = r ∧ g.record s r ≠ none ∧ h.record s r = none

/-- No class was joined, no record of a list is new, and one of elements at most where a record of a
list is lost. -/
structure Shrinks (g h : TypeGraph) : Prop where
  root_eq : ∀ i, h.root i = g.root i
  container_le : ∀ r, h.record .container r = g.record .container r ∨ h.record .container r = none
  element_le : Loses .container g h ∨
    ∀ r, h.record .element r = g.record .element r ∨ h.record .element r = none

/-- What a merge that fails in the middle leaves behind. -/
def Damages (g h : TypeGraph) : Prop :=
  Joined g h ∨ (Shrinks g h ∧ (Loses .container g h ∨ Loses .element g h))

theorem Joined.after (hroot : ∀ i, h.root i = g.root i) (hj : Joined h k) : Joined g k := by
  obtain ⟨i, j, hij, hk⟩ := hj
  rw [hroot, hroot] at hij
  exact ⟨i, j, hij, hk⟩

theorem Joined.before (hj : Joined g h) (hext : Extends h k) : Joined g k := by
  obtain ⟨i, j, hij, hh⟩ := hj
  exact ⟨i, j, hij, hext.root_eq i j hh⟩

theorem SameClasses.shrinks (hs : SameClasses g h) : Shrinks g h where
  root_eq := hs.root_eq
  container_le r := .inl (hs.container_eq r)
  element_le := .inr fun r => .inl (hs.element_eq r)

theorem Loses.before (hl : Loses .container g h) (hs : Shrinks h k) : Loses .container g k := by
  obtain ⟨r, hr, hg, hh⟩ := hl
  refine ⟨r, hr, hg, ?_⟩
  rcases hs.container_le r with h1 | h1
  · rw [h1, hh]
  · exact h1

theorem Loses.after (hs : Shrinks g h) (hl : Loses .container h k) : Loses .container g k := by
  obtain ⟨r, hr, hh, hk⟩ := hl
  refine ⟨r, by rw [← hs.root_eq, hr], ?_, hk⟩
  rcases hs.container_le r with h1 | h1
  · rwa [← h1]
  · exact absurd h1 hh

theorem Shrinks.trans (h1 : Shrinks g h) (h2 : Shrinks h k) : Shrinks g k := by
  refine ⟨fun i => (h2.root_eq i).trans (h1.root_eq i), ?_, ?_⟩
  · intro r
    rcases h2.container_le r with hr | hr
    · rw [hr]
      exact h1.container_le r
    · exact .inr hr
  · rcases h1.element_le with hl | h1e
    · exact .inl (hl.before h2)
    · rcases h2.element_le with hl | h2e
      · exact .inl (hl.after h1)
      · right
        intro r
        rcases h2e r with hr | hr
        · rw [hr]
          exact h1e r
        · exact .inr hr

theorem Damages.not_unchanged (hd : Damages g h) : ¬ Unchanged g h := by
  intro hu
  have hkept : ∀ s, ¬ Loses s g h := by
    rintro s ⟨r, hr, hg, hl⟩
    have hnode := hu.record_eq r
    rw [hu.root_eq, hr] at hnode
    unfold record at hl
    rw [hnode] at hl
    exact hg hl
  rcases hd with ⟨i, j, hij, hh⟩ | ⟨_, hl | hl⟩
  · rw [hu.root_eq, hu.root_eq] at hh
    exact hij hh
  · exact hkept _ hl
  · exact hkept _ hl

/-! ## Merges that fail -/

/-- A join that either joins classes or changes nothing, and that fails without or with damage. -/
def Damaging (join : NodeId → NodeId → UnifyM Unit) : Prop :=
  ∀ k x y, k.WellFormed → x < k.size → y < k.size →
    Ensures (join x y) k (fun _ h => Joined k h ∨ SameClasses k h)
      (fun _ h => Damages k h ∨ SameClasses k h)

/-- A record that is cleared is lost, and nothing else is. -/
theorem shrinks_clear (g : TypeGraph) (s : Slot) (a : NodeId) :
    Shrinks g (g.update a (s.write none)) := by
  have hle : ∀ s' r, (g.update a (s.write none)).record s' r = g.record s' r ∨
      (g.update a (s.write none)).record s' r = none := by
    intro s' r
    unfold record
    rw [node_update]
    split
    · cases s <;> cases s' <;> simp [Slot.read, Slot.write]
    · exact .inl rfl
  exact ⟨fun i => root_update g a i _ (Slot.link_write s _), hle .container, .inr (hle .element)⟩

/-- Roots, types and the other records are as before. -/
structure KeepsBut (s : Slot) (g h : TypeGraph) : Prop where
  root_eq : ∀ i, h.root i = g.root i
  type_eq : ∀ i, (h.node i).type = (g.node i).type
  record_eq : ∀ i, h.record s.flip i = g.record s.flip i

theorem keepsBut_write (g : TypeGraph) (s : Slot) (a : NodeId) (x : Option NodeId) :
    KeepsBut s g (g.update a (s.write x)) where
  root_eq i := root_update g a i _ (Slot.link_write s x)
  type_eq i := field_update Node.type g a i _ (Slot.type_write s x)
  record_eq i := field_update s.flip.read g a i _ fun n => by cases s <;> rfl

theorem ensures_mergeRecords (s : Slot) (join : NodeId → NodeId → UnifyM Unit)
    (hjoin : Damaging join) (hg : g.WellFormed) (a b : NodeId) (ha : a < g.size)
    (hra : g.root a = a) :
    Ensures (mergeRecords s join a b) g (fun _ h => Joined g h ∨ KeepsBut s g h)
      (fun _ h => Joined g h ∨ (Shrinks g h ∧ (Loses .container g h ∨ Loses s g h))) := by
  unfold mergeRecords
  refine .bind_get ?_
  split
  · next x y hx hy =>
    refine .bind_set _ ?_
    have hclear := shrinks_clear g s a
    have hkeeps := keepsBut_write g s a none
    have hw := (Change.write g s a none (fun _ hj => by cases hj)).wellFormed hg
    have hlost : Loses s g (g.update a (s.write none)) := by
      refine ⟨a, hra, by rw [hx]; simp, ?_⟩
      unfold record
      rw [node_update_self g a _ ha, Slot.read_write]
    generalize hk : g.update a (s.write none) = k at hclear hkeeps hw hlost
    have hsize : k.size = g.size := by rw [← hk, size_update]
    refine (hjoin k x y hw (hsize ▸ hg.record_lt hx) (hsize ▸ hg.record_lt hy)).imp ?_ ?_
    · rintro _ h (hj | hs)
      · exact .inl (hj.after hclear.root_eq)
      · refine .inr ⟨?_, ?_, ?_⟩
        · exact fun i => (hs.root_eq i).trans (hkeeps.root_eq i)
        · exact fun i => (hs.type_eq i).trans (hkeeps.type_eq i)
        · exact fun i => (hs.record_eq s.flip i).trans (hkeeps.record_eq i)
    · intro _ h hd
      -- joined classes stay joined; else the record that was cleared is not filled again, or a
      -- record of a list is lost
      have hshrunk : Joined g h ∨ Shrinks k h := by
        rcases hd with (hj | ⟨hs, _⟩) | hs
        · exact .inl (hj.after hclear.root_eq)
        · exact .inr hs
        · exact .inr hs.shrinks
      refine hshrunk.imp_right fun hs => ⟨hclear.trans hs, ?_⟩
      cases s with
      | container => exact .inl (hlost.before hs)
      | element =>
        rcases hs.element_le with hl | hle
        · exact .inl (hl.after hclear)
        · obtain ⟨r, hr, hne, hnone⟩ := hlost
          exact .inr ⟨r, hr, hne, (hle r).elim (fun h1 => h1.trans hnone) id⟩
  · next x hx hy => exact .inr (keepsBut_write g s b (some x))
  · exact .inr ⟨fun _ => rfl, fun _ => rfl, fun _ => rfl⟩

/-- A join in which a merge has brought the elements together, but has not changed any list. -/
theorem Damages.ofContainers (hk : KeepsBut .element g h) (hs : Shrinks h k)
    (hl : Loses .container h k) : Damages g k := by
  have hrecord : ∀ i, h.record .container i = g.record .container i := hk.record_eq
  have hlost : Loses .container g k := by
    obtain ⟨r, hr, hh, hlk⟩ := hl
    refine ⟨r, by rw [← hk.root_eq, hr], ?_, hlk⟩
    rwa [← hrecord]
  refine .inr ⟨⟨?_, ?_, .inl hlost⟩, .inl hlost⟩
  · exact fun i => (hs.root_eq i).trans (hk.root_eq i)
  · intro r
    rw [← hrecord]
    exact hs.container_le r

theorem Damages.after (hs : SameClasses g h) (hd : Damages h k) : Damages g k := by
  rcases hd with hj | ⟨hsh, hl | ⟨r, hr, hh, hk⟩⟩
  · exact .inl (hj.after hs.root_eq)
  · exact .inr ⟨hs.shrinks.trans hsh, .inl (hl.after hs.shrinks)⟩
  · refine .inr ⟨hs.shrinks.trans hsh, .inr ⟨r, by rw [← hs.root_eq, hr], ?_, hk⟩⟩
    rwa [← hs.record_eq]

/-- The last part of a merge does not fail while the types of the two classes fit. -/
theorem ensures_linkFound (hg : g.WellFormed) (a b : NodeId) (t : Option TypeName)
    (ht : TypeName.unify (g.typeAt a) (g.typeAt b) = .ok t) :
    Ensures (linkFound a b) g (fun _ _ => True) (fun _ _ => False) := by
  unfold linkFound
  refine .bind_lift ?_
  refine .bind_lift ?_
  have hg1 := compress_wellFormed hg a
  have hs1 := compress_sameClasses hg a
  have hs2 := hs1.trans (compress_sameClasses hg1 b)
  have ha : (find a g).1 = g.root a := rfl
  have hb : (find b (find a g).2).1 = g.root b := hs1.root_eq b
  rw [ha, hb]
  split
  · trivial
  · unfold Ensures
    rw [linkRoots_eq]
    have htype : TypeName.unify (((find b (find a g).2).2).node (g.root a)).type
        (((find b (find a g).2).2).node (g.root b)).type = .ok t := by
      rw [← ht]
      exact congrArg₂ TypeName.unify (hs2.type_eq _) (hs2.type_eq _)
    rw [htype]
    trivial

/-- A merge of two different roots whose types fit joins them, or fails with damage. -/
theorem ensures_mergeRoots (join : NodeId → NodeId → UnifyM Unit) (hmoves : Joins join)
    (hjoin : Damaging join) (hg : g.WellFormed) (a b : NodeId) (ha : a < g.size) (hb : b < g.size)
    (hra : g.root a = a) (hrb : g.root b = b) (hab : a ≠ b) (t : Option TypeName)
    (ht : TypeName.unify (g.node a).type (g.node b).type = .ok t) :
    Ensures (do mergeElements join a b; mergeContainers join a b; linkFound a b) g
      (fun _ h => Joined g h) (fun _ h => Damages g h) := by
  have hapart : ∀ h : TypeGraph, h.root a = h.root b → Joined g h := by
    intro h hh
    exact ⟨a, b, by rwa [hra, hrb], hh⟩
  refine .bind ((Ensures.and (moves_mergeRecords .element join hmoves hg a b)
    (ensures_mergeRecords .element join hjoin hg a b ha hra)).imp (fun _ _ h => h) ?_) ?_
  · exact fun _ _ h => h.2
  rintro _ g1 ⟨⟨hc1, _⟩, hcase1⟩
  have hg1 := hc1.wellFormed hg
  have ha1 := lt_of_lt_of_le ha (hc1.size_le hg)
  have hb1 := lt_of_lt_of_le hb (hc1.size_le hg)
  rcases hcase1 with hj1 | hk1
  · -- joined classes stay joined, whatever follows
    have hrest : Moves Changes (do mergeContainers join a b; linkFound a b) g1
        (fun _ _ => True) := by
      refine .bind (moves_mergeRecords .container join hmoves hg1 a b) ?_
      intro _ g2 hc2 _
      refine (moves_linkFound (hc2.wellFormed hg1) a b ?_ ?_).imp (fun _ _ _ _ => trivial)
      · exact lt_of_lt_of_le ha1 (hc2.size_le hg1)
      · exact lt_of_lt_of_le hb1 (hc2.size_le hg1)
    refine Ensures.imp hrest ?_ ?_
    · exact fun _ h hc => hj1.before (hc.1.extends hg1)
    · exact fun _ h hc => .inl (hj1.before (hc.extends hg1))
  · refine .bind ((Ensures.and (moves_mergeRecords .container join hmoves hg1 a b)
      (ensures_mergeRecords .container join hjoin hg1 a b ha1 (by rw [hk1.root_eq, hra]))).imp
        (fun _ _ h => h) ?_) ?_
    · rintro _ h ⟨_, hj | ⟨hs, hl⟩⟩
      · exact .inl (hj.after hk1.root_eq)
      · exact Damages.ofContainers hk1 hs (or_self_iff.mp hl)
    rintro _ g2 ⟨⟨hc2, _⟩, hcase2⟩
    have hg2 := hc2.wellFormed hg1
    have hlink := moves_linkFound hg2 a b (lt_of_lt_of_le ha1 (hc2.size_le hg1))
      (lt_of_lt_of_le hb1 (hc2.size_le hg1))
    rcases hcase2 with hj2 | hk2
    · refine Ensures.imp hlink ?_ ?_
      · exact fun _ h hc => hapart h hc.2
      · exact fun _ h hc => .inl ((hj2.after hk1.root_eq).before (hc.extends hg2))
    · have htype : TypeName.unify (g2.typeAt a) (g2.typeAt b) = .ok t := by
        unfold typeAt
        rw [hk2.root_eq, hk2.root_eq, hk1.root_eq, hk1.root_eq, hra, hrb, hk2.type_eq,
          hk2.type_eq, hk1.type_eq, hk1.type_eq, ht]
      refine (Ensures.and hlink (ensures_linkFound hg2 a b t htype)).imp ?_ ?_
      · exact fun _ h hc => hapart h hc.1.2
      · exact fun _ h hc => absurd hc.2 id

theorem ensures_merge_succ (fuel : Nat) (hjoin : Damaging (merge fuel)) (hg : g.WellFormed)
    (p q : NodeId) (hp : p < g.size) (hq : q < g.size) :
    Ensures (merge (fuel + 1) p q) g (fun _ h => Joined g h ∨ SameClasses g h)
      (fun _ h => Damages g h ∨ (SameClasses g h ∧
        ∃ e, TypeName.unify (g.typeAt p) (g.typeAt q) = .error e)) := by
  rw [merge_succ]
  refine .bind_lift ?_
  refine .bind_lift ?_
  have hg1 := compress_wellFormed hg p
  have hg2 := compress_wellFormed hg1 q
  have hs1 := compress_sameClasses hg p
  have hs2 := hs1.trans (compress_sameClasses hg1 q)
  have ha : (find p g).1 = g.root p := rfl
  have hb : (find q (find p g).2).1 = g.root q := hs1.root_eq q
  rw [ha, hb]
  have hw : Walked g (find q (find p g).2).2 := ⟨hg2, hs2⟩
  generalize (find q (find p g).2).2 = g2 at hw
  obtain ⟨hg2, hs⟩ := hw
  split
  · exact .inr hs
  · next hab =>
    refine .bind ((ensures_unifyRoots _ _).imp (fun _ _ h => h) ?_) ?_
    · rintro e _ ⟨rfl, he⟩
      rw [hs.type_eq, hs.type_eq] at he
      exact .inr ⟨hs, e, he⟩
    · rintro t g3 ⟨rfl, ht⟩
      have hra : g3.root (g.root p) = g.root p := by rw [hs.root_eq, root_root hg]
      have hrb : g3.root (g.root q) = g.root q := by rw [hs.root_eq, root_root hg]
      have hap : g.root p < g3.size := by
        rw [hs.size_eq]
        exact root_lt hg p hp
      have hbq : g.root q < g3.size := by
        rw [hs.size_eq]
        exact root_lt hg q hq
      refine (ensures_mergeRoots _ (joins_merge fuel) hjoin hg2 _ _ hap hbq hra hrb hab t ht).imp
        ?_ ?_
      · exact fun _ h hj => .inl (hj.after hs.root_eq)
      · exact fun _ h hd => .inl (hd.after hs)

theorem damaging_merge (fuel : Nat) : Damaging (merge fuel) := by
  induction fuel with
  | zero => exact fun k _ _ _ _ _ => .inr (SameClasses.refl k)
  | succ fuel ih =>
    intro k x y hk hx hy
    refine (ensures_merge_succ fuel ih hk x y hx hy).imp (fun _ _ h => h) ?_
    rintro _ h (hd | ⟨hs, _⟩)
    · exact .inl hd
    · exact .inr hs

/-! ## Unions that fail -/

/-- A failed union leaves all classes as they were exactly when some pair of classes that it forces
together clashes; otherwise it fails half way. -/
theorem failed_union_unchanged_iff (g : TypeGraph) (hg : Reachable g) (p q : NodeId)
    (hp : p < g.size) (hq : q < g.size) (e : Mismatch) (h : TypeGraph)
    (hfail : union p q g = .error e h) : Unchanged g h ↔ Clashes g p q := by
  have hw := hg.wellFormed
  have hspec : Ensures (union p q) g (fun _ _ => True)
      (fun _ h => (Unchanged g h ∧ Clashes g p q) ∨ (Damages g h ∧ ¬ Clashes g p q)) := by
    unfold union
    refine Ensures.bind_get ?_
    refine Ensures.bind ((Ensures.and (moves_checkUnion _ [] p q g hw)
      (ensures_checkUnion hw p q hp hq)).imp (fun _ _ h => h) ?_) ?_
    · rintro _ h ⟨hc, hs, hclash⟩
      exact Or.inl ⟨hs.unchanged hw (hc.wellFormed hw), hclash⟩
    · rintro seen h ⟨_, ⟨hh, hs⟩, hfits⟩
      obtain ⟨fuel, hfuel⟩ := merge_fuel_succ g.size
      rw [hfuel]
      refine (ensures_merge_succ fuel (damaging_merge fuel) hh p q ?_ ?_).imp
        (fun _ _ _ => trivial) ?_
      · rwa [hs.size_eq]
      · rwa [hs.size_eq]
      · rintro _ k (hd | ⟨_, e', he'⟩)
        · exact Or.inr ⟨hd.after hs, hfits⟩
        · rw [hs.typeAt_eq, hs.typeAt_eq] at he'
          exact absurd ⟨_, _, e', Forced.start, he'⟩ hfits
  have hend := hspec.of_error hfail
  constructor
  · intro hu
    rcases hend with ⟨_, hclash⟩ | ⟨hd, _⟩
    · exact hclash
    · exact absurd hu hd.not_unchanged
  · intro hclash
    rcases hend with ⟨hu, _⟩ | ⟨_, hfits⟩
    · exact hu
    · exact absurd hclash hfits

/-- 4 is a list of numbers and 5 a list of texts. -/
def twoKinds : TypeGraph :=
  ⟨#[{ type := some .number }, { type := some .text },
     { type := some .boolean }, { type := some .void },
     { element := some 0 }, { element := some 1 }]⟩

theorem twoKinds_reachable : Reachable twoKinds :=
  .of_run [.addNode none false, .addNode none false, .linkElement 4 0, .linkElement 5 1] .initial
    rfl

/-- The two lists could be one. Their elements clash, so their union changes nothing. -/
theorem failed_union_unchanged_elements :
    union 4 5 twoKinds = .error ⟨TypeName.number, TypeName.text⟩ twoKinds ∧
      TypeName.unify (twoKinds.typeAt 4) (twoKinds.typeAt 5) = .ok none ∧
      Unchanged twoKinds twoKinds := by
  have hclash : Clashes twoKinds 4 5 :=
    ⟨0, 1, ⟨.number, .text⟩,
      .element (a := 4) (b := 5) (x := 0) (y := 1) .start (by decide) rfl rfl, rfl⟩
  exact ⟨rfl, rfl, (failed_union_unchanged_iff twoKinds twoKinds_reachable 4 5 (by decide)
    (by decide) ⟨.number, .text⟩ twoKinds rfl).mpr hclash⟩

/-- Three new classes: each of 4 and 5 is list and element of the other, and 6 has numbers as
elements and text as list. -/
def tangled : TypeGraph :=
  ⟨#[{ type := some .number }, { type := some .text },
     { type := some .boolean }, { type := some .void },
     { container := some 5, element := some 5 }, { container := some 4, element := some 4 },
     { container := some 1, element := some 0 }]⟩

theorem tangled_reachable : Reachable tangled :=
  .of_run [.addNode none false, .addNode none false, .addNode none false, .linkElement 4 5,
    .linkElement 5 4, .linkElement 6 0, .linkElement 1 6] .initial rfl

/-- Joining 4 and 6 forces 5 together with numbers and with text. Either fits, so the check passes;
the merge joins 5 with numbers and then fails. -/
theorem failed_union_changes_tangled :
    Reachable tangled ∧ ∃ e h, union 4 6 tangled = .error e h ∧
      tangled.root 5 = 5 ∧ h.root 5 = 0 ∧ ¬ Unchanged tangled h := by
  refine ⟨tangled_reachable, ⟨.number, .text⟩, _, rfl, rfl, rfl, ?_⟩
  intro hu
  exact absurd (hu.root_eq 5) (by decide)

end BlockProgram.TypeGraph
