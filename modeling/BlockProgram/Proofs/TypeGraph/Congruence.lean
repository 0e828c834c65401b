import BlockProgram.Proofs.TypeGraph.Merging

/-!
# A union joins nothing that is not forced

Joining two classes makes their elements one, and their lists, so a union may join many classes.
What it has a reason to join is the least equivalence of nodes that holds the old classes and the
two nodes, and with two nodes what their old roots record on either side (`Congruent`).

A merge works on records that it has moved and cleared before, some of them at nodes that are no
longer roots. `Justified` says what all of these have in common: what a node records is congruent to
what some old root congruent to it recorded. So the two classes of every nested merge are congruent,
and so are all nodes that end up in one class.
-/

namespace BlockProgram.TypeGraph

/-- The least equivalence that holds the classes of `g` and the pair of `p` and `q`, and with two
nodes what the roots of their classes record. -/
inductive Congruent (g : TypeGraph) (p q : NodeId) : NodeId → NodeId → Prop where
  | old {x y : NodeId} (h : g.root x = g.root y) : Congruent g p q x y
  | pair : Congruent g p q p q
  | symm {x y : NodeId} (h : Congruent g p q x y) : Congruent g p q y x
  | trans {x y z : NodeId} (h1 : Congruent g p q x y) (h2 : Congruent g p q y z) :
      Congruent g p q x z
  | record {x y u v : NodeId} (s : Slot) (h : Congruent g p q x y)
      (hu : g.record s (g.root x) = some u) (hv : g.record s (g.root y) = some v) :
      Congruent g p q u v

/-- A graph on the way from `g` to the union of `p` and `q`, with nothing joined that is not
congruent. -/
structure Justified (g : TypeGraph) (p q : NodeId) (t : TypeGraph) : Prop where
  wellFormed : t.WellFormed
  size_eq : t.size = g.size
  isRoot : ∀ i, g.IsRoot (t.root i)
  congruent : ∀ i, Congruent g p q i (t.root i)
  /-- What an old root records, whether it still is one or not, comes from a congruent one. -/
  origin : ∀ s r x, g.IsRoot r → t.record s r = some x →
    ∃ c y, g.IsRoot c ∧ Congruent g p q r c ∧ g.record s c = some y ∧ Congruent g p q x y

variable {g t u : TypeGraph} {p q a b i j x y : NodeId} {s : Slot}

namespace Justified

theorem start (hg : g.WellFormed) (p q : NodeId) : Justified g p q g where
  wellFormed := hg
  size_eq := rfl
  isRoot := isRoot_root hg
  congruent i := .old (root_root hg i).symm
  origin _ r x hr hx := ⟨r, x, hr, .old rfl, hx, .old rfl⟩

variable (ht : Justified g p q t)
include ht

theorem of_sameClasses (hu : u.WellFormed) (hs : SameClasses t u) :
    Justified g p q u where
  wellFormed := hu
  size_eq := hs.size_eq.trans ht.size_eq
  isRoot i := by
    rw [hs.root_eq]
    exact ht.isRoot i
  congruent i := by
    rw [hs.root_eq]
    exact ht.congruent i
  origin s r x hr hx := by
    rw [hs.record_eq] at hx
    exact ht.origin s r x hr hx

theorem of_root_eq (h : t.root i = t.root j) : Congruent g p q i j := by
  have hi := ht.congruent i
  rw [h] at hi
  exact hi.trans (ht.congruent j).symm

/-- What congruent old roots record on one side is congruent. -/
theorem records (ha : g.IsRoot a) (hb : g.IsRoot b)
    (hab : Congruent g p q a b) (hx : t.record s a = some x) (hy : t.record s b = some y) :
    Congruent g p q x y := by
  obtain ⟨c, x', hc, hac, hx', hxx'⟩ := ht.origin s a x ha hx
  obtain ⟨d, y', hd, hbd, hy', hyy'⟩ := ht.origin s b y hb hy
  have hcd : Congruent g p q c d := (hac.symm.trans hab).trans hbd
  rw [← root_of_isRoot g c hc] at hx'
  rw [← root_of_isRoot g d hd] at hy'
  exact (hxx'.trans (hcd.record s hx' hy')).trans hyy'.symm

/-- A record is cleared, or taken over from a congruent old root. -/
theorem write (hb : b < g.size) (z : Option NodeId)
    (hz : ∀ x, z = some x → ∃ a, g.IsRoot a ∧ Congruent g p q b a ∧ t.record s a = some x) :
    Justified g p q (t.update b (s.write z)) := by
  have hbt : b < t.size := by rwa [ht.size_eq]
  refine ⟨?_, ?_, ?_, ?_, ?_⟩
  · apply write_wellFormed ht.wellFormed
    intro x hx
    obtain ⟨a, _, _, ha⟩ := hz x hx
    exact ht.wellFormed.record_lt ha
  · rw [size_update, ht.size_eq]
  · intro i
    rw [root_write]
    exact ht.isRoot i
  · intro i
    rw [root_write]
    exact ht.congruent i
  · intro s' r x hr hx
    rw [record_update hbt] at hx
    by_cases hsr : s' = s ∧ r = b
    · obtain ⟨rfl, rfl⟩ := hsr
      rw [if_pos ⟨rfl, rfl⟩] at hx
      obtain ⟨a, ha, hba, hax⟩ := hz x hx
      obtain ⟨c, y, hc, hac, hy, hxy⟩ := ht.origin s' a x ha hax
      exact ⟨c, y, hc, hba.trans hac, hy, hxy⟩
    · rw [if_neg hsr] at hx
      exact ht.origin s' r x hr hx

theorem join (hra : t.IsRoot a) (hrb : t.IsRoot b) (hne : a ≠ b)
    (ha : a < t.size) (hb : b < t.size) (hab : Congruent g p q a b) (ty : Option TypeName) :
    Justified g p q (t.joinRoots a b ty) := by
  have hroot := root_joinRoots ht.wellFormed a b ty hra hrb hne ha hb
  refine ⟨joinRoots_wellFormed ht.wellFormed a b ty hra hrb hne ha hb, ?_, ?_, ?_, ?_⟩
  · rw [size_joinRoots, ht.size_eq]
  · intro i
    rw [hroot]
    split
    · rw [← root_of_isRoot t b hrb]
      exact ht.isRoot b
    · exact ht.isRoot i
  · intro i
    rw [hroot]
    split
    · next hi =>
      have hia := ht.congruent i
      rw [hi] at hia
      exact hia.trans hab
    · exact ht.congruent i
  · intro s r x hr hx
    rw [record_joinRoots] at hx
    exact ht.origin s r x hr hx

end Justified

/-! ## Steps of a merge -/

/-- A join of congruent nodes that joins nothing that is not congruent. -/
def JoinsCongruent (g : TypeGraph) (p q : NodeId) (join : NodeId → NodeId → UnifyM Unit) : Prop :=
  ∀ x y, x < g.size → y < g.size → Congruent g p q x y →
    Gives (Justified g p q) (join x y) fun _ => True

theorem justified_find (i : NodeId) (hi : i < g.size) :
    Gives (Justified g p q) (find i : UnifyM NodeId) fun r =>
      r < g.size ∧ g.IsRoot r ∧ Congruent g p q i r := by
  intro t ht
  have hw := ht.wellFormed
  refine ⟨ht.of_sameClasses (compress_wellFormed hw i) (compress_sameClasses hw i), ?_,
    ht.isRoot i, ht.congruent i⟩
  rw [← ht.size_eq] at hi ⊢
  exact root_lt hw i hi

theorem justified_unifyRoots (a b : NodeId) :
    Gives (Justified g p q) (unifyRoots a b) fun _ => True := by
  intro t ht
  refine (ensures_unifyRoots a b).imp ?_ ?_
  · rintro ty _ ⟨rfl, _⟩
    exact ⟨ht, trivial⟩
  · rintro e _ ⟨rfl, _⟩
    exact ht

theorem justified_mergeRecords {join : NodeId → NodeId → UnifyM Unit}
    (hjoin : JoinsCongruent g p q join) (ha : a < g.size) (hb : b < g.size) (hra : g.IsRoot a)
    (hrb : g.IsRoot b) (hab : Congruent g p q a b) (s : Slot) :
    Gives (Justified g p q) (mergeRecords s join a b) fun _ => True := by
  unfold mergeRecords
  refine .bind_get fun t ht => ?_
  split
  · next x y hx hy =>
    have hxt := ht.wellFormed.record_lt hx
    have hyt := ht.wellFormed.record_lt hy
    rw [ht.size_eq] at hxt hyt
    refine .bind (Gives.of_set (ht.write ha none fun _ h => by cases h)) fun _ _ => ?_
    exact hjoin x y hxt hyt (ht.records hra hrb hab hx hy)
  · next x hx _ =>
    apply Gives.of_set
    apply ht.write hb
    intro z hz
    cases hz
    exact ⟨a, hra, hab.symm, hx⟩
  · exact .pure trivial

theorem justified_linkFound (ha : a < g.size) (hb : b < g.size) (hab : Congruent g p q a b) :
    Gives (Justified g p q) (linkFound a b) fun _ => True := by
  intro t ht
  unfold linkFound
  refine Ensures.bind ((succeeds_find ht.wellFormed a).imp (fun _ _ h => h) fun _ _ h => h.elim) ?_
  rintro _ t1 ⟨rfl, hw1, hs1⟩
  refine Ensures.bind ((succeeds_find hw1 b).imp (fun _ _ h => h) fun _ _ h => h.elim) ?_
  rintro _ t2 ⟨rfl, hw2, hs2⟩
  have hs := hs1.trans hs2
  have ht2 := ht.of_sameClasses hw2 hs
  rw [hs1.root_eq, ← hs.root_eq a, ← hs.root_eq b]
  split
  · exact ⟨ht2, trivial⟩
  · next hne =>
    have hroots : Congruent g p q (t2.root a) (t2.root b) :=
      ((ht2.congruent a).symm.trans hab).trans (ht2.congruent b)
    rw [← ht2.size_eq] at ha hb
    unfold Ensures
    rw [linkRoots_eq]
    cases TypeName.unify (t2.node (t2.root a)).type (t2.node (t2.root b)).type with
    | error e => exact ht2
    | ok ty =>
      refine ⟨?_, trivial⟩
      exact ht2.join (isRoot_root hw2 a) (isRoot_root hw2 b) hne (root_lt hw2 a ha)
        (root_lt hw2 b hb) hroots ty

theorem joinsCongruent_merge (g : TypeGraph) (p q : NodeId) (fuel : Nat) :
    JoinsCongruent g p q (merge fuel) := by
  induction fuel with
  | zero => exact fun _ _ _ _ _ => .pure trivial
  | succ fuel ih =>
    intro x y hx hy hxy
    rw [merge_succ]
    refine .bind (justified_find x hx) fun a ha => ?_
    refine .bind (justified_find y hy) fun b hb => ?_
    obtain ⟨ha, hra, hxa⟩ := ha
    obtain ⟨hb, hrb, hyb⟩ := hb
    have hab : Congruent g p q a b := (hxa.symm.trans hxy).trans hyb
    split
    · exact .pure trivial
    · refine .bind (justified_unifyRoots a b) fun _ _ => ?_
      rw [mergeElements_eq, mergeContainers_eq]
      refine .bind (justified_mergeRecords ih ha hb hra hrb hab .element) fun _ _ => ?_
      refine .bind (justified_mergeRecords ih ha hb hra hrb hab .container) fun _ _ => ?_
      exact justified_linkFound ha hb hab

/-! ## Unions -/

theorem justified_union (hg : g.WellFormed) (hp : p < g.size) (hq : q < g.size) :
    Moves (fun _ h => Justified g p q h) (union p q) g fun _ _ => True := by
  unfold union
  refine Ensures.bind_get ?_
  refine Ensures.bind (Q := fun _ h => Justified g p q h) ?_ fun _ h hh => ?_
  · refine Ensures.imp (moves_checkUnion _ [] p q g hg) ?_ ?_
    · rintro _ h ⟨hc, _⟩
      exact (Justified.start hg p q).of_sameClasses (hc.wellFormed hg) (hc.sameClasses hg)
    · intro _ h hc
      exact (Justified.start hg p q).of_sameClasses (hc.wellFormed hg) (hc.sameClasses hg)
  · exact joinsCongruent_merge g p q _ p q hp hq .pair h hh

/-- A union that succeeds joins its two nodes, splits no class, and joins no two nodes that are not
congruent. -/
theorem union_joins_congruent (g : TypeGraph) (hg : Reachable g) (p q : NodeId) (hp : p < g.size)
    (hq : q < g.size) (h : TypeGraph) (hok : union p q g = .ok () h) :
    (find p h).1 = (find q h).1 ∧
      (∀ i j, g.root i = g.root j → h.root i = h.root j) ∧
      ∀ i j, h.root i = h.root j → Congruent g p q i j := by
  have hw := hg.wellFormed
  obtain ⟨hchanges, hpq⟩ := Ensures.of_ok (moves_union hw p q hp hq) hok
  obtain ⟨hjust, _⟩ := Ensures.of_ok (justified_union hw hp hq) hok
  exact ⟨hpq, (hchanges.extends hw).root_eq, fun i j hij => hjust.of_root_eq hij⟩

/-- Four new classes: 6 are the elements of 4, and 7 those of 5. -/
def twoLists : TypeGraph :=
  ⟨#[{ type := some .number }, { type := some .text },
     { type := some .boolean }, { type := some .void },
     { element := some 6 }, { element := some 7 },
     { container := some 4 }, { container := some 5 }]⟩

theorem twoLists_reachable : Reachable twoLists :=
  .of_run [.addNode none false, .addNode none false, .addNode none false, .addNode none false,
    .linkElement 4 6, .linkElement 5 7] .initial rfl

/-- Joining the two lists joins their elements, and all of that is forced. -/
theorem union_joins_congruent_lists :
    Reachable twoLists ∧ ∃ h, union 4 5 twoLists = .ok () h ∧ twoLists.root 6 ≠ twoLists.root 7 ∧
      h.root 6 = h.root 7 ∧ h.root 4 ≠ h.root 6 ∧ (find 4 h).1 = (find 5 h).1 ∧
      (∀ i j, twoLists.root i = twoLists.root j → h.root i = h.root j) ∧
      ∀ i j, h.root i = h.root j → Congruent twoLists 4 5 i j :=
  ⟨twoLists_reachable, _, rfl, by decide, by decide, by decide,
    union_joins_congruent twoLists twoLists_reachable 4 5 (by decide) (by decide) _ rfl⟩

end BlockProgram.TypeGraph
