import BlockProgram.Proofs.TypeGraph.Resolution

/-!
# The order of unions does not matter

As long as no list is linked to its elements, a union joins two classes and nothing else, and the
new class carries the common type of the two. Types are ordered by what they leave open (`Below`),
and the common type of two is the larger one.

So what a list of unions does is said without their order (`Sums`): the classes are those of the
equivalence that the pairs generate (`Tied`), a class carries the largest type of its nodes, and it
is a list if one of its nodes was. All unions succeed exactly when every two nodes that are tied
have a common type (`unionPairs_succeeds_iff`).
-/

namespace BlockProgram.TypeGraph

variable {s t : Option TypeName}

/-! ## The order of types -/

/-- `t` says at least as much as `s`: their common type is `t`. -/
def Below (s t : Option TypeName) : Prop :=
  TypeName.unify s t = .ok t

theorem below_none : Below s none ↔ s = none := by
  cases s <;> simp [Below, TypeName.unify]

theorem below_some {b : TypeName} : Below s (some b) ↔ Fits s b := by
  unfold Below Fits
  cases s with
  | none => simp [TypeName.unify]
  | some a =>
    simp only [TypeName.unify, Option.some.injEq, forall_eq']
    constructor
    · intro h
      split at h
      · next hc => exact .inr hc
      · split at h
        · exact .inl (by simpa using h)
        · split at h
          · next hab => exact .inl hab
          · cases h
    · rintro (rfl | hc)
      · split
        · rfl
        · simp
      · rw [if_pos hc]

theorem Below.refl (t : Option TypeName) : Below t t :=
  unify_self t

theorem Below.trans {u : Option TypeName} (h1 : Below s t) (h2 : Below t u) : Below s u := by
  cases u with
  | none =>
    rw [below_none] at h2
    rwa [h2] at h1
  | some c =>
    cases t with
    | none =>
      rw [below_none] at h1
      rwa [h1]
    | some b =>
      rw [below_some] at h1 h2 ⊢
      intro a ha
      rcases h1 a ha with rfl | ⟨rfl, hb⟩
      · exact h2 a rfl
      · rcases h2 b rfl with rfl | ⟨_, hc⟩
        · exact .inr ⟨rfl, hb⟩
        · exact .inr ⟨rfl, hc⟩

/-- The common type of two is one of them, and says at least as much as both. -/
theorem below_of_unify {u : Option TypeName} (h : TypeName.unify s t = .ok u) :
    Below s u ∧ Below t u ∧ (u = s ∨ u = t) := by
  cases s with
  | none =>
    simp only [TypeName.unify, Except.ok.injEq] at h
    subst h
    exact ⟨rfl, Below.refl t, .inr rfl⟩
  | some a =>
    cases t with
    | none =>
      simp only [TypeName.unify, Except.ok.injEq] at h
      subst h
      exact ⟨Below.refl _, rfl, .inl rfl⟩
    | some b =>
      simp only [TypeName.unify] at h
      split at h
      · next hc =>
        cases h
        exact ⟨below_some.mpr fun _ ha => .inr (by cases ha; exact hc), Below.refl _, .inr rfl⟩
      · split at h
        · next hc =>
          cases h
          exact ⟨Below.refl _, below_some.mpr fun _ hb => .inr (by cases hb; exact hc), .inl rfl⟩
        · split at h
          · next hab =>
            cases h
            rw [← hab]
            exact ⟨Below.refl _, Below.refl _, .inl rfl⟩
          · cases h

theorem Below.antisymm (h1 : Below s t) (h2 : Below t s) : s = t := by
  cases t with
  | none => exact below_none.mp h1
  | some b =>
    cases s with
    | none => exact (below_none.mp h2).symm
    | some a =>
      rcases below_some.mp h1 a rfl with rfl | ⟨rfl, _⟩
      · rfl
      · rcases below_some.mp h2 b rfl with rfl | ⟨rfl, _⟩ <;> rfl

/-- Types below one type have a common type. -/
theorem Below.unify {s t u : Option TypeName} (h1 : Below s u) (h2 : Below t u) :
    ∃ v, TypeName.unify s t = .ok v := by
  cases u with
  | none =>
    rw [below_none] at h1
    rw [h1]
    exact ⟨t, rfl⟩
  | some c =>
    obtain ⟨v, hv, _⟩ := (below_some.mp h1).unify (below_some.mp h2)
    exact ⟨v, hv⟩

/-! ## Unions without records -/

variable {g h k : TypeGraph} {p q i j a b : NodeId} {s : Slot}

def Recordless (g : TypeGraph) : Prop :=
  ∀ s i, g.record s i = none

theorem Recordless.of_records (hg : g.Recordless) (h : ∀ s i, k.record s i = g.record s i) :
    k.Recordless :=
  fun s i => (h s i).trans (hg s i)

/-- Nothing is forced together but the two classes themselves. -/
theorem Recordless.forced_iff (hg : g.Recordless) :
    Forced g p q a b ↔ a = g.root p ∧ b = g.root q := by
  constructor
  · intro hf
    cases hf with
    | start => exact ⟨rfl, rfl⟩
    | element _ _ hx _ => cases (hg .element _).symm.trans hx
    | container _ _ hx _ => cases (hg .container _).symm.trans hx
  · rintro ⟨rfl, rfl⟩
    exact .start

theorem Recordless.clashes_iff (hg : g.Recordless) :
    Clashes g p q ↔ ∃ e, TypeName.unify (g.typeAt p) (g.typeAt q) = .error e := by
  constructor
  · rintro ⟨a, b, e, hf, he⟩
    obtain ⟨rfl, rfl⟩ := hg.forced_iff.mp hf
    exact ⟨e, he⟩
  · rintro ⟨e, he⟩
    exact ⟨_, _, e, .start, he⟩

theorem mergeRecords_of_none (join : NodeId → NodeId → UnifyM Unit) (ha : g.record s a = none) :
    mergeRecords s join a b g = .ok () g := by
  unfold mergeRecords
  rw [run_bind_get, ha]
  rfl

theorem succeeds_linkFound_roots (hg : g.WellFormed) (ha : g.root a = a) (hb : g.root b = b)
    (hne : a ≠ b) (ht : TypeName.unify (g.node a).type (g.node b).type = .ok t) :
    Succeeds (linkFound a b) g fun _ h => ∃ k, k.WellFormed ∧ SameClasses g k ∧
      h = k.joinRoots a b t := by
  unfold linkFound
  refine .bind (succeeds_find hg a) ?_
  rintro _ k1 ⟨rfl, hw1, hs1⟩
  refine .bind (succeeds_find hw1 b) ?_
  rintro _ k2 ⟨rfl, hw2, hs2⟩
  have hs := hs1.trans hs2
  rw [hs1.root_eq, ha, hb, if_neg hne]
  unfold Ensures
  rw [linkRoots_eq, hs.type_eq, hs.type_eq, ht]
  exact ⟨k2, hw2, hs, rfl⟩

/-- `h` is `g` with the classes of `p` and `q` joined under the type `t`. -/
structure Merged (g : TypeGraph) (p q : NodeId) (t : Option TypeName) (h : TypeGraph) : Prop where
  wellFormed : h.WellFormed
  size_eq : h.size = g.size
  recordless : h.Recordless
  joined : ∀ i, g.root i = g.root p ∨ g.root i = g.root q →
    h.root i = g.root q ∧ h.typeAt i = t ∧ h.isListAt i = (g.isListAt p || g.isListAt q)
  other : ∀ i, g.root i ≠ g.root p → g.root i ≠ g.root q →
    h.root i = g.root i ∧ h.typeAt i = g.typeAt i ∧ h.isListAt i = g.isListAt i

theorem isListAt_congr (h : g.root i = g.root j) : g.isListAt i = g.isListAt j := by
  unfold isListAt
  rw [h]

theorem Merged.of_same (hg : g.Recordless) (hh : h.WellFormed) (hs : SameClasses g h)
    (hpq : g.root p = g.root q) : Merged g p q (g.typeAt q) h where
  wellFormed := hh
  size_eq := hs.size_eq
  recordless := hg.of_records hs.record_eq
  joined i hi := by
    have hiq : g.root i = g.root q := hi.elim (fun hip => hip.trans hpq) id
    refine ⟨by rw [hs.root_eq, hiq], by rw [hs.typeAt_eq, typeAt_congr hiq], ?_⟩
    rw [hs.isListAt_eq, isListAt_congr hiq, isListAt_congr hpq, Bool.or_self]
  other i _ _ := ⟨hs.root_eq i, hs.typeAt_eq i, hs.isListAt_eq i⟩

theorem Merged.of_joinRoots (hg : g.Recordless) (hk : k.WellFormed) (hs : SameClasses g k)
    (hw : g.WellFormed) (hp : p < g.size) (hq : q < g.size) (hpq : g.root p ≠ g.root q)
    (t : Option TypeName) : Merged g p q t (k.joinRoots (g.root p) (g.root q) t) := by
  have hra := (hs.isRoot_iff hw hk _).mpr (isRoot_root hw p)
  have hrb := (hs.isRoot_iff hw hk _).mpr (isRoot_root hw q)
  have ha : g.root p < k.size := by
    rw [hs.size_eq]
    exact root_lt hw p hp
  have hb : g.root q < k.size := by
    rw [hs.size_eq]
    exact root_lt hw q hq
  have hroot : ∀ i, (k.joinRoots (g.root p) (g.root q) t).root i =
      if g.root i = g.root p then g.root q else g.root i := by
    intro i
    rw [root_joinRoots hk _ _ t hra hrb hpq ha hb, hs.root_eq]
  refine ⟨joinRoots_wellFormed hk _ _ t hra hrb hpq ha hb, ?_, ?_, ?_, ?_⟩
  · rw [size_joinRoots, hs.size_eq]
  · intro s i
    rw [record_joinRoots, hs.record_eq, hg]
  · intro i hi
    have hend : (k.joinRoots (g.root p) (g.root q) t).root i = g.root q := by
      rw [hroot]
      split
      · rfl
      · next hip => exact hi.resolve_left hip
    unfold typeAt isListAt
    rw [hend, type_joinRoots k _ _ t ha hb, isArray_joinRoots k _ _ t hb, if_pos rfl, if_pos rfl,
      hs.isArray_eq, hs.isArray_eq]
    exact ⟨rfl, rfl, rfl⟩
  · intro i hip hiq
    have hend : (k.joinRoots (g.root p) (g.root q) t).root i = g.root i := by
      rw [hroot, if_neg hip]
    unfold typeAt isListAt
    rw [hend, type_joinRoots k _ _ t ha hb, isArray_joinRoots k _ _ t hb, if_neg hiq, if_neg hip,
      if_neg hiq, hs.type_eq, hs.isArray_eq]
    exact ⟨rfl, rfl, rfl⟩

/-- Without records, a merge joins its two classes and nothing else. -/
theorem succeeds_merge_recordless (hw : g.WellFormed) (hg : g.Recordless) (hp : p < g.size)
    (hq : q < g.size) (ht : TypeName.unify (g.typeAt p) (g.typeAt q) = .ok t) (hk : k.WellFormed)
    (hgk : SameClasses g k) (fuel : Nat) :
    Succeeds (merge (fuel + 1) p q) k fun _ h => Merged g p q t h := by
  rw [merge_succ]
  refine .bind (succeeds_find hk p) ?_
  rintro _ k1 ⟨rfl, hw1, hs1⟩
  refine .bind (succeeds_find hw1 q) ?_
  rintro _ k2 ⟨rfl, hw2, hs2⟩
  have hs := (hgk.trans hs1).trans hs2
  rw [(hgk.trans hs1).root_eq, hgk.root_eq]
  split
  · next hpq =>
    have htype : t = g.typeAt q := by
      rw [typeAt_congr hpq, unify_self] at ht
      exact (Except.ok.inj ht).symm
    rw [htype]
    exact Merged.of_same hg hw2 hs hpq
  · next hpq =>
    have ht2 : TypeName.unify (k2.node (g.root p)).type (k2.node (g.root q)).type = .ok t := by
      rw [hs.type_eq, hs.type_eq]
      exact ht
    have hnone : ∀ s, k2.record s (g.root p) = none := fun s => (hs.record_eq s _).trans (hg s _)
    have hroots : ∀ i, k2.root (g.root i) = g.root i := fun i => by
      rw [hs.root_eq, root_root hw]
    have hunify : unifyRoots (g.root p) (g.root q) k2 = .ok t k2 := by
      unfold unifyRoots
      rw [ht2]
    rw [mergeElements_eq, mergeContainers_eq]
    refine Succeeds.bind_of_ok hunify ?_
    refine Succeeds.bind_of_ok (mergeRecords_of_none _ (hnone .element)) ?_
    refine Succeeds.bind_of_ok (mergeRecords_of_none _ (hnone .container)) ?_
    refine Ensures.imp (succeeds_linkFound_roots hw2 (hroots p) (hroots q) hpq ht2) ?_
      (fun _ _ h => h)
    rintro _ _ ⟨k3, hw3, hs3, rfl⟩
    exact Merged.of_joinRoots hg hw3 (hs.trans hs3) hw hp hq hpq t

/-- Without records, a union joins its two classes if their types have a common one, and fails
otherwise. -/
theorem ensures_union_recordless (hw : g.WellFormed) (hg : g.Recordless) (hp : p < g.size)
    (hq : q < g.size) :
    Ensures (union p q) g
      (fun _ h => ∃ t, TypeName.unify (g.typeAt p) (g.typeAt q) = .ok t ∧ Merged g p q t h)
      (fun _ h => (∃ e, TypeName.unify (g.typeAt p) (g.typeAt q) = .error e) ∧ h.Recordless) := by
  unfold union
  refine .bind_get ?_
  refine .bind ((ensures_checkUnion hw p q hp hq).imp (fun _ _ h => h) ?_) ?_
  · rintro e h ⟨hs, hclash⟩
    exact ⟨hg.clashes_iff.mp hclash, hg.of_records hs.record_eq⟩
  · rintro _ k ⟨⟨hk, hs⟩, hfits⟩
    cases ht : TypeName.unify (g.typeAt p) (g.typeAt q) with
    | error e => exact absurd (hg.clashes_iff.mpr ⟨e, ht⟩) hfits
    | ok t =>
      obtain ⟨fuel, hfuel⟩ := merge_fuel_succ g.size
      rw [hfuel]
      exact (succeeds_merge_recordless hw hg hp hq ht hk hs fuel).imp
        (fun _ _ hm => ⟨t, rfl, hm⟩) fun _ _ h => h.elim

/-! ## Lists of unions -/

/-- Joins pairs of classes one after the other. -/
def unionPairs (pairs : List (NodeId × NodeId)) : UnifyM Unit :=
  pairs.forM fun pair => union pair.1 pair.2

/-- The least equivalence that holds the classes of `g` and the pairs. -/
def Tied (g : TypeGraph) (pairs : List (NodeId × NodeId)) : NodeId → NodeId → Prop :=
  Relation.EqvGen fun i j => g.root i = g.root j ∨ (i, j) ∈ pairs

variable {pairs pairs' : List (NodeId × NodeId)} {R R' : NodeId → NodeId → Prop}

theorem Tied.equivalence (g : TypeGraph) (pairs : List (NodeId × NodeId)) :
    Equivalence (Tied g pairs) :=
  Relation.EqvGen.is_equivalence _

theorem Tied.of_root_eq (h : g.root i = g.root j) : Tied g pairs i j :=
  .rel i j (.inl h)

theorem Tied.of_mem (h : (i, j) ∈ pairs) : Tied g pairs i j :=
  .rel i j (.inr h)

/-- It is the least one. -/
theorem Tied.le (h : Tied g pairs i j) (hR : Equivalence R)
    (hroot : ∀ i j, g.root i = g.root j → R i j) (hpairs : ∀ i j, (i, j) ∈ pairs → R i j) :
    R i j := by
  rw [← hR.eqvGen_iff]
  refine Relation.EqvGen.mono ?_ _ _ h
  rintro x y (hxy | hxy)
  · exact hroot x y hxy
  · exact hpairs x y hxy

/-- What a list of pairs ties depends on its members alone. -/
theorem Tied.of_subset (h : Tied g pairs i j) (hsub : pairs ⊆ pairs') : Tied g pairs' i j :=
  h.le (Tied.equivalence g pairs') (fun _ _ => Tied.of_root_eq) fun _ _ hm => Tied.of_mem (hsub hm)

theorem tied_cons_iff (hroot : ∀ i j, h.root i = h.root j ↔ Tied g [(p, q)] i j) :
    Tied h pairs i j ↔ Tied g ((p, q) :: pairs) i j := by
  constructor
  · intro hij
    apply hij.le (Tied.equivalence _ _)
    · intro x y hxy
      exact ((hroot x y).mp hxy).of_subset (by simp)
    · intro x y hxy
      exact Tied.of_mem (.tail _ hxy)
  · intro hij
    apply hij.le (Tied.equivalence _ _)
    · intro x y hxy
      exact Tied.of_root_eq ((hroot x y).mpr (Tied.of_root_eq hxy))
    · intro x y hxy
      rcases List.mem_cons.mp hxy with heq | hxy
      · cases heq
        exact Tied.of_root_eq ((hroot p q).mpr (Tied.of_mem (.head _)))
      · exact Tied.of_mem hxy

/-- The classes of `h` are those of `R`. Each carries the largest type that its nodes had in `g`,
and is a list if one of them was. -/
structure Sums (g : TypeGraph) (R : NodeId → NodeId → Prop) (h : TypeGraph) : Prop where
  root_eq_iff : ∀ i j, h.root i = h.root j ↔ R i j
  below : ∀ i j, R i j → Below (g.typeAt j) (h.typeAt i)
  attained : ∀ i, ∃ j, R i j ∧ g.typeAt j = h.typeAt i
  list_iff : ∀ i, h.isListAt i = true ↔ ∃ j, R i j ∧ g.isListAt j = true

theorem Sums.refl (g : TypeGraph) : Sums g (fun i j => g.root i = g.root j) g where
  root_eq_iff _ _ := Iff.rfl
  below i j hij := by
    rw [typeAt_congr hij]
    exact Below.refl _
  attained i := ⟨i, rfl, rfl⟩
  list_iff i := by
    constructor
    · intro hi
      exact ⟨i, rfl, hi⟩
    · rintro ⟨j, hij, hj⟩
      rw [isListAt_congr hij, hj]

theorem Sums.congr (hs : Sums g R h) (hR : ∀ i j, R i j ↔ R' i j) : Sums g R' h := by
  have hRR' : R = R' := funext fun i => funext fun j => propext (hR i j)
  rwa [← hRR']

theorem Sums.trans (h1 : Sums g R h) (h2 : Sums h R' k) (hR' : Equivalence R')
    (hle : ∀ i j, R i j → R' i j) : Sums g R' k where
  root_eq_iff := h2.root_eq_iff
  below i j hij := by
    have hjj : R j j := (h1.root_eq_iff j j).mp rfl
    exact (h1.below j j hjj).trans (h2.below i j hij)
  attained i := by
    obtain ⟨j, hij, hj⟩ := h2.attained i
    obtain ⟨l, hjl, hl⟩ := h1.attained j
    exact ⟨l, hR'.trans hij (hle j l hjl), hl.trans hj⟩
  list_iff i := by
    rw [h2.list_iff]
    constructor
    · rintro ⟨j, hij, hj⟩
      obtain ⟨l, hjl, hl⟩ := (h1.list_iff j).mp hj
      exact ⟨l, hR'.trans hij (hle j l hjl), hl⟩
    · rintro ⟨j, hij, hj⟩
      exact ⟨j, hij, (h1.list_iff j).mpr ⟨j, (h1.root_eq_iff j j).mp rfl, hj⟩⟩

/-- Nodes with a common class have types with a common one. -/
theorem Sums.unify (hs : Sums g R h) (hij : R i j) :
    ∃ t, TypeName.unify (g.typeAt i) (g.typeAt j) = .ok t := by
  have hii : R i i := (hs.root_eq_iff i i).mp rfl
  exact (hs.below i i hii).unify (hs.below i j hij)

/-- What has the same classes has the same types and the same lists. -/
theorem Sums.unique (hh : Sums g R h) (hk : Sums g R k) (i : NodeId) :
    h.typeAt i = k.typeAt i ∧ h.isListAt i = k.isListAt i := by
  constructor
  · obtain ⟨x, hx, hxi⟩ := hh.attained i
    obtain ⟨y, hy, hyi⟩ := hk.attained i
    apply Below.antisymm
    · rw [← hxi]
      exact hk.below i x hx
    · rw [← hyi]
      exact hh.below i y hy
  · rw [Bool.eq_iff_iff, hh.list_iff, hk.list_iff]

namespace Merged

theorem tied_pair : Tied g [(p, q)] p q :=
  Tied.of_mem (.head _)

theorem tied_right (hi : g.root i = g.root p ∨ g.root i = g.root q) : Tied g [(p, q)] i q := by
  rcases hi with hi | hi
  · exact (Tied.equivalence g _).trans (Tied.of_root_eq hi) tied_pair
  · exact Tied.of_root_eq hi

/-- A node of the new class, or one of another. -/
theorem mem_or_not (g : TypeGraph) (p q i : NodeId) : (g.root i = g.root p ∨ g.root i = g.root q) ∨
      (g.root i ≠ g.root p ∧ g.root i ≠ g.root q) := by
  rw [← not_or]
  exact em _

theorem root_eq_of_tied (hm : Merged g p q t h) (hij : Tied g [(p, q)] i j) :
    h.root i = h.root j := by
  apply hij.le (R := fun i j => h.root i = h.root j) (eq_equivalence.comap h.root)
  · intro x y hxy
    rcases mem_or_not g p q x with hx | ⟨hxp, hxq⟩
    · rw [(hm.joined x hx).1, (hm.joined y (by rwa [← hxy])).1]
    · rw [(hm.other x hxp hxq).1, (hm.other y (by rwa [← hxy]) (by rwa [← hxy])).1, hxy]
  · intro x y hxy
    cases List.mem_singleton.mp hxy
    rw [(hm.joined p (.inl rfl)).1, (hm.joined q (.inr rfl)).1]

theorem tied_of_root_eq (hm : Merged g p q t h) (hij : h.root i = h.root j) :
    Tied g [(p, q)] i j := by
  have hR := Tied.equivalence g [(p, q)]
  rcases mem_or_not g p q i with hi | ⟨hip, hiq⟩
  · rcases mem_or_not g p q j with hj | ⟨hjp, hjq⟩
    · exact hR.trans (tied_right hi) (hR.symm (tied_right hj))
    · rw [(hm.joined i hi).1, (hm.other j hjp hjq).1] at hij
      exact absurd hij.symm hjq
  · rcases mem_or_not g p q j with hj | ⟨hjp, hjq⟩
    · rw [(hm.other i hip hiq).1, (hm.joined j hj).1] at hij
      exact absurd hij hiq
    · rw [(hm.other i hip hiq).1, (hm.other j hjp hjq).1] at hij
      exact Tied.of_root_eq hij

theorem grows (hm : Merged g p q t h) (ht : TypeName.unify (g.typeAt p) (g.typeAt q) = .ok t)
    (i : NodeId) :
    Below (g.typeAt i) (h.typeAt i) ∧ (g.isListAt i = true → h.isListAt i = true) := by
  obtain ⟨hpt, hqt, _⟩ := below_of_unify ht
  rcases mem_or_not g p q i with hi | ⟨hip, hiq⟩
  · rw [(hm.joined i hi).2.1, (hm.joined i hi).2.2]
    rcases hi with hi | hi
    · rw [typeAt_congr hi, isListAt_congr hi]
      exact ⟨hpt, fun hp => by rw [hp, Bool.true_or]⟩
    · rw [typeAt_congr hi, isListAt_congr hi]
      exact ⟨hqt, fun hq => by rw [hq, Bool.or_true]⟩
  · rw [(hm.other i hip hiq).2.1, (hm.other i hip hiq).2.2]
    exact ⟨Below.refl _, id⟩

theorem sums (hm : Merged g p q t h) (ht : TypeName.unify (g.typeAt p) (g.typeAt q) = .ok t) :
    Sums g (Tied g [(p, q)]) h := by
  have hR := Tied.equivalence g [(p, q)]
  refine ⟨fun i j => ⟨hm.tied_of_root_eq, hm.root_eq_of_tied⟩, ?_, ?_, ?_⟩
  · intro i j hij
    rw [typeAt_congr (hm.root_eq_of_tied hij)]
    exact (hm.grows ht j).1
  · intro i
    rcases mem_or_not g p q i with hi | ⟨hip, hiq⟩
    · rw [(hm.joined i hi).2.1]
      rcases (below_of_unify ht).2.2 with htp | htq
      · exact ⟨p, hR.trans (tied_right hi) (hR.symm tied_pair), htp.symm⟩
      · exact ⟨q, tied_right hi, htq.symm⟩
    · exact ⟨i, hR.refl i, ((hm.other i hip hiq).2.1).symm⟩
  · intro i
    constructor
    · intro hlist
      rcases mem_or_not g p q i with hi | ⟨hip, hiq⟩
      · rw [(hm.joined i hi).2.2, Bool.or_eq_true] at hlist
        rcases hlist with hlist | hlist
        · exact ⟨p, hR.trans (tied_right hi) (hR.symm tied_pair), hlist⟩
        · exact ⟨q, tied_right hi, hlist⟩
      · rw [(hm.other i hip hiq).2.2] at hlist
        exact ⟨i, hR.refl i, hlist⟩
    · rintro ⟨j, hij, hj⟩
      rw [isListAt_congr (hm.root_eq_of_tied hij)]
      exact (hm.grows ht j).2 hj

end Merged

/-- Two nodes that are tied have types without a common one. -/
def TiesApart (g : TypeGraph) (pairs : List (NodeId × NodeId)) : Prop :=
  ∃ i j e, Tied g pairs i j ∧ TypeName.unify (g.typeAt i) (g.typeAt j) = .error e

/-- A list of unions sums up the classes that its pairs tie, unless it ties types apart. -/
theorem ensures_unionPairs (hw : g.WellFormed) (hg : g.Recordless) (pairs : List (NodeId × NodeId))
    (hpairs : ∀ pair ∈ pairs, pair.1 < g.size ∧ pair.2 < g.size) :
    Ensures (unionPairs pairs) g (fun _ h => h.WellFormed ∧ Sums g (Tied g pairs) h)
      (fun _ _ => TiesApart g pairs) := by
  induction pairs generalizing g with
  | nil =>
    refine ⟨hw, (Sums.refl g).congr fun i j => ⟨Tied.of_root_eq, fun hij => ?_⟩⟩
    exact hij.le (R := fun i j => g.root i = g.root j) (eq_equivalence.comap g.root)
      (fun _ _ hxy => hxy) fun _ _ hxy => by cases hxy
  | cons pair pairs ih =>
    obtain ⟨p, q⟩ := pair
    obtain ⟨hp, hq⟩ := hpairs (p, q) (.head _)
    show Ensures (union p q >>= fun _ => unionPairs pairs) g _ _
    refine .bind ((ensures_union_recordless hw hg hp hq).imp (fun _ _ h => h) ?_) ?_
    · rintro _ _ ⟨⟨e, he⟩, _⟩
      exact ⟨p, q, e, Tied.of_mem List.mem_cons_self, he⟩
    · rintro _ h ⟨t, ht, hm⟩
      have hsums := hm.sums ht
      have hiff : ∀ i j, Tied h pairs i j ↔ Tied g ((p, q) :: pairs) i j :=
        fun i j => tied_cons_iff hsums.root_eq_iff
      refine (ih hm.wellFormed hm.recordless ?_).imp ?_ ?_
      · intro pair hpair
        rw [hm.size_eq]
        exact hpairs pair (.tail _ hpair)
      · rintro _ k ⟨hk, hrest⟩
        refine ⟨hk, (hsums.trans hrest (Tied.equivalence h pairs) ?_).congr hiff⟩
        intro i j hij
        exact Tied.of_root_eq ((hsums.root_eq_iff i j).mpr hij)
      · rintro _ _ ⟨i, j, e, hij, he⟩
        -- the types that clash were there from the start, at nodes tied to these
        obtain ⟨x, hix, hx⟩ := hsums.attained i
        obtain ⟨y, hjy, hy⟩ := hsums.attained j
        rw [← hx, ← hy] at he
        have hR := Tied.equivalence h pairs
        have hxi : Tied h pairs x i := hR.symm (Tied.of_root_eq ((hsums.root_eq_iff i x).mpr hix))
        have hjy : Tied h pairs j y := Tied.of_root_eq ((hsums.root_eq_iff j y).mpr hjy)
        exact ⟨x, y, e, (hiff x y).mp (hR.trans (hR.trans hxi hij) hjy), he⟩

/-- All unions succeed exactly when no pair ties types apart. -/
theorem unionPairs_succeeds_iff (hw : g.WellFormed) (hg : g.Recordless)
    (hpairs : ∀ pair ∈ pairs, pair.1 < g.size ∧ pair.2 < g.size) :
    (∃ h, unionPairs pairs g = .ok () h) ↔ ¬ TiesApart g pairs := by
  have hspec := ensures_unionPairs hw hg pairs hpairs
  constructor
  · rintro ⟨h, hok⟩ ⟨i, j, e, hij, he⟩
    obtain ⟨t, ht⟩ := (hspec.of_ok hok).2.unify hij
    cases ht.symm.trans he
  · intro hno
    cases hrun : unionPairs pairs g with
    | ok u h => exact ⟨h, rfl⟩
    | error e h => exact absurd (hspec.of_error hrun) hno

/-! ## Graphs without links of lists -/

/-- The graphs that come from the initial one by operations that link no list to its elements. -/
inductive Unlinked : TypeGraph → Prop where
  | initial : Unlinked initial
  | step {g : TypeGraph} (op : Operation) (hg : Unlinked g) (hop : ∀ i ∈ op.nodes, i < g.size)
      (hlink : ∀ l e, op ≠ .linkElement l e) : Unlinked (op.apply g)

theorem Unlinked.reachable (hg : Unlinked g) : Reachable g := by
  induction hg with
  | initial => exact .initial
  | step op _ hop _ ih => exact .step op ih hop

theorem initial_recordless : initial.Recordless := by
  intro s i
  match i with
  | 0 | 1 | 2 | 3 => cases s <;> rfl
  | n + 4 =>
    unfold record
    rw [node_eq_default initial (n + 4) (by simp [initial, size])]
    cases s <;> rfl

theorem Recordless.push (hg : g.Recordless) (type : Option TypeName) (isArray : Bool) :
    (g.push { type, isArray }).Recordless := by
  intro s i
  unfold record
  rw [node_push]
  split
  · cases s <;> rfl
  · exact hg s i

theorem Recordless.compress (hg : g.Recordless) (hw : g.WellFormed) (i : NodeId) :
    (g.compress i).Recordless :=
  hg.of_records (compress_sameClasses hw i).record_eq

theorem Unlinked.recordless (hg : Unlinked g) : g.Recordless := by
  induction hg with
  | initial => exact initial_recordless
  | @step g op hu hop hlink ih =>
    have hw := hu.reachable.wellFormed
    cases op with
    | addNode type isArray => exact ih.push type isArray
    | ground t =>
      rcases ground_cases t g with hsame | hnew
      · show (ground t g).2.Recordless
        rwa [hsame]
      · show (ground t g).2.Recordless
        rw [hnew]
        exact ih.push _ _
    | find i => exact ih.compress hw i
    | typeOf i => exact ih.compress hw i
    | union p q =>
      have hspec := ensures_union_recordless hw ih (hop p (by simp [Operation.nodes]))
        (hop q (by simp [Operation.nodes]))
      show (finalGraph (union p q g)).Recordless
      cases hrun : union p q g with
      | ok u h =>
        obtain ⟨_, _, hm⟩ := hspec.of_ok hrun
        exact hm.recordless
      | error e h => exact (hspec.of_error hrun).2
    | linkElement l e => exact absurd rfl (hlink l e)
    | resolve i => exact ih.of_records ((runs_resolve_informs hw i).1 hw).record_eq

theorem isArrayNode_eq (hg : g.WellFormed) (i : NodeId) :
    (isArrayNode i g).1 = (g.isListAt i || (g.typeAt i).any TypeName.isArray) :=
  (runs_isArrayNode hg i).2.1

/-- The unions of a list succeed in one order exactly when they do in any other, and then they lead
to the same classes, the same types and the same lists. -/
theorem unions_order_free (g : TypeGraph) (hg : Unlinked g) (pairs pairs' : List (NodeId × NodeId))
    (hpairs : ∀ pair ∈ pairs, pair.1 < g.size ∧ pair.2 < g.size) (hperm : pairs.Perm pairs') :
    ((∃ h, unionPairs pairs g = .ok () h) ↔ ∃ h, unionPairs pairs' g = .ok () h) ∧
      ∀ h h', unionPairs pairs g = .ok () h → unionPairs pairs' g = .ok () h' →
        (∀ i j, (find i h).1 = (find j h).1 ↔ (find i h').1 = (find j h').1) ∧
        (∀ i, (typeOf i h).1 = (typeOf i h').1) ∧
        ∀ i, (isArrayNode i h).1 = (isArrayNode i h').1 := by
  have hw := hg.reachable.wellFormed
  have hpairs' : ∀ pair ∈ pairs', pair.1 < g.size ∧ pair.2 < g.size :=
    fun pair hpair => hpairs pair (hperm.mem_iff.mpr hpair)
  have htied : ∀ i j, Tied g pairs i j ↔ Tied g pairs' i j :=
    fun i j => ⟨fun h => h.of_subset hperm.subset, fun h => h.of_subset hperm.symm.subset⟩
  constructor
  · rw [unionPairs_succeeds_iff hw hg.recordless hpairs,
      unionPairs_succeeds_iff hw hg.recordless hpairs']
    unfold TiesApart
    simp only [htied]
  · intro h h' hrun hrun'
    obtain ⟨hwh, hsums⟩ := (ensures_unionPairs hw hg.recordless pairs hpairs).of_ok hrun
    obtain ⟨hwh', hsums'⟩ := (ensures_unionPairs hw hg.recordless pairs' hpairs').of_ok hrun'
    have hsame := hsums.unique (hsums'.congr fun i j => (htied i j).symm)
    refine ⟨?_, ?_, ?_⟩
    · intro i j
      show h.root i = h.root j ↔ h'.root i = h'.root j
      rw [hsums.root_eq_iff, hsums'.root_eq_iff, htied]
    · intro i
      rw [typeOf_eq hwh, typeOf_eq hwh', (hsame i).1]
    · intro i
      rw [isArrayNode_eq hwh, isArrayNode_eq hwh', (hsame i).1, (hsame i).2]

/-- Three new classes: one of no type, one of lists of anything, and one of lists of numbers. -/
def threeClasses : TypeGraph :=
  ⟨#[{ type := some .number }, { type := some .text },
     { type := some .boolean }, { type := some .void }, {},
     { type := some TypeName.array, isArray := true },
     { type := some (TypeName.listOf .number), isArray := true }]⟩

theorem threeClasses_unlinked : Unlinked threeClasses :=
  .step (.ground (.listOf .number)) (.step (.ground .array)
      (.step (.addNode none false) .initial (by decide) (fun _ _ h => by cases h))
      (by decide) (fun _ _ h => by cases h))
    (by decide) (fun _ _ h => by cases h)

/-- Whether the class of no type meets the lists of anything before or after these meet the lists of
numbers, all three become lists of numbers. -/
theorem unions_order_free_classes :
    Unlinked threeClasses ∧ ∃ h h', unionPairs [(4, 5), (5, 6)] threeClasses = .ok () h ∧
      unionPairs [(5, 6), (4, 5)] threeClasses = .ok () h' ∧
      (typeOf 4 h).1 = some (TypeName.listOf TypeName.number) ∧
      (∀ i j, (find i h).1 = (find j h).1 ↔ (find i h').1 = (find j h').1) ∧
      (∀ i, (typeOf i h).1 = (typeOf i h').1) ∧ ∀ i, (isArrayNode i h).1 = (isArrayNode i h').1 :=
  ⟨threeClasses_unlinked, _, _, rfl, rfl, by decide,
    (unions_order_free threeClasses threeClasses_unlinked [(4, 5), (5, 6)] [(5, 6), (4, 5)]
      (by decide) (by decide)).2 _ _ rfl rfl⟩

end BlockProgram.TypeGraph
