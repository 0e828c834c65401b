import BlockProgram.Proofs.TypeGraph.Merging
import Mathlib.Tactic.Ring

/-!
# Joining and linking sound graphs

A graph is `Sound` for an assignment of types if it is well-formed and agrees with it. On such a
graph a union of nodes of one type cannot fail, and if it is `OneToOne` it loses no record
(`succeeds_union`). A link of a list with its elements consists of two halves, each of which is a
union or a new record or nothing at all (`succeeds_recordAt`).
-/

namespace BlockProgram.TypeGraph

variable {τ : NodeId → TypeName} {g h t u : TypeGraph} {p q l e k x i : NodeId} {s : Slot}

/-- A well-formed graph that agrees with the assignment. -/
structure Sound (τ : NodeId → TypeName) (g : TypeGraph) : Prop where
  wellFormed : g.WellFormed
  models : Models τ g

theorem Alike.trans {k : TypeGraph} (h1 : Alike g h) (h2 : Alike h k) : Alike g k where
  size_eq := h2.size_eq.trans h1.size_eq
  root_eq i := (h2.root_eq i).trans (h1.root_eq i)
  type_eq i := (h2.type_eq i).trans (h1.type_eq i)
  record_eq s i := (h2.record_eq s i).trans (h1.record_eq s i)

theorem Sound.of_alike (hs : Sound τ g) (hh : h.WellFormed) (ha : Alike g h) : Sound τ h :=
  ⟨hh, hs.models.of_alike ha⟩

theorem Keeps.of_records (hroot : ∀ i, h.root i = g.root i)
    (hrec : ∀ s i, h.record s i = g.record s i) : Keeps g h where
  root_eq i j hij := by rw [hroot, hroot, hij]
  records s i j := by
    rintro ⟨x, hx, hxj⟩
    exact ⟨x, by rw [hroot, hrec, hx], by rw [hroot, hroot, hxj]⟩

theorem Alike.keeps (ha : Alike g h) : Keeps g h :=
  Keeps.of_records ha.root_eq ha.record_eq

theorem Keeps.trans {k : TypeGraph} (h1 : Keeps g h) (h2 : Keeps h k) : Keeps g k where
  root_eq i j hij := h2.root_eq i j (h1.root_eq i j hij)
  records s i j hij := h2.records s i j (h1.records s i j hij)

/-- From `g` to `u` the graph stays sound and no record is lost. -/
structure Upholds (τ : NodeId → TypeName) (g u : TypeGraph) : Prop where
  sound : Sound τ u
  size_eq : u.size = g.size
  keeps : Keeps g u

theorem Upholds.of_alike (hs : Sound τ g) (hu : u.WellFormed) (ha : Alike g u) : Upholds τ g u :=
  ⟨hs.of_alike hu ha, ha.size_eq, ha.keeps⟩

theorem Upholds.trans (h1 : Upholds τ g t) (h2 : Upholds τ t u) : Upholds τ g u :=
  ⟨h2.sound, h2.size_eq.trans h1.size_eq, h1.keeps.trans h2.keeps⟩

theorem Upholds.root_root (hu : Upholds τ g u) (hg : g.WellFormed) (i : NodeId) :
    u.root (g.root i) = u.root i :=
  hu.keeps.root_eq _ i (TypeGraph.root_root hg i)

/-! ## Unions -/

theorem two_mul_lt_fuel (n : Nat) : n * 2 < (n + 1) * (n + 1) * (n + 1) := by
  have hsquare : n * 2 < (n + 1) * (n + 1) := by
    have : (n + 1) * (n + 1) = n * n + n * 2 + 1 := by ring
    omega
  exact lt_of_lt_of_le hsquare (Nat.le_mul_of_pos_right _ (Nat.succ_pos n))

theorem succeeds_checkUnion (hw : t.WellFormed) (hτ : Models τ t) (hp : p < t.size)
    (hq : q < t.size) (hpq : τ p = τ q) :
    Succeeds (checkUnion (t.size * t.size + 1) [] p q) t
      (fun _ u => u.WellFormed ∧ SameClasses t u) := by
  refine Ensures.imp (ensures_checkUnion hw p q hp hq) (fun _ _ h => h.1) ?_
  rintro e u ⟨_, hclash⟩
  exact hτ.not_clashes hpq hclash

/-- A union within one class changes nothing. -/
theorem succeeds_union_same (hs : Sound τ g) (hp : p < g.size) (hq : q < g.size)
    (hroot : g.root p = g.root q) :
    Succeeds (union p q) g (fun _ u => u.WellFormed ∧ SameClasses g u) := by
  have hpq : τ p = τ q := by rw [← hs.models.root_eq p, hroot, hs.models.root_eq]
  unfold union
  refine .bind_get ?_
  refine .bind (succeeds_checkUnion hs.wellFormed hs.models hp hq hpq) ?_
  rintro _ u ⟨hu, hsu⟩
  have hrootu : u.root p = u.root q := by rw [hsu.root_eq, hsu.root_eq, hroot]
  refine Ensures.imp (succeeds_merge_same hu hrootu _) ?_ (fun _ _ h => h)
  rintro _ v ⟨hv, hsv⟩
  exact ⟨hv, hsu.trans hsv⟩

/-- A union of two classes in which each class has at most one partner. -/
theorem succeeds_union_apart (ht : Apart τ g p q) :
    Succeeds (union p q) g (fun _ u => Upholds τ g u ∧ u.root p = u.root q) := by
  unfold union
  refine .bind_get ?_
  refine .bind (succeeds_checkUnion ht.wellFormed ht.models ht.left_lt ht.right_lt ht.type_eq) ?_
  rintro _ t ⟨hw, hs⟩
  have hm : Merging τ g p q (fun i => False ∨ i = g.root p) t :=
    (Merging.start ht _).of_sameClasses hw hs
  have hload : load g p q t < (g.size + 1) * (g.size + 1) * (g.size + 1) :=
    lt_of_le_of_lt (load_le g p q t) (two_mul_lt_fuel g.size)
  refine Ensures.imp (mergesPartners ht _ t _ p q hm ht.start hload) ?_ (fun _ _ h => h)
  rintro _ u ⟨hu, _, hpq⟩
  exact ⟨⟨⟨hu.wellFormed, hu.models ht⟩, hu.size_eq, hu.keeps ht hpq⟩, hpq⟩

theorem succeeds_union (hs : Sound τ g) (hp : p < g.size) (hq : q < g.size) (hpq : τ p = τ q)
    (hone : OneToOne g p q) :
    Succeeds (union p q) g (fun _ u => Upholds τ g u ∧ u.root p = u.root q) := by
  by_cases hroot : g.root p = g.root q
  · refine Ensures.imp (succeeds_union_same hs hp hq hroot) ?_ (fun _ _ h => h)
    rintro _ u ⟨hu, hsame⟩
    exact ⟨.of_alike hs hu hsame.alike, by rw [hsame.root_eq, hsame.root_eq, hroot]⟩
  · exact succeeds_union_apart ⟨hone, hs.wellFormed, hs.models, hp, hq, hpq, hroot⟩

/-! ## Links -/

/-- Records are those of classes. -/
theorem Records.congr {j i' j' : NodeId} (h : Records g s i j) (hi : g.root i = g.root i')
    (hj : g.root j = g.root j') : Records g s i' j' := by
  obtain ⟨x, hx, hxj⟩ := h
  exact ⟨x, by rw [← hi, hx], by rw [hxj, hj]⟩

theorem succeeds_mark (hu : u.WellFormed) (p : NodeId) :
    Succeeds (do let p ← find p; markArray p : UnifyM Unit) u
      (fun _ v => v.WellFormed ∧ Alike u v) := by
  refine .bind (succeeds_find hu p) ?_
  rintro _ v ⟨rfl, hv, hs⟩
  unfold markArray
  refine .bind_get ?_
  split
  · refine ⟨(Change.mark v _).wellFormed hv, hs.alike.trans ?_⟩
    refine ⟨by rw [size_update], fun i => root_update v _ i _ (fun _ => rfl),
      fun i => field_update Node.type v _ i _ (fun _ => rfl), ?_⟩
    intro s i
    cases s with
    | element => exact field_update Node.element v _ i _ (fun _ => rfl)
    | container => exact field_update Node.container v _ i _ (fun _ => rfl)
  · exact ⟨hv, hs.alike⟩

/-! What `recordAt` does at a root with a record, at one with room for it and at one without. -/

section Recorded

variable {room : Option TypeName → Bool} {r known : NodeId}

theorem recordAt_known (h : g.record s r = some known) :
    recordAt s room r x g = union known x g := by
  unfold recordAt
  rw [run_bind_get, h]

theorem recordAt_new (h : g.record s r = none) (hroom : room (g.node r).type = true) :
    recordAt s room r x g = .ok () (g.update r (s.write (some x))) := by
  unfold recordAt
  rw [run_bind_get, h]
  dsimp only
  rw [if_pos hroom]
  rfl

theorem recordAt_full (h : g.record s r = none) (hroom : room (g.node r).type = false) :
    recordAt s room r x g = .ok () g := by
  unfold recordAt
  rw [run_bind_get, h]
  dsimp only
  rw [hroom]
  rfl

end Recorded

/-- A new record where there was none. -/
theorem upholds_write {r : NodeId} (hs : Sound τ g) (hr : r < g.size) (hx : x < g.size)
    (hn : g.record s r = none) (hrel : s.Relates (τ r) (τ x)) :
    Upholds τ g (g.update r (s.write (some x))) := by
  have hrec := record_update (t := g) (s := s) hr (some x)
  refine ⟨⟨?_, ⟨?_, ?_, ?_⟩⟩, size_update _ _ _, ⟨?_, ?_⟩⟩
  · exact write_wellFormed hs.wellFormed s r (some x) (fun j hj => by cases hj; exact hx)
  · intro i
    rw [root_write, hs.models.root_eq]
  · intro i
    rw [type_write]
    exact hs.models.fits i
  · intro s' i y hy
    rw [hrec] at hy
    split at hy
    · next h =>
      obtain ⟨rfl, rfl⟩ := h
      cases hy
      exact hrel
    · exact hs.models.relates s' i y hy
  · intro i j hij
    rw [root_write, root_write, hij]
  · rintro s' i j ⟨y, hy, hyj⟩
    refine ⟨y, ?_, by rw [root_write, root_write, hyj]⟩
    rw [root_write, hrec, if_neg, hy]
    rintro ⟨rfl, hi⟩
    rw [hi, hn] at hy
    cases hy

/-- One half of a link: what a root has recorded is joined with `x`, or `x` is recorded, or there is
no room for a record. -/
theorem succeeds_recordAt (room : Option TypeName → Bool) {r : NodeId} (hs : Sound τ g)
    (hroot : g.IsRoot r) (hr : r < g.size) (hx : x < g.size) (hrel : s.Relates (τ r) (τ x))
    (hone : ∀ known, g.record s r = some known → OneToOne g known x) :
    Succeeds (recordAt s room r x) g (fun _ u => Upholds τ g u ∧
      (Records u s r x ∨ (room (g.node r).type = false ∧ g.record s r = none ∧ u = g))) := by
  have hself := root_of_isRoot g r hroot
  cases hknown : g.record s r with
  | some known =>
    have hlt : known < g.size := hs.wellFormed.record_lt hknown
    have htype : τ known = τ x := (hs.models.relates s r known hknown).unique hrel
    refine Succeeds.of_run_eq (recordAt_known hknown) ?_
    refine Ensures.imp (succeeds_union hs hlt hx htype (hone known hknown)) ?_ (fun _ _ h => h)
    rintro _ u ⟨hu, hjoined⟩
    have hold : Records g s r known := ⟨known, by rw [hself, hknown], rfl⟩
    exact ⟨hu, .inl ((hu.keeps.records s r known hold).congr rfl hjoined)⟩
  | none =>
    cases hroom : room (g.node r).type with
    | true =>
      refine Succeeds.of_ok (recordAt_new hknown hroom) ⟨upholds_write hs hr hx hknown hrel, ?_⟩
      refine .inl ⟨x, ?_, rfl⟩
      rw [root_write, hself, record_update hr, if_pos ⟨rfl, rfl⟩]
    | false =>
      refine Succeeds.of_ok (recordAt_full hknown hroom) ⟨?_, .inr ⟨rfl, rfl, rfl⟩⟩
      exact .of_alike hs hs.wellFormed (SameClasses.refl g).alike

/-- The graph in the middle of a link, when the list's side is done. -/
def halfLinked (g : TypeGraph) (l e : NodeId) : TypeGraph :=
  finalGraph (recordElement (g.root l) (g.root e) ((g.compress l).compress e))

/-- What a link of list `l` with elements `e` has to respect: the assignment, and at most one
partner for each class in the unions that it carries out. -/
structure FairLink (τ : NodeId → TypeName) (g : TypeGraph) (l e : NodeId) : Prop where
  type_eq : τ l = .listOf (τ e)
  elements : ∀ x, g.record .element (g.root l) = some x → OneToOne g x e
  lists : ∀ k, (g.halfLinked l e).record .container ((g.halfLinked l e).root e) = some k →
    OneToOne (g.halfLinked l e) k l

/-- The element's side knows the list, or it has a type and knows no list. -/
def ElementSide (g : TypeGraph) (l e : NodeId) : Prop :=
  Records g .container e l ∨ (g.typeAt e ≠ none ∧ g.record .container (g.root e) = none)

theorem ElementSide.of_alike (h : ElementSide g l e) (ha : Alike g u) : ElementSide u l e := by
  rcases h with h | ⟨htype, hnone⟩
  · exact .inl (ha.keeps.records _ _ _ h)
  · refine .inr ⟨?_, ?_⟩
    · unfold typeAt
      rw [ha.root_eq, ha.type_eq]
      exact htype
    · rw [ha.root_eq, ha.record_eq, hnone]

/-- The second half of a link. -/
theorem succeeds_elementSide (hs : Sound τ g) (hl : l < g.size) (he : e < g.size)
    (htype : τ l = .listOf (τ e))
    (hone : ∀ k, g.record .container (g.root e) = some k → OneToOne g k l) :
    Succeeds (do
      let p ← find l
      let c ← find e
      recordContainer p c
      let p ← find p
      markArray p : UnifyM Unit) g (fun _ u => Upholds τ g u ∧ ElementSide u l e) := by
  refine .bind (succeeds_find hs.wellFormed l) ?_
  rintro _ g1 ⟨rfl, hw1, hs1⟩
  refine .bind (succeeds_find hw1 e) ?_
  rintro _ g2 ⟨rfl, hw2, hs2⟩
  have hsame := hs1.trans hs2
  have hup := Upholds.of_alike hs hw2 hsame.alike
  rw [hs1.root_eq, recordContainer_eq]
  refine .bind (succeeds_recordAt (s := .container) Option.isNone hup.sound
    ((hsame.isRoot_iff hs.wellFormed hw2 _).mpr (isRoot_root hs.wellFormed e))
    (by rw [hsame.size_eq]; exact root_lt hs.wellFormed e he)
    (by rw [hsame.size_eq]; exact root_lt hs.wellFormed l hl) ?_ ?_) ?_
  · show τ (g.root l) = .listOf (τ (g.root e))
    rw [hs.models.root_eq, hs.models.root_eq, htype]
  · intro k hk
    rw [hsame.record_eq] at hk
    exact (hone k hk).of_sameClasses hsame rfl (root_root hs.wellFormed l)
  · rintro _ u ⟨hu, htied⟩
    have hgu := hup.trans hu
    have hside : ElementSide u l e := by
      rcases htied with h | ⟨hroom, hnone, rfl⟩
      · exact .inl (h.congr (hgu.root_root hs.wellFormed e) (hgu.root_root hs.wellFormed l))
      · refine .inr ⟨?_, by rw [hsame.root_eq, hnone]⟩
        unfold typeAt
        rw [hsame.root_eq]
        exact Option.isSome_iff_ne_none.mp (Option.isNone_eq_false_iff.mp hroom)
    refine Ensures.imp (succeeds_mark hgu.sound.wellFormed _) ?_ (fun _ _ h => h)
    rintro _ v ⟨hv, ha⟩
    exact ⟨hgu.trans (.of_alike hgu.sound hv ha), hside.of_alike ha⟩

/-- A fair link succeeds and loses no record, and an open list records its elements then. -/
theorem succeeds_linkElement (hs : Sound τ g) (hl : l < g.size) (he : e < g.size)
    (hfair : FairLink τ g l e) :
    Succeeds (linkElement l e) g (fun _ u => Upholds τ g u ∧
      (TypeName.isOpen (g.typeAt l) = true → Records u .element l e) ∧ ElementSide u l e) := by
  have hne : g.root l ≠ g.root e := by
    intro h
    have hlen := TypeName.length_listOf (τ e)
    rw [← hfair.type_eq, ← hs.models.root_eq l, h, hs.models.root_eq] at hlen
    omega
  have hw1 := compress_wellFormed hs.wellFormed l
  have hs1 := compress_sameClasses hs.wellFormed l
  have hw2 := compress_wellFormed hw1 e
  have hsame := hs1.trans (compress_sameClasses hw1 e)
  have hup := Upholds.of_alike hs hw2 hsame.alike
  have hlt : g.root l < ((g.compress l).compress e).size := by
    rw [hsame.size_eq]
    exact root_lt hs.wellFormed l hl
  have het : g.root e < ((g.compress l).compress e).size := by
    rw [hsame.size_eq]
    exact root_lt hs.wellFormed e he
  have htype : τ (g.root l) = .listOf (τ (g.root e)) := by
    rw [hs.models.root_eq, hs.models.root_eq, hfair.type_eq]
  have hlist := succeeds_recordAt (s := .element) TypeName.isOpen hup.sound
    ((hsame.isRoot_iff hs.wellFormed hw2 _).mpr (isRoot_root hs.wellFormed l)) hlt het htype
    (fun x hx => by
      rw [hsame.record_eq] at hx
      exact (hfair.elements x hx).of_sameClasses hsame rfl (root_root hs.wellFormed e))
  obtain ⟨_, t, hrun, hut, hltied⟩ := hlist.exists_ok
  have hgt := hup.trans hut
  have hhalf : g.halfLinked l e = t := by
    unfold halfLinked
    rw [recordElement_eq, hrun]
    rfl
  unfold linkElement
  refine Ensures.bind_lift ?_
  refine Ensures.bind_lift ?_
  have hp : (find l g).1 = g.root l := rfl
  have hc : (find e (find l g).2).1 = g.root e := hs1.root_eq e
  rw [hp, hc, if_neg hne]
  refine Succeeds.bind_of_ok hrun ?_
  refine Ensures.imp (succeeds_elementSide hut.sound (by rwa [hut.size_eq])
    (by rwa [hut.size_eq]) htype ?_) ?_ (fun _ _ h => h)
  · intro k hk
    have hlists := hfair.lists k
    rw [hhalf, ← hgt.root_root hs.wellFormed] at hlists
    exact (hlists hk).of_sameClasses (.refl t) rfl (hgt.root_root hs.wellFormed l)
  · rintro _ u ⟨hu, hside⟩
    have hgu := hgt.trans hu
    have hback := hgu.root_root hs.wellFormed
    refine ⟨hgu, fun hopen => ?_, ?_⟩
    · rcases hltied with h | ⟨hroom, _⟩
      · exact (hu.keeps.records _ _ _ h).congr (hback l) (hback e)
      · rw [hsame.type_eq] at hroom
        unfold typeAt at hopen
        rw [hopen] at hroom
        cases hroom
    · rcases hside with h | ⟨htyped, hnone⟩
      · exact .inl (h.congr (hback e) (hback l))
      · unfold typeAt at htyped
        rw [hback] at htyped hnone
        exact .inr ⟨htyped, hnone⟩

end BlockProgram.TypeGraph
