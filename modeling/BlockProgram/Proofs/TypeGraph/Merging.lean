import BlockProgram.Proofs.TypeGraph.Partners
import Mathlib.Data.Finset.Card
import Mathlib.Order.Interval.Finset.Nat

/-!
# Merging partners

A union of two classes joins every class on the left with its partner on the right. It does so in an
order that is hard to follow: a merge starts with the elements, whose own merge comes back to their
lists before these are linked.

`Merging` describes a graph at any moment on the way. Classes on the right keep their roots and
their records, and take a record over where they had none. A class on the left that has lost a
record, or is linked already, has left it to its partner, or else the merge of the two recorded
classes is `pending` further out. When nothing is pending any more, no record is lost
(`Merging.keeps`).
-/

namespace BlockProgram

namespace TypeGraph

/-! ## Records of changed graphs -/

variable {g t u : TypeGraph} {s s' : Slot} {a b i x y z : NodeId}

theorem record_update (ha : a < t.size) (x : Option NodeId) (s' : Slot) (i : NodeId) :
    (t.update a (s.write x)).record s' i = if s' = s ∧ i = a then x else t.record s' i := by
  unfold record
  by_cases hi : i = a
  · subst hi
    rw [node_update_self t i _ ha]
    by_cases hs : s' = s
    · subst hs
      rw [Slot.read_write, if_pos ⟨rfl, rfl⟩]
    · rw [Slot.read_write_ne (Ne.symm hs), if_neg (fun h => hs h.1)]
  · rw [node_update_ne t a i _ (Ne.symm hi), if_neg (fun h => hi h.2)]

theorem root_write (t : TypeGraph) (s : Slot) (a : NodeId) (x : Option NodeId) (i : NodeId) :
    (t.update a (s.write x)).root i = t.root i :=
  root_update t a i _ (Slot.link_write s x)

theorem type_write (t : TypeGraph) (s : Slot) (a : NodeId) (x : Option NodeId) (i : NodeId) :
    ((t.update a (s.write x)).node i).type = (t.node i).type :=
  field_update Node.type t a i _ (Slot.type_write s x)

theorem write_wellFormed (ht : t.WellFormed) (s : Slot) (a : NodeId) (x : Option NodeId)
    (hx : ∀ j, x = some j → j < t.size) : (t.update a (s.write x)).WellFormed :=
  (Change.write t s a x hx).wellFormed ht

theorem record_joinRoots (t : TypeGraph) (a b : NodeId) (ty : Option TypeName) (s : Slot)
    (i : NodeId) : (t.joinRoots a b ty).record s i = t.record s i := by
  cases s with
  | element => exact element_joinRoots t a b ty i
  | container => exact container_joinRoots t a b ty i

theorem lt_size_of_record (h : t.record s i = some x) : i < t.size := by
  rcases lt_or_ge i t.size with hi | hi
  · exact hi
  · unfold record at h
    rw [node_eq_default t i hi] at h
    cases s <;> cases h

/-! ## The way of a merge -/

variable {τ : NodeId → TypeName} {p q : NodeId} {pending : NodeId → Prop}

/-- `b` has the record that stands for `x`, or will have it when what is pending is done. -/
def Carried (g t : TypeGraph) (pending : NodeId → Prop) (s : Slot) (b x : NodeId) : Prop :=
  ∃ y, t.record s b = some y ∧ (t.root y = t.root x ∨ pending (g.root x))

/-- A graph on the way from `g` to the union of `p` and `q`. -/
structure Merging (τ : NodeId → TypeName) (g : TypeGraph) (p q : NodeId) (pending : NodeId → Prop)
    (t : TypeGraph) : Prop where
  wellFormed : t.WellFormed
  size_eq : t.size = g.size
  fits : ∀ i, Fits (t.node i).type (τ i)
  root_congr : ∀ i j, g.root i = g.root j → t.root i = t.root j
  /-- A class has its old root or that of its partner. -/
  root_eq : ∀ i, t.root i = g.root i ∨ Partners g p q (g.root i) (t.root i)
  left : ∀ s a b, Partners g p q a b → t.record s a = g.record s a ∨ t.record s a = none
  right : ∀ s a b, Partners g p q a b → t.record s b = g.record s b ∨ (g.record s b = none ∧
      ∃ x z, g.record s a = some x ∧ t.record s b = some z ∧ g.root z = g.root x)
  kept : ∀ s a b x, Partners g p q a b → g.record s a = some x →
    (t.root a = a ∧ t.record s a = some x) ∨ Carried g t pending s b x
  other : ∀ s i, (∀ c, ¬ Partners g p q i c) → (∀ c, ¬ Partners g p q c i) →
    t.record s i = g.record s i

/-- What later steps of a merge keep. -/
structure Later (g : TypeGraph) (p q : NodeId) (t u : TypeGraph) : Prop where
  root_eq : ∀ i j, t.root i = t.root j → u.root i = u.root j
  left : ∀ s a b, Partners g p q a b → t.record s a = none → u.record s a = none
  right : ∀ s a b z, Partners g p q a b → t.record s b = some z → u.record s b = some z

theorem Later.refl (g : TypeGraph) (p q : NodeId) (t : TypeGraph) : Later g p q t t :=
  ⟨fun _ _ h => h, fun _ _ _ _ h => h, fun _ _ _ _ _ h => h⟩

theorem Later.trans {v : TypeGraph} (h1 : Later g p q t u) (h2 : Later g p q u v) :
    Later g p q t v where
  root_eq i j h := h2.root_eq i j (h1.root_eq i j h)
  left s a b hf h := h2.left s a b hf (h1.left s a b hf h)
  right s a b z hf h := h2.right s a b z hf (h1.right s a b z hf h)

theorem Later.of_sameClasses (hs : SameClasses t u) : Later g p q t u where
  root_eq i j h := by rw [hs.root_eq, hs.root_eq, h]
  left s a b _ h := by rw [hs.record_eq, h]
  right s a b z _ h := by rw [hs.record_eq, h]

theorem Carried.later (h : Carried g t pending s b x) (hf : Partners g p q a b)
    (hl : Later g p q t u) : Carried g u pending s b x := by
  obtain ⟨y, hy, hroot⟩ := h
  exact ⟨y, hl.right s a b y hf hy, hroot.imp (hl.root_eq y x) id⟩

theorem Carried.mono {pending' : NodeId → Prop} (h : Carried g t pending s b x)
    (hp : ∀ i, pending i → pending' i) : Carried g t pending' s b x := by
  obtain ⟨y, hy, hroot⟩ := h
  exact ⟨y, hy, hroot.imp id (hp _)⟩

namespace Merging

/-- A union starts from the graph itself. -/
theorem start (ht : Apart τ g p q) (pending : NodeId → Prop) : Merging τ g p q pending g where
  wellFormed := ht.wellFormed
  size_eq := rfl
  fits := ht.models.fits
  root_congr _ _ h := h
  root_eq _ := .inl rfl
  left _ _ _ _ := .inl rfl
  right _ _ _ _ := .inl rfl
  kept _ a _ _ hf hx := .inl ⟨root_of_isRoot g a (hf.isRoot ht.wellFormed).1, hx⟩
  other _ _ _ _ := rfl

section

variable (hm : Merging τ g p q pending t)
include hm

theorem mono {pending' : NodeId → Prop} (hp : ∀ i, pending i → pending' i) :
    Merging τ g p q pending' t :=
  { hm with kept := fun s a b x hf hx => (hm.kept s a b x hf hx).imp id (·.mono hp) }

theorem of_sameClasses (hu : u.WellFormed) (hs : SameClasses t u) :
    Merging τ g p q pending u where
  wellFormed := hu
  size_eq := hs.size_eq.trans hm.size_eq
  fits i := by
    rw [hs.type_eq]
    exact hm.fits i
  root_congr i j h := by rw [hs.root_eq, hs.root_eq, hm.root_congr i j h]
  root_eq i := by
    rw [hs.root_eq]
    exact hm.root_eq i
  left s a b hf := by
    rw [hs.record_eq]
    exact hm.left s a b hf
  right s a b hf := by
    rw [hs.record_eq]
    exact hm.right s a b hf
  kept s a b x hf hx := by
    rw [hs.root_eq, hs.record_eq]
    exact (hm.kept s a b x hf hx).imp id (·.later hf (Later.of_sameClasses hs))
  other s i h1 h2 := by
    rw [hs.record_eq]
    exact hm.other s i h1 h2

theorem partners_lt (ht : Apart τ g p q) (hf : Partners g p q a b) : a < t.size ∧ b < t.size := by
  rw [hm.size_eq]
  exact ht.partners_lt hf

theorem root_right (ht : Apart τ g p q) (hf : Partners g p q a b) : t.root b = b := by
  have hroot := root_of_isRoot g b (hf.isRoot ht.wellFormed).2
  have hb := hm.root_eq b
  rw [hroot] at hb
  rcases hb with hb | hb
  · exact hb
  · exact (ht.disjoint hb hf).elim

/-- A root on the left stays or is linked to its partner. -/
theorem root_left (ht : Apart τ g p q) (hf : Partners g p q a b) : t.root a = a ∨ t.root a = b := by
  have hroot := root_of_isRoot g a (hf.isRoot ht.wellFormed).1
  have ha := hm.root_eq a
  rw [hroot] at ha
  rcases ha with ha | ha
  · exact .inl ha
  · exact .inr (ht.right_unique ha hf)

/-- Partners have types that can be one. -/
theorem unify_partners (ht : Apart τ g p q) (hf : Partners g p q a b) :
    ∃ ty, TypeName.unify (t.node a).type (t.node b).type = .ok ty ∧ Fits ty (τ b) := by
  have hfit := hm.fits a
  rw [hf.1.type_eq ht.models ht.type_eq] at hfit
  exact hfit.unify (hm.fits b)

/-- The records that are still on the left are old ones. -/
theorem record_left (hf : Partners g p q a b) (hx : t.record s a = some x) :
    g.record s a = some x := by
  rcases hm.left s a b hf with h | h
  · rw [← h, hx]
  · rw [h] at hx
    cases hx

/-- Two recorded classes that a merge comes upon are partners, or one. -/
theorem partner_records (hf : Partners g p q a b) (hx : t.record s a = some x)
    (hy : t.record s b = some y) : Partners g p q (g.root x) (g.root y) ∨ g.root x = g.root y := by
  have hxg := hm.record_left hf hx
  rcases hm.right s a b hf with h | ⟨_, x', z, hx', hz, hroot⟩
  · rw [h] at hy
    exact hf.record hxg hy
  · rw [hy] at hz
    rw [hxg] at hx'
    cases hz
    cases hx'
    exact .inr hroot.symm

/-! ### Steps -/

/-- Another value in one record: what is left to show is what the records then are. -/
theorem of_write (z : Option NodeId) (hz : ∀ j, z = some j → j < t.size)
    (hu : u = t.update b (s.write z))
    (left : ∀ s c d, Partners g p q c d → u.record s c = g.record s c ∨ u.record s c = none)
    (right : ∀ s c d, Partners g p q c d → u.record s d = g.record s d ∨ (g.record s d = none ∧
      ∃ x y, g.record s c = some x ∧ u.record s d = some y ∧ g.root y = g.root x))
    (kept : ∀ s c d x, Partners g p q c d → g.record s c = some x →
      (u.root c = c ∧ u.record s c = some x) ∨ Carried g u pending s d x)
    (other : ∀ s i, (∀ c, ¬ Partners g p q i c) → (∀ c, ¬ Partners g p q c i) →
      u.record s i = g.record s i) : Merging τ g p q pending u := by
  subst hu
  refine ⟨write_wellFormed hm.wellFormed s b z hz, ?_, ?_, ?_, ?_, left, right, kept, other⟩
  · rw [size_update, hm.size_eq]
  · intro i
    rw [type_write]
    exact hm.fits i
  · intro i j hij
    rw [root_write, root_write, hm.root_congr i j hij]
  · intro i
    rw [root_write]
    exact hm.root_eq i

/-- The left class gives up a record that its partner has. -/
theorem clear (ht : Apart τ g p q) (hf : Partners g p q a b) (hx : t.record s a = some x)
    (hc : Carried g t pending s b x) :
    Merging τ g p q pending (t.update a (s.write none)) ∧
      Later g p q t (t.update a (s.write none)) := by
  have hrec := record_update (t := t) (s := s) (lt_size_of_record hx) none
  have hright : ∀ s' c d, Partners g p q c d →
      (t.update a (s.write none)).record s' d = t.record s' d := by
    intro s' c d hcd
    rw [hrec, if_neg]
    rintro ⟨_, rfl⟩
    exact ht.disjoint hf hcd
  have hlater : Later g p q t (t.update a (s.write none)) := by
    refine ⟨?_, ?_, ?_⟩
    · intro i j hij
      rw [root_write, root_write, hij]
    · intro s' c d _ hn
      rw [hrec]
      split
      · rfl
      · exact hn
    · intro s' c d z hcd hz
      rw [hright s' c d hcd, hz]
  refine ⟨hm.of_write none (fun _ h => by cases h) rfl ?_ ?_ ?_ ?_, hlater⟩
  · intro s' c d hcd
    rw [hrec]
    split
    · exact .inr rfl
    · exact hm.left s' c d hcd
  · intro s' c d hcd
    rw [hright s' c d hcd]
    exact hm.right s' c d hcd
  · intro s' c d z hcd hz
    by_cases hsame : s' = s ∧ c = a
    · obtain ⟨rfl, rfl⟩ := hsame
      rw [hm.record_left hcd hx] at hz
      cases hz
      have hdb := ht.right_unique hcd hf
      subst hdb
      exact .inr (hc.later hf hlater)
    · rw [root_write, hrec, if_neg hsame]
      exact (hm.kept s' c d z hcd hz).imp id (·.later hcd hlater)
  · intro s' i h1 h2
    rw [hrec, if_neg]
    · exact hm.other s' i h1 h2
    · rintro ⟨_, rfl⟩
      exact h1 b hf

/-- The right class takes over a record that it does not have. -/
theorem copy (ht : Apart τ g p q) (hf : Partners g p q a b) (hx : t.record s a = some x)
    (hn : t.record s b = none) (hz : g.root z = g.root x) (hzt : z < t.size) :
    Merging τ g p q pending (t.update b (s.write (some z))) ∧
      Later g p q t (t.update b (s.write (some z))) := by
  have hrec := record_update (t := t) (s := s) (hm.partners_lt ht hf).2 (some z)
  have hbg : g.record s b = none := by
    rcases hm.right s a b hf with h | ⟨h, _⟩
    · rw [← h, hn]
    · exact h
  have hleft : ∀ s' c d, Partners g p q c d →
      (t.update b (s.write (some z))).record s' c = t.record s' c := by
    intro s' c d hcd
    rw [hrec, if_neg]
    rintro ⟨_, rfl⟩
    exact ht.disjoint hcd hf
  have hlater : Later g p q t (t.update b (s.write (some z))) := by
    refine ⟨?_, ?_, ?_⟩
    · intro i j hij
      rw [root_write, root_write, hij]
    · intro s' c d hcd hc
      rw [hleft s' c d hcd, hc]
    · intro s' c d y _ hy
      rw [hrec, if_neg]
      · exact hy
      · rintro ⟨rfl, rfl⟩
        rw [hn] at hy
        cases hy
  refine ⟨hm.of_write (some z) ?_ rfl ?_ ?_ ?_ ?_, hlater⟩
  · intro j hj
    cases hj
    exact hzt
  · intro s' c d hcd
    rw [hleft s' c d hcd]
    exact hm.left s' c d hcd
  · intro s' c d hcd
    by_cases hsame : s' = s ∧ d = b
    · obtain ⟨rfl, rfl⟩ := hsame
      have hca := ht.left_unique hcd hf
      subst hca
      exact .inr ⟨hbg, x, z, hm.record_left hf hx, by rw [hrec, if_pos ⟨rfl, rfl⟩], hz⟩
    · rw [hrec, if_neg hsame]
      exact hm.right s' c d hcd
  · intro s' c d y hcd hy
    rw [root_write, hleft s' c d hcd]
    exact (hm.kept s' c d y hcd hy).imp id (·.later hcd hlater)
  · intro s' i h1 h2
    rw [hrec, if_neg]
    · exact hm.other s' i h1 h2
    · rintro ⟨_, rfl⟩
      exact h2 a hf

/-- The left class is linked to its partner when this has all its records. -/
theorem link (ht : Apart τ g p q) (hf : Partners g p q a b) (ha : t.root a = a)
    (hc : ∀ s x, g.record s a = some x → Carried g t pending s b x) {ty : Option TypeName}
    (hty : Fits ty (τ b)) :
    Merging τ g p q pending (t.joinRoots a b ty) ∧ Later g p q t (t.joinRoots a b ty) ∧
      (t.joinRoots a b ty).root a = b := by
  have hab := hf.2
  have hb := hm.root_right ht hf
  obtain ⟨hat, hbt⟩ := hm.partners_lt ht hf
  have hra := (isRoot_iff hm.wellFormed a).mpr ha
  have hrb := (isRoot_iff hm.wellFormed b).mpr hb
  have hroot := root_joinRoots hm.wellFormed a b ty hra hrb hab hat hbt
  have hlater : Later g p q t (t.joinRoots a b ty) := by
    refine ⟨?_, ?_, ?_⟩
    · intro i j hij
      rw [hroot, hroot, hij]
    · intro s c d _ hn
      rw [record_joinRoots, hn]
    · intro s c d z _ hz
      rw [record_joinRoots, hz]
  refine ⟨⟨?_, ?_, ?_, ?_, ?_, ?_, ?_, ?_, ?_⟩, hlater, by rw [hroot, if_pos ha]⟩
  · exact joinRoots_wellFormed hm.wellFormed a b ty hra hrb hab hat hbt
  · rw [size_joinRoots, hm.size_eq]
  · intro i
    rw [type_joinRoots t a b ty hat hbt]
    split
    · next hi =>
      rw [hi]
      exact hty
    · split
      · exact Fits.none _
      · exact hm.fits i
  · intro i j hij
    exact hlater.root_eq i j (hm.root_congr i j hij)
  · intro i
    rw [hroot]
    split
    · next hi =>
      right
      rcases hm.root_eq i with h | h
      · rw [← h, hi]
        exact hf
      · rw [hi] at h
        exact (ht.disjoint hf h).elim
    · exact hm.root_eq i
  · intro s c d hcd
    rw [record_joinRoots]
    exact hm.left s c d hcd
  · intro s c d hcd
    rw [record_joinRoots]
    exact hm.right s c d hcd
  · intro s c d z hcd hz
    by_cases hca : c = a
    · subst hca
      have hdb := ht.right_unique hcd hf
      subst hdb
      exact .inr ((hc s z hz).later hf hlater)
    · refine (hm.kept s c d z hcd hz).imp ?_ (·.later hcd hlater)
      rintro ⟨hroot', hrec⟩
      rw [hroot, hroot', if_neg hca, record_joinRoots]
      exact ⟨rfl, hrec⟩
  · intro s i h1 h2
    rw [record_joinRoots]
    exact hm.other s i h1 h2

end

/-- A class that is linked to its partner is no longer pending. -/
theorem settle (ht : Apart τ g p q) (hf : Partners g p q a b)
    (hm : Merging τ g p q (fun i => pending i ∨ i = a) t) (ha : t.root a = b) :
    Merging τ g p q pending t := by
  refine { hm with kept := ?_ }
  intro s c d x hcd hx
  rcases hm.kept s c d x hcd hx with hstill | ⟨y, hy, hroot⟩
  · exact .inl hstill
  · refine .inr ⟨y, hy, ?_⟩
    rcases hroot with hroot | hpend | hxa
    · exact .inl hroot
    · exact .inr hpend
    · left
      have hxb : t.root x = b := by
        rw [← ha]
        refine hm.root_congr x a ?_
        rw [hxa, root_of_isRoot g a (hf.isRoot ht.wellFormed).1]
      rcases hm.right s c d hcd with h | ⟨_, x', z, hx', hz, hzx⟩
      · rw [h] at hy
        rcases hcd.record hx hy with hxy | hsame
        · rw [hxa] at hxy
          have hyb := ht.right_unique hxy hf
          rw [hxb, ← hm.root_right ht hf]
          refine hm.root_congr y b ?_
          rw [hyb, root_of_isRoot g b (hf.isRoot ht.wellFormed).2]
        · exact hm.root_congr y x hsame.symm
      · rw [hx] at hx'
        rw [hy] at hz
        cases hx'
        cases hz
        exact hm.root_congr y x hzx

end Merging

/-! ## How long it takes -/

open Classical in
/-- The number of records on the left. Every nested merge starts by giving up one of them. -/
noncomputable def load (g : TypeGraph) (p q : NodeId) (t : TypeGraph) : Nat :=
  (((Finset.range g.size) ×ˢ {Slot.element, Slot.container}).filter fun is =>
    (∃ b, Partners g p q is.1 b) ∧ t.record is.2 is.1 ≠ none).card

theorem load_le (g : TypeGraph) (p q : NodeId) (t : TypeGraph) : load g p q t ≤ g.size * 2 := by
  classical
  refine (Finset.card_filter_le _ _).trans ?_
  rw [Finset.card_product, Finset.card_range]
  exact Nat.mul_le_mul_left _ (by decide)

/-- There are no new records on the left. -/
theorem Later.counts (hl : Later g p q t u) {is : NodeId × Slot}
    (h : (∃ b, Partners g p q is.1 b) ∧ u.record is.2 is.1 ≠ none) :
    (∃ b, Partners g p q is.1 b) ∧ t.record is.2 is.1 ≠ none := by
  obtain ⟨⟨b, hf⟩, hrec⟩ := h
  exact ⟨⟨b, hf⟩, fun hn => hrec (hl.left _ _ b hf hn)⟩

theorem Later.load_le (hl : Later g p q t u) : load g p q u ≤ load g p q t := by
  classical
  exact Finset.card_le_card (Finset.monotone_filter_right _ fun _ _ => hl.counts)

/-- A record given up counts. -/
theorem Later.load_lt (hl : Later g p q t u) (ht : Apart τ g p q) (hf : Partners g p q a b)
    (hx : t.record s a = some x) (hn : u.record s a = none) : load g p q u < load g p q t := by
  classical
  refine Finset.card_lt_card ?_
  refine (Finset.ssubset_iff_of_subset ?_).mpr ⟨(a, s), ?_, ?_⟩
  · exact Finset.monotone_filter_right _ fun _ _ => hl.counts
  · rw [Finset.mem_filter, Finset.mem_product, Finset.mem_range]
    refine ⟨⟨(ht.partners_lt hf).1, ?_⟩, ⟨b, hf⟩, by simp [hx]⟩
    cases s <;> simp
  · rw [Finset.mem_filter]
    exact fun h => h.2.2 hn

/-! ## The merge -/

/-- A merge with this fuel joins partners on the way, as long as there is fuel for every record that
may be given up. -/
def MergesPartners (τ : NodeId → TypeName) (g : TypeGraph) (p q : NodeId) (fuel : Nat) : Prop :=
  ∀ t pending x y, Merging τ g p q (fun i => pending i ∨ i = g.root x) t →
    Partners g p q (g.root x) (g.root y) → load g p q t < fuel →
    Succeeds (merge fuel x y) t (fun _ u =>
      Merging τ g p q pending u ∧ Later g p q t u ∧ u.root x = u.root y)

theorem succeeds_find (ht : t.WellFormed) (i : NodeId) : Succeeds (find i : UnifyM NodeId) t
      (fun r u => r = t.root i ∧ u.WellFormed ∧ SameClasses t u) :=
  ⟨rfl, compress_wellFormed ht i, compress_sameClasses ht i⟩

theorem succeeds_merge_same (ht : t.WellFormed) (h : t.root x = t.root y) (fuel : Nat) :
    Succeeds (merge fuel x y) t (fun _ u => u.WellFormed ∧ SameClasses t u) := by
  cases fuel with
  | zero => exact ⟨ht, SameClasses.refl t⟩
  | succ fuel =>
    rw [merge_succ]
    refine .bind (succeeds_find ht x) ?_
    rintro a t1 ⟨rfl, hw1, hs1⟩
    refine .bind (succeeds_find hw1 y) ?_
    rintro b t2 ⟨rfl, hw2, hs2⟩
    rw [if_pos (by rw [hs1.root_eq, h])]
    exact ⟨hw2, hs1.trans hs2⟩

/-- After its records are merged, the left class has left them to its partner. -/
theorem succeeds_mergeRecords (ht : Apart τ g p q) {fuel : Nat}
    (hfuel : MergesPartners τ g p q fuel) (hm : Merging τ g p q pending t) (hf : Partners g p q a b)
    (hload : load g p q t ≤ fuel) (s : Slot) :
    Succeeds (mergeRecords s (merge fuel) a b) t (fun _ u =>
      Merging τ g p q pending u ∧ Later g p q t u ∧
        ∀ x, g.record s a = some x → Carried g u pending s b x) := by
  unfold mergeRecords
  refine .bind_get ?_
  split
  · next x y hx hy =>
    have hxg := hm.record_left hf hx
    refine .bind_set _ ?_
    rcases hm.partner_records hf hx hy with hforced | hsame
    · -- the merge of the recorded classes is pending while it runs
      have hm' : Merging τ g p q (fun i => pending i ∨ i = g.root x) t :=
        hm.mono (fun _ h => .inl h)
      obtain ⟨hclear, hlater⟩ := hm'.clear ht hf hx ⟨y, hy, .inr (.inr rfl)⟩
      have hgone : (t.update a (s.write none)).record s a = none := by
        rw [record_update (lt_size_of_record hx), if_pos ⟨rfl, rfl⟩]
      have hless := hlater.load_lt ht hf hx hgone
      refine Ensures.imp (hfuel _ pending x y hclear hforced (by omega)) ?_ (fun _ _ h => h)
      rintro _ u ⟨hu, hlu, hjoined⟩
      refine ⟨hu, hlater.trans hlu, ?_⟩
      intro x' hx'
      rw [hxg] at hx'
      cases hx'
      exact ⟨y, (hlater.trans hlu).right s a b y hf hy, .inl hjoined.symm⟩
    · have hroot := hm.root_congr x y hsame
      obtain ⟨hclear, hlater⟩ := hm.clear ht hf hx ⟨y, hy, .inl hroot.symm⟩
      have hroot' := hlater.root_eq x y hroot
      refine Ensures.imp (succeeds_merge_same hclear.wellFormed hroot' fuel) ?_ (fun _ _ h => h)
      rintro _ u ⟨hw, hs⟩
      have hlu := hlater.trans (Later.of_sameClasses hs)
      refine ⟨hclear.of_sameClasses hw hs, hlu, ?_⟩
      intro x' hx'
      rw [hxg] at hx'
      cases hx'
      exact ⟨y, hlu.right s a b y hf hy, .inl (hlu.root_eq y x hroot.symm)⟩
  · next x hx hn =>
    obtain ⟨hcopy, hlater⟩ := hm.copy ht hf hx hn rfl (hm.wellFormed.record_lt hx)
    refine ⟨hcopy, hlater, ?_⟩
    intro x' hx'
    rw [hm.record_left hf hx] at hx'
    cases hx'
    refine ⟨x, ?_, .inl rfl⟩
    rw [record_update (hm.partners_lt ht hf).2, if_pos ⟨rfl, rfl⟩]
  · next hn =>
    refine ⟨hm, Later.refl g p q t, ?_⟩
    intro x hx
    rcases hm.kept s a b x hf hx with ⟨_, h⟩ | h
    · rw [hn] at h
      cases h
    · exact h

/-- The end of a merge, when the right class has all the records. -/
theorem succeeds_linkFound (ht : Apart τ g p q) (hm : Merging τ g p q pending t)
    (hf : Partners g p q a b) (hc : ∀ s x, g.record s a = some x → Carried g t pending s b x) :
    Succeeds (linkFound a b) t (fun _ u =>
      Merging τ g p q pending u ∧ Later g p q t u ∧ u.root a = b) := by
  unfold linkFound
  refine .bind (succeeds_find hm.wellFormed a) ?_
  rintro _ t1 ⟨rfl, hw1, hs1⟩
  refine .bind (succeeds_find hw1 b) ?_
  rintro _ t2 ⟨rfl, hw2, hs2⟩
  have hs := hs1.trans hs2
  have hm2 := hm.of_sameClasses hw2 hs
  have hl2 : Later g p q t t2 := Later.of_sameClasses hs
  have hb := hm.root_right ht hf
  rw [hs1.root_eq, hb]
  split
  · next hab => exact ⟨hm2, hl2, by rw [hs.root_eq, hab]⟩
  · next hab =>
    have ha := (hm.root_left ht hf).resolve_right hab
    obtain ⟨ty, hty, hfits⟩ := hm2.unify_partners ht hf
    have hlink := hm2.link ht hf (by rw [hs.root_eq, ha])
      (fun s x hx => (hc s x hx).later hf hl2) hfits
    unfold Ensures
    rw [ha, linkRoots_eq, hty]
    exact ⟨hlink.1, hl2.trans hlink.2.1, hlink.2.2⟩

theorem mergesPartners (ht : Apart τ g p q) (fuel : Nat) : MergesPartners τ g p q fuel := by
  induction fuel with
  | zero => exact fun _ _ _ _ _ _ hload => absurd hload (Nat.not_lt_zero _)
  | succ fuel ih =>
    intro t pending x y hm hf hload
    rw [merge_succ]
    refine .bind (succeeds_find hm.wellFormed x) ?_
    rintro a t1 ⟨rfl, hw1, hs1⟩
    refine .bind (succeeds_find hw1 y) ?_
    rintro b t2 ⟨rfl, hw2, hs2⟩
    have hs := hs1.trans hs2
    have hm2 := hm.of_sameClasses hw2 hs
    have hl2 : Later g p q t t2 := Later.of_sameClasses hs
    have hyb : t.root y = g.root y := by
      rw [hm.root_congr y (g.root y) (root_root ht.wellFormed y).symm, hm.root_right ht hf]
    have hxa : t.root x = t.root (g.root x) :=
      hm.root_congr x (g.root x) (root_root ht.wellFormed x).symm
    rw [hs1.root_eq, hyb, hxa]
    split
    · next hab =>
      refine ⟨Merging.settle ht hf hm2 (by rw [hs.root_eq, hab]), hl2, ?_⟩
      rw [hs.root_eq, hs.root_eq, hxa, hab, hyb]
    · next hab =>
      rw [(hm.root_left ht hf).resolve_right hab]
      obtain ⟨ty, hty, -⟩ := hm2.unify_partners ht hf
      have hunify : unifyRoots (g.root x) (g.root y) t2 = .ok ty t2 := by
        unfold unifyRoots
        rw [hty]
      refine Succeeds.bind_of_ok hunify ?_
      rw [mergeElements_eq, mergeContainers_eq]
      have hload2 := hl2.load_le
      refine .bind (succeeds_mergeRecords ht ih hm2 hf (by omega) .element) ?_
      rintro _ t3 ⟨hm3, hl3, hc3⟩
      have hload3 := hl3.load_le
      refine .bind (succeeds_mergeRecords ht ih hm3 hf (by omega) .container) ?_
      rintro _ t4 ⟨hm4, hl4, hc4⟩
      have hc : ∀ s z, g.record s (g.root x) = some z →
          Carried g t4 (fun i => pending i ∨ i = g.root x) s (g.root y) z := by
        intro s z hz
        cases s with
        | element => exact (hc3 z hz).later hf hl4
        | container => exact hc4 z hz
      refine Ensures.imp (succeeds_linkFound ht hm4 hf hc) ?_ (fun _ _ h => h)
      rintro _ u ⟨hu, hlu, hroot⟩
      have hl := ((hl2.trans hl3).trans hl4).trans hlu
      refine ⟨Merging.settle ht hf hu hroot, hl, ?_⟩
      rw [hu.root_congr x (g.root x) (root_root ht.wellFormed x).symm, hroot,
        hu.root_congr y (g.root y) (root_root ht.wellFormed y).symm, hu.root_right ht hf]

/-! ## Where it ends -/

/-- The class of `i` records the class of `j`. -/
def Records (g : TypeGraph) (s : Slot) (i j : NodeId) : Prop :=
  ∃ x, g.record s (g.root i) = some x ∧ g.root x = g.root j

/-- Classes stay together, and what they record is not lost. -/
structure Keeps (g h : TypeGraph) : Prop where
  root_eq : ∀ i j, g.root i = g.root j → h.root i = h.root j
  records : ∀ s i j, Records g s i j → Records h s i j

namespace Merging

/-- The graph agrees with the assignment all the way. -/
theorem models (hm : Merging τ g p q pending t) (ht : Apart τ g p q) : Models τ t := by
  have hτ := ht.models
  refine ⟨?_, hm.fits, ?_⟩
  · intro i
    rcases hm.root_eq i with h | h
    · rw [h, hτ.root_eq]
    · rw [← h.1.type_eq hτ ht.type_eq, hτ.root_eq]
  · intro s i x hx
    by_cases hleft : ∃ b, Partners g p q i b
    · obtain ⟨b, hf⟩ := hleft
      rcases hm.left s i b hf with h | h
      · rw [h] at hx
        exact hτ.relates s i x hx
      · rw [h] at hx
        cases hx
    · by_cases hright : ∃ a, Partners g p q a i
      · obtain ⟨a, hf⟩ := hright
        rcases hm.right s a i hf with h | ⟨_, x', z, hx', hz, hroot⟩
        · rw [h] at hx
          exact hτ.relates s i x hx
        · rw [hx] at hz
          cases hz
          have hrel := hτ.relates s a x' hx'
          rwa [hf.1.type_eq hτ ht.type_eq, ← hτ.root_eq x', ← hroot, hτ.root_eq] at hrel
      · rw [hm.other s i (fun c hc => hleft ⟨c, hc⟩) (fun c hc => hright ⟨c, hc⟩)] at hx
        exact hτ.relates s i x hx

variable (hm : Merging τ g p q (fun _ => False) t)
include hm

/-- When nothing is pending, all partners are linked. -/
theorem linked (ht : Apart τ g p q) (hpq : t.root p = t.root q) (hf : Partners g p q a b) :
    t.root a = b := by
  have hbelow : ∀ i, t.root (g.root i) = t.root i :=
    fun i => hm.root_congr _ i (root_root ht.wellFormed i)
  obtain ⟨hf, hab⟩ := hf
  -- from partners that are linked to those that they record
  induction hf using Forced.induction_record with
  | start => rw [hbelow, hpq, ← hbelow, hm.root_right ht ht.start]
  | record s hcd hne hx hy ih =>
    rcases hm.kept s _ _ _ ⟨hcd, hne⟩ hx with ⟨hc, _⟩ | ⟨z, hz, hroot | hfalse⟩
    · exact absurd (hc.symm.trans (ih hne)) hne
    · rcases hm.right s _ _ ⟨hcd, hne⟩ with h | ⟨hnone, _⟩
      · rw [h, hy] at hz
        cases hz
        rw [hbelow, ← hroot, ← hbelow, hm.root_right ht ⟨hcd.record hne hx hy, hab⟩]
      · rw [hnone] at hy
        cases hy
    · exact hfalse.elim

theorem keeps (ht : Apart τ g p q) (hpq : t.root p = t.root q) : Keeps g t := by
  refine ⟨hm.root_congr, ?_⟩
  rintro s i j ⟨x, hx, hxj⟩
  have hr := isRoot_root ht.wellFormed i
  unfold Records
  rw [hm.root_congr i (g.root i) (root_root ht.wellFormed i).symm, ← hm.root_congr x j hxj]
  generalize g.root i = r at hr hx ⊢
  by_cases hleft : ∃ b, Partners g p q r b
  · obtain ⟨b, hf⟩ := hleft
    have hlink := hm.linked ht hpq hf
    rcases hm.kept s r b x hf hx with ⟨hsame, _⟩ | ⟨z, hz, hroot | hfalse⟩
    · exact absurd (hsame.symm.trans hlink) hf.2
    · rw [hlink]
      exact ⟨z, hz, hroot⟩
    · exact hfalse.elim
  · have hsame : t.root r = r := by
      have h := hm.root_eq r
      rw [root_of_isRoot g r hr] at h
      exact h.resolve_right (fun hf => hleft ⟨_, hf⟩)
    rw [hsame]
    refine ⟨x, ?_, rfl⟩
    by_cases hright : ∃ a, Partners g p q a r
    · obtain ⟨a, hf⟩ := hright
      rcases hm.right s a r hf with h | ⟨hnone, _⟩
      · rw [h, hx]
      · rw [hnone] at hx
        cases hx
    · rw [hm.other s r (fun c hc => hleft ⟨c, hc⟩) (fun c hc => hright ⟨c, hc⟩), hx]

end Merging

end TypeGraph

end BlockProgram
