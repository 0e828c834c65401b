import BlockProgram.Proofs.TypeGraph.Check

/-!
# Partners in a union

A root records the class of its elements and the class of a list it is an element of (`Slot`). A
graph agrees with an assignment of types to its nodes (`Models`) if the types of its classes fit it
and a list is recorded only beside elements of its item type. The check of a union of two nodes of
one type never refuses it then (`Models.not_clashes`).

Different classes that a union forces together are `Partners`. In a union that is `OneToOne` each
class has at most one partner. Most unions are: it takes links that are recorded on one side only to
force a class together with two others.
-/

namespace BlockProgram

variable {p q : NodeId}

/-! ## Type names -/

namespace TypeName

theorem length_listOf (t : TypeName) : String.length (listOf t) = String.length t + 2 := by
  unfold listOf
  rw [String.length_append]
  rfl

theorem element?_listOf (t : TypeName) : element? (listOf t) = some t := by
  have hrev : (listOf t).toList.reverse = ']' :: '[' :: t.toList.reverse := by
    simp [listOf]
  unfold element?
  rw [hrev]
  simp

theorem listOf_injective {s t : TypeName} (h : listOf s = listOf t) : s = t := by
  have hs := element?_listOf s
  rw [h, element?_listOf] at hs
  exact (Option.some.inj hs).symm

end TypeName

namespace TypeGraph

/-- What a class carries can become type `t`. -/
def Fits (type : Option TypeName) (t : TypeName) : Prop :=
  ∀ s, type = some s → s = t ∨ (s = TypeName.array ∧ TypeName.isArray t = true)

theorem Fits.none (t : TypeName) : Fits none t :=
  fun _ h => by cases h

theorem Fits.self (t : TypeName) : Fits (some t) t :=
  fun _ h => .inl (Option.some.inj h).symm

/-- Types that fit one type unify, and their common type fits it too. -/
theorem Fits.unify {s u : Option TypeName} {t : TypeName} (hs : Fits s t) (hu : Fits u t) :
    ∃ v, TypeName.unify s u = .ok v ∧ Fits v t := by
  cases s with
  | none => exact ⟨u, by simp [TypeName.unify], hu⟩
  | some a =>
    cases u with
    | none => exact ⟨some a, by simp [TypeName.unify], hs⟩
    | some b =>
      rcases hs a rfl with rfl | ⟨rfl, ht⟩
      · rcases hu b rfl with rfl | ⟨rfl, ht⟩
        · exact ⟨_, unify_self _, hs⟩
        · refine ⟨some a, ?_, hs⟩
          simp only [TypeName.unify, ht, and_true]
          split
          · next ha => rw [ha.1]
          · simp
      · rcases hu b rfl with rfl | ⟨rfl, _⟩
        · exact ⟨some b, by simp [TypeName.unify, ht], hu⟩
        · exact ⟨_, unify_self _, hs⟩

/-- A settled type that fits is the type itself. -/
theorem Fits.eq_of_settled {s t : TypeName} (h : Fits (some s) t) (hs : s ≠ .array) :
    s = t := by
  rcases h s rfl with h | ⟨h, _⟩
  · exact h
  · exact absurd h hs

/-! ## Records -/

namespace Slot

/-- A class of type `t` records one of type `u`. -/
def Relates : Slot → TypeName → TypeName → Prop
  | element, t, u => t = TypeName.listOf u
  | container, t, u => u = TypeName.listOf t

instance decidableRelates (s : Slot) (t u : TypeName) : Decidable (s.Relates t u) :=
  match s with
  | element => inferInstanceAs (Decidable (t = TypeName.listOf u))
  | container => inferInstanceAs (Decidable (u = TypeName.listOf t))

theorem Relates.unique {s : Slot} {t u v : TypeName} (hu : s.Relates t u) (hv : s.Relates t v) :
    u = v := by
  cases s with
  | element => exact TypeName.listOf_injective (hu.symm.trans hv)
  | container => exact hu.trans hv.symm

end Slot

variable {g h : TypeGraph} {s : Slot} {r x y k a b i : NodeId}

/-- The graph agrees with an assignment of types to its nodes. -/
structure Models (τ : NodeId → TypeName) (g : TypeGraph) : Prop where
  root_eq : ∀ i, τ (g.root i) = τ i
  fits : ∀ i, Fits (g.node i).type (τ i)
  relates : ∀ s i x, g.record s i = some x → s.Relates (τ i) (τ x)

/-- Nodes that do not exist agree with every assignment. -/
theorem Models.of_lt {τ : NodeId → TypeName} (h : ∀ i < g.size, τ (g.root i) = τ i ∧
      (∀ t ∈ (g.node i).type, t = τ i ∨ (t = TypeName.array ∧ TypeName.isArray (τ i) = true)) ∧
      ∀ s ∈ [Slot.element, Slot.container], ∀ x ∈ g.record s i, s.Relates (τ i) (τ x)) :
    Models τ g := by
  refine ⟨fun i => ?_, fun i => ?_, fun s i x hx => ?_⟩
  all_goals rcases Nat.lt_or_ge i g.size with hi | hi
  · exact (h i hi).1
  · rw [root_of_size_le g i hi]
  · exact (h i hi).2.1
  · rw [node_eq_default g i hi]
    exact Fits.none _
  · exact (h i hi).2.2 s (by cases s <;> simp) x hx
  · unfold record at hx
    rw [node_eq_default g i hi] at hx
    cases s <;> cases hx

/-- The same classes with the same types and records. -/
structure Alike (g h : TypeGraph) : Prop where
  size_eq : h.size = g.size
  root_eq : ∀ i, h.root i = g.root i
  type_eq : ∀ i, (h.node i).type = (g.node i).type
  record_eq : ∀ s i, h.record s i = g.record s i

theorem SameClasses.alike (hs : SameClasses g h) : Alike g h :=
  ⟨hs.size_eq, hs.root_eq, hs.type_eq, hs.record_eq⟩

theorem Models.of_alike {τ : NodeId → TypeName} (hm : Models τ g) (ha : Alike g h) :
    Models τ h where
  root_eq i := by rw [ha.root_eq, hm.root_eq]
  fits i := by
    rw [ha.type_eq]
    exact hm.fits i
  relates s i x hx := by
    rw [ha.record_eq] at hx
    exact hm.relates s i x hx

section Typed

variable {τ : NodeId → TypeName}

/-! ## Classes forced together -/

theorem Forced.record {p q : NodeId} (h : Forced g p q a b) (hab : a ≠ b)
    (hx : g.record s a = some x) (hy : g.record s b = some y) :
    Forced g p q (g.root x) (g.root y) := by
  cases s with
  | element => exact h.element hab hx hy
  | container => exact h.container hab hx hy

/-- Induction over pairs forced together, on whichever side the next pair is recorded. -/
@[elab_as_elim]
theorem Forced.induction_record {p q : NodeId} {motive : ∀ a b, Forced g p q a b → Prop}
    (start : motive _ _ .start)
    (record : ∀ s {a b x y} (hf : Forced g p q a b) (hne : a ≠ b) (hx : g.record s a = some x)
      (hy : g.record s b = some y), motive a b hf → motive _ _ (hf.record hne hx hy))
    (h : Forced g p q a b) : motive a b h := by
  induction h with
  | start => exact start
  | element hf hne hx hy ih => exact record .element hf hne hx hy ih
  | container hf hne hx hy ih => exact record .container hf hne hx hy ih

/-- Only classes of one type are forced together. -/
theorem Forced.type_eq (hτ : Models τ g) (hpq : τ p = τ q) (h : Forced g p q a b) : τ a = τ b := by
  induction h using Forced.induction_record with
  | start => rw [hτ.root_eq, hτ.root_eq, hpq]
  | record s _ _ hx hy ih =>
    rw [hτ.root_eq, hτ.root_eq]
    have hxa := hτ.relates s _ _ hx
    rw [ih] at hxa
    exact hxa.unique (hτ.relates s _ _ hy)

theorem Models.not_clashes (hτ : Models τ g) (hpq : τ p = τ q) : ¬ Clashes g p q := by
  rintro ⟨a, b, e, hf, he⟩
  have hfit := hτ.fits a
  rw [hf.type_eq hτ hpq] at hfit
  obtain ⟨v, hv, _⟩ := hfit.unify (hτ.fits b)
  rw [hv] at he
  cases he

/-! ## Partners -/

/-- Different classes that joining `p` and `q` forces together. -/
def Partners (g : TypeGraph) (p q a b : NodeId) : Prop :=
  Forced g p q a b ∧ a ≠ b

/-- What partners record on one side are partners again, or one class. -/
theorem Partners.record (h : Partners g p q a b) (hx : g.record s a = some x)
    (hy : g.record s b = some y) :
    Partners g p q (g.root x) (g.root y) ∨ g.root x = g.root y := by
  by_cases hxy : g.root x = g.root y
  · exact .inr hxy
  · exact .inl ⟨h.1.record h.2 hx hy, hxy⟩

theorem Partners.isRoot (hg : g.WellFormed) (h : Partners g p q a b) :
    g.IsRoot a ∧ g.IsRoot b := by
  induction h.1 using Forced.induction_record with
  | start => exact ⟨isRoot_root hg p, isRoot_root hg q⟩
  | record => exact ⟨isRoot_root hg _, isRoot_root hg _⟩

/-- No class takes part in two of the pairs that joining `p` and `q` forces together. -/
structure OneToOne (g : TypeGraph) (p q : NodeId) : Prop where
  left_unique : ∀ {a b c}, Partners g p q a c → Partners g p q b c → a = b
  right_unique : ∀ {a b c}, Partners g p q a b → Partners g p q a c → b = c
  disjoint : ∀ {a b c}, Partners g p q a b → ¬ Partners g p q c a

/-- Partners hang on the classes only, and on those of the two nodes. -/
theorem Partners.of_sameClasses {p' q' : NodeId} (hs : SameClasses g h) (hp : g.root p' = g.root p)
    (hq : g.root q' = g.root q) (hab : Partners h p' q' a b) : Partners g p q a b := by
  obtain ⟨hf, hne⟩ := hab
  refine ⟨?_, hne⟩
  clear hne
  induction hf using Forced.induction_record with
  | start =>
    rw [hs.root_eq, hs.root_eq, hp, hq]
    exact .start
  | record s _ hne hx hy ih =>
    rw [hs.record_eq] at hx hy
    rw [hs.root_eq, hs.root_eq]
    exact ih.record hne hx hy

theorem OneToOne.of_sameClasses {p' q' : NodeId} (ho : OneToOne g p q) (hs : SameClasses g h)
    (hp : g.root p' = g.root p) (hq : g.root q' = g.root q) : OneToOne h p' q' where
  left_unique h1 h2 := ho.left_unique (h1.of_sameClasses hs hp hq) (h2.of_sameClasses hs hp hq)
  right_unique h1 h2 := ho.right_unique (h1.of_sameClasses hs hp hq) (h2.of_sameClasses hs hp hq)
  disjoint h1 h2 := ho.disjoint (h1.of_sameClasses hs hp hq) (h2.of_sameClasses hs hp hq)

/-- Two classes of one type with at most one partner for each class that their union joins. -/
structure Apart (τ : NodeId → TypeName) (g : TypeGraph) (p q : NodeId) : Prop
    extends OneToOne g p q where
  wellFormed : g.WellFormed
  models : Models τ g
  left_lt : p < g.size
  right_lt : q < g.size
  type_eq : τ p = τ q
  root_ne : g.root p ≠ g.root q

namespace Apart

variable (ht : Apart τ g p q)
include ht

theorem start : Partners g p q (g.root p) (g.root q) :=
  ⟨Forced.start, ht.root_ne⟩

theorem partners_lt (h : Partners g p q a b) : a < g.size ∧ b < g.size := by
  have hg := ht.wellFormed
  induction h.1 using Forced.induction_record with
  | start => exact ⟨root_lt hg p ht.left_lt, root_lt hg q ht.right_lt⟩
  | record _ _ _ hx hy _ =>
    exact ⟨root_lt hg _ (hg.record_lt hx), root_lt hg _ (hg.record_lt hy)⟩

end Apart

end Typed

end TypeGraph

end BlockProgram
