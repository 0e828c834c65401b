import BlockProgram.Proofs.TypeGraph.Duality
import BlockProgram.Proofs.TypeGraph.Requests
import BlockProgram.Proofs.TypeGraph.Vocabulary

/-!
# Resolution fills in what lists and elements tell

Resolving a class follows the records of lists and elements, through rings of them as well, and
writes types into the classes it passes. It writes only where the type is open, and only what the
list of the class or its elements tell it (`Tells`). A class that tells something has a settled
type, which nothing later changes, so whatever was told on the way is still told in the end
(`Informed.trans`).

* `wellFormed_iff_acyclic`: a rank along the links is the same as no way along links that comes
  back.
* `resolve_informed`: what resolution does to any such graph.
-/

namespace BlockProgram.TypeGraph

open Relation

variable {g h k : TypeGraph} {i j r x : NodeId} {s : Slot} {t : TypeName}

/-! ## Links that do not come back -/

def LinksTo (g : TypeGraph) (i j : NodeId) : Prop :=
  (g.node i).link = some j

/-- All nodes that others are linked to or record exist, and no way along links comes back. -/
structure Acyclic (g : TypeGraph) : Prop where
  link_lt : ∀ i j, g.LinksTo i j → j < g.size
  record_lt : ∀ s i x, g.record s i = some x → x < g.size
  acyclic : ∀ i, ¬ Relation.TransGen g.LinksTo i i

open Classical in
/-- The number of nodes from which links lead to `i`. -/
noncomputable def lowerCount (g : TypeGraph) (i : NodeId) : Nat :=
  ((Finset.range g.size).filter fun k => TransGen g.LinksTo k i).card

theorem lowerCount_lt (hg : ∀ i, ¬ TransGen g.LinksTo i i) (hij : g.LinksTo i j) :
    g.lowerCount i < g.lowerCount j := by
  classical
  unfold lowerCount
  apply Finset.card_lt_card
  rw [Finset.ssubset_iff_of_subset]
  · refine ⟨i, ?_, ?_⟩
    · rw [Finset.mem_filter, Finset.mem_range]
      exact ⟨lt_size_of_link g i j hij, .single hij⟩
    · rw [Finset.mem_filter]
      exact fun hi => hg i hi.2
  · intro k hk
    rw [Finset.mem_filter] at hk ⊢
    exact ⟨hk.1, hk.2.tail hij⟩

theorem rank_lt_of_transGen {rank : NodeId → Nat}
    (hrank : ∀ i j, (g.node i).link = some j → rank i < rank j)
    (h : TransGen g.LinksTo i j) : rank i < rank j := by
  induction h with
  | single hij => exact hrank _ _ hij
  | tail _ hjk ih => exact lt_trans ih (hrank _ _ hjk)

theorem wellFormed_iff_acyclic : g.WellFormed ↔ g.Acyclic := by
  constructor
  · intro hg
    obtain ⟨rank, hrank⟩ := hg.ranked
    refine ⟨hg.link_lt, fun s i x hx => hg.record_lt hx, ?_⟩
    intro i hi
    exact lt_irrefl _ (rank_lt_of_transGen hrank hi)
  · intro hg
    refine ⟨hg.link_lt, hg.record_lt .element, hg.record_lt .container, g.lowerCount, ?_⟩
    intro i j hij
    exact lowerCount_lt hg.acyclic hij

/-! ## What a class is told -/

/-- The class of `i` is told that its type is `t`: its list has type `t[]`, or `t` is the type of a
list of its elements. -/
def Tells (g : TypeGraph) (i : NodeId) (t : TypeName) : Prop :=
  (∃ x, (g.node (g.root i)).container = some x ∧ g.typeAt x = some (TypeName.listOf t)) ∨
    ∃ x u, (g.node (g.root i)).element = some x ∧ g.typeAt x = some u ∧ u ≠ TypeName.array ∧
      t = TypeName.listOf u

theorem given_container_iff : given .container g r = some t ↔
    (g.node r).type = some (.listOf t) := by
  rw [given_container]
  constructor
  · rintro ⟨u, hu, ht⟩
    rw [hu, TypeName.eq_listOf_of_element? ht]
  · intro hr
    exact ⟨_, hr, TypeName.element?_listOf t⟩

theorem tells_iff : g.Tells i t ↔
    ∃ s x, g.record s (g.root i) = some x ∧ given s g (g.root x) = some t := by
  constructor
  · rintro (⟨x, hx, ht⟩ | ⟨x, u, hx, hu, hne, rfl⟩)
    · exact ⟨.container, x, hx, given_container_iff.mpr ht⟩
    · exact ⟨.element, x, hx, given_element.mpr ⟨u, hu, hne, rfl⟩⟩
  · rintro ⟨s, x, hx, ht⟩
    cases s with
    | container => exact .inl ⟨x, hx, given_container_iff.mp ht⟩
    | element =>
      obtain ⟨u, hu, hne, ht⟩ := given_element.mp ht
      exact .inr ⟨x, u, hx, hu, hne, ht.symm⟩

/-! ## What resolution does -/

/-- Every type that is new was told. -/
theorem Informed.tells_of_ne (hf : Informed g h) (hne : h.typeAt i ≠ g.typeAt i) :
    ∃ t, h.typeAt i = some t ∧ h.Tells i t := by
  unfold typeAt at hne ⊢
  rw [hf.root_eq] at hne ⊢
  rcases hf.tells (g.root i) with hsame | ⟨s, x, t, ht, hx, hgiven⟩
  · exact absurd hsame hne
  · exact ⟨t, ht, tells_iff.mpr ⟨s, x, by rw [hf.root_eq, hx], hgiven⟩⟩

/-- On a graph whose nodes exist and whose links do not come back, resolution ends, whatever rings
lists and elements form, and returns the root. It keeps all classes, all records and all settled
types, and every class whose type it changes is told that type in the end. The class that it is
asked for gets a type if it is told one. -/
theorem resolve_informed (g : TypeGraph) (hg : g.Acyclic) (i : NodeId) (hi : i < g.size) :
    ∃ h, resolve i g = ((find i g).1, h) ∧
      (∀ clock, ticks g.size < clock → Clocked.resolve clock i g = some ((find i g).1, h)) ∧
      (∀ j, h.root j = g.root j) ∧
      (∀ j, (h.node j).element = (g.node j).element ∧
        (h.node j).container = (g.node j).container) ∧
      (∀ j t, (g.node j).type = some t → t ≠ TypeName.array → (h.node j).type = some t) ∧
      (∀ j, h.typeAt j ≠ g.typeAt j → ∃ t, h.typeAt j = some t ∧ h.Tells j t) ∧
      (TypeName.isOpen (g.typeAt i) = true → (∃ t, g.Tells i t) →
        ∃ t, h.typeAt i = some t ∧ h.Tells i t) := by
  have hw := wellFormed_iff_acyclic.mpr hg
  obtain ⟨_, hroot, htold⟩ := runs_resolve_informs hw i
  have hf := informed_resolve hw i
  have hrun : resolve i g = ((find i g).1, (resolve i g).2) :=
    Prod.ext hroot rfl
  refine ⟨(resolve i g).2, hrun, ?_, hf.root_eq, ?_, hf.type_eq,
    fun j hj => hf.tells_of_ne hj, ?_⟩
  · intro clock hclock
    rw [← hrun]
    exact ends_resolve hw hclock i hi
  · intro j
    exact ⟨hf.record_eq .element j, hf.record_eq .container j⟩
  · rintro ho ⟨t, ht⟩
    obtain ⟨s, x, hx, hgiven⟩ := tells_iff.mp ht
    obtain ⟨s, x, t, ht, hx, hgiven⟩ := htold ho ⟨s, x, t, hx, hgiven⟩
    rw [← hf.root_eq] at ht hx
    exact ⟨t, ht, tells_iff.mpr ⟨s, x, hx, hgiven⟩⟩

/-- Each of 4 and 5 is recorded as list and as element of the other, but that the elements of 4 are
numbers. -/
def numberRing : TypeGraph :=
  ⟨#[{ type := some .number }, { type := some .text },
     { type := some .boolean }, { type := some .void },
     { container := some 5, element := some 0 }, { container := some 4, element := some 4 }]⟩

theorem numberRing_acyclic : numberRing.Acyclic := by
  have hnodes : ∀ i < numberRing.size, (numberRing.node i).link = none ∧
      (numberRing.node i).element.all (· < 6) ∧ (numberRing.node i).container.all (· < 6) := by
    decide
  have hlink : ∀ i j, ¬ numberRing.LinksTo i j := by
    intro i j hij
    have hnone := (hnodes i (lt_size_of_link numberRing i j hij)).1
    cases hnone.symm.trans hij
  refine ⟨fun i j hij => absurd hij (hlink i j), ?_, ?_⟩
  · intro s i x hx
    obtain ⟨_, he, hc⟩ := hnodes i (lt_size_of_record hx)
    cases s with
    | element => exact of_decide_eq_true ((Option.all_eq_true _ _).mp he x hx)
    | container => exact of_decide_eq_true ((Option.all_eq_true _ _).mp hc x hx)
  · intro i hi
    cases hi with
    | single hij => exact hlink _ _ hij
    | tail _ hij => exact hlink _ _ hij

/-- Resolving 5 goes round the ring, settles 4 by its elements, and 5 by its list. -/
theorem resolve_informed_ring :
    numberRing.Acyclic ∧ ∃ h, resolve 5 numberRing = (5, h) ∧
      h.typeAt 4 = some (TypeName.listOf TypeName.number) ∧ h.typeAt 5 = some TypeName.number ∧
      (∃ t, h.typeAt 4 = some t ∧ h.Tells 4 t) ∧ ∃ t, h.typeAt 5 = some t ∧ h.Tells 5 t := by
  obtain ⟨h, hrun, _, _, _, _, htells, _⟩ :=
    resolve_informed numberRing numberRing_acyclic 5 (by decide)
  have hgraph : (resolve 5 numberRing).2 = h := by rw [hrun]
  have h4 : h.typeAt 4 = some (.listOf .number) := by
    rw [← hgraph]
    decide
  have h5 : h.typeAt 5 = some .number := by
    rw [← hgraph]
    decide
  exact ⟨numberRing_acyclic, h, hrun, h4, h5, htells 4 (by rw [h4]; decide),
    htells 5 (by rw [h5]; decide)⟩

end BlockProgram.TypeGraph
