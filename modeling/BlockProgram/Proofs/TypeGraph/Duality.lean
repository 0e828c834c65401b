import BlockProgram.Proofs.TypeGraph.Links
import BlockProgram.Proofs.TypeGraph.Knowledge

/-!
# Lists and elements tell each other their types

A link between a list and its elements is recorded in the list, in the element, or in both,
depending on what is known of either. Resolution reads a type off a recorded class (`given`), so
what a list and its elements tell each other hangs on the records that later unions keep.

* `resolvedType_eq`: a class that is told a type (`Told`) is resolved to it.
* `list_element_duality`: a list and the elements it is linked with know each other's type from then
  on, along operations that some assignment of types satisfies and whose unions are one to one.
* `element_untold_marked`: a link that is recorded in the list only does not tell elements that are
  known to be some list.
* `duality_lost_crossed`: unions that are not one to one may lose the records that tell a type.
-/

namespace BlockProgram.TypeGraph

open Relation

variable {t : TypeName}

variable {τ : NodeId → TypeName} {g h k : TypeGraph} {i r x : NodeId} {s : Slot}

/-! ## What a class is given -/

/-- The type that the recorded class gives to the one that records it. -/
def given : Slot → TypeGraph → NodeId → Option TypeName
  | .container, g, i => elementTypeAt g i
  | .element, g, i => listTypeAt g i

theorem given_container :
    given .container g r = some t ↔
      ∃ u, (g.node r).type = some u ∧ TypeName.element? u = some t := by
  simp [given, elementTypeAt, Option.bind_eq_some_iff]

theorem given_element : given .element g r = some t ↔
      ∃ u, (g.node r).type = some u ∧ u ≠ .array ∧ .listOf u = t := by
  simp [given, listTypeAt, Option.filter_eq_some_iff, and_assoc]

/-- Only a settled type gives something. -/
theorem settled_of_given (h : given s g r = some t) :
    ∃ u, (g.node r).type = some u ∧ u ≠ .array := by
  cases s with
  | container =>
    obtain ⟨u, hu, ht⟩ := given_container.mp h
    refine ⟨u, hu, ?_⟩
    rintro rfl
    cases ht
  | element =>
    obtain ⟨u, hu, hne, _⟩ := given_element.mp h
    exact ⟨u, hu, hne⟩

/-- What is given is the type of the assignment. -/
theorem Models.given_eq (hm : Models τ g) (hx : g.record s r = some x)
    (ht : given s g (g.root x) = some t) : t = τ r := by
  have hrel := hm.relates s r x hx
  have hfit := hm.fits (g.root x)
  obtain ⟨u, hu, hne⟩ := settled_of_given ht
  rw [hu] at hfit
  have hux : u = τ x := (hfit.eq_of_settled hne).trans (hm.root_eq x)
  cases s with
  | container =>
    obtain ⟨v, hv, hvt⟩ := given_container.mp ht
    have hlist : τ x = .listOf (τ r) := hrel
    rw [hu] at hv
    cases hv
    rw [hux, hlist, TypeName.element?_listOf] at hvt
    exact (Option.some.inj hvt).symm
  | element =>
    obtain ⟨v, hv, _, hvt⟩ := given_element.mp ht
    have hlist : τ r = .listOf (τ x) := hrel
    rw [hu] at hv
    cases hv
    rw [← hvt, hlist, hux]

theorem given_congr (h : (k.node r).type = (g.node r).type) : given s k r = given s g r := by
  cases s <;> simp only [given, elementTypeAt, listTypeAt, h]

/-- A class of open type gives nothing. -/
theorem given_of_isOpen (ho : TypeName.isOpen (g.node r).type = true) : given s g r = none := by
  cases ht : given s g r with
  | none => rfl
  | some t =>
    rw [isOpen_eq_false_iff.mpr (settled_of_given ht)] at ho
    cases ho

/-- Some recorded class gives the root a type. -/
def Told (g : TypeGraph) (r : NodeId) : Prop :=
  ∃ s x t, g.record s r = some x ∧ given s g (g.root x) = some t

theorem Models.eq_of_typeAt (hm : Models τ g) (ht : g.typeAt i = some t)
    (hne : t ≠ .array) : t = τ i := by
  have hfit := hm.fits (g.root i)
  unfold typeAt at ht
  rw [ht, hm.root_eq] at hfit
  exact hfit.eq_of_settled hne

/-! ## Resolution -/

/-- The type of `r` is what some recorded class gives it. -/
def FilledIn (g : TypeGraph) (r : NodeId) : Prop :=
  ∃ s x t, (g.node r).type = some t ∧ g.record s r = some x ∧ given s g (g.root x) = some t

/-- From `g` to `h` some open types are filled in, each by what its class is told. -/
structure Informed (g h : TypeGraph) : Prop where
  wellFormed : h.WellFormed
  root_eq : ∀ i, h.root i = g.root i
  record_eq : ∀ s i, h.record s i = g.record s i
  models : ∀ τ, Models τ g → Models τ h
  type_eq : ∀ i t, (g.node i).type = some t → t ≠ TypeName.array → (h.node i).type = some t
  tells : ∀ i, (h.node i).type = (g.node i).type ∨ FilledIn h i

def Informs (g h : TypeGraph) : Prop :=
  g.WellFormed → Informed g h

theorem Informed.refl (hg : g.WellFormed) : Informed g g :=
  ⟨hg, fun _ => rfl, fun _ _ => rfl, fun _ h => h, fun _ _ h _ => h, fun _ => .inl rfl⟩

/-- What is given stays given. -/
theorem Informed.given_eq (hf : Informed g h) (ht : given s g (g.root x) = some t) :
    given s h (h.root x) = some t := by
  obtain ⟨u, hu, hne⟩ := settled_of_given ht
  rw [← ht, hf.root_eq]
  apply given_congr
  rw [hu, hf.type_eq _ u hu hne]

theorem Informed.trans (h1 : Informed g h) (h2 : Informed h k) : Informed g k where
  wellFormed := h2.wellFormed
  root_eq i := (h2.root_eq i).trans (h1.root_eq i)
  record_eq s i := (h2.record_eq s i).trans (h1.record_eq s i)
  models τ hm := h2.models τ (h1.models τ hm)
  type_eq i t hi ht := h2.type_eq i t (h1.type_eq i t hi ht) ht
  tells i := by
    rcases h2.tells i with hsame | htold
    · rcases h1.tells i with hfirst | ⟨s, x, t, ht, hx, hgiven⟩
      · exact .inl (hsame.trans hfirst)
      · exact .inr ⟨s, x, t, hsame.trans ht, (h2.record_eq s i).trans hx, h2.given_eq hgiven⟩
    · exact .inr htold

instance informsRefl : Std.Refl Informs :=
  ⟨fun _ hg => .refl hg⟩

instance informsTrans : IsTrans TypeGraph Informs :=
  ⟨fun _ _ _ h1 h2 hg => (h1 hg).trans (h2 (h1 hg).wellFormed)⟩

theorem informs_compress (g : TypeGraph) (i : NodeId) : Informs g (g.compress i) := by
  intro hg
  have hs := compress_sameClasses hg i
  refine ⟨compress_wellFormed hg i, hs.root_eq, hs.record_eq, fun τ hm => hm.of_alike hs.alike, ?_,
    fun j => .inl (hs.type_eq j)⟩
  intro j t hj _
  rw [hs.type_eq, hj]

/-- An open type is replaced by what a recorded class gives. -/
theorem informs_update (f : Node → Node) (hlink : ∀ n, (f n).link = n.link)
    (hread : ∀ s n, Slot.read s (f n) = Slot.read s n) (htype : ∀ n, (f n).type = some t)
    (ho : TypeName.isOpen (g.node r).type = true) (hx : g.record s r = some x)
    (hgiven : given s g (g.root x) = some t) :
    Informs g (g.update r f) ∧ FilledIn (g.update r f) r := by
  have hroot : ∀ i, (g.update r f).root i = g.root i := fun i => root_update g r i f hlink
  have hrec : ∀ s i, (g.update r f).record s i = g.record s i :=
    fun s i => field_update (Slot.read s) g r i f (hread s)
  -- the class that tells the type is another one: its own type is settled
  have hne : r ≠ g.root x := by
    rintro rfl
    rw [given_of_isOpen ho] at hgiven
    cases hgiven
  have hfilled : FilledIn (g.update r f) r := by
    refine ⟨s, x, t, ?_, by rw [hrec, hx], ?_⟩
    · rw [node_update_self g r f (lt_size_of_record hx), htype]
    · rw [hroot, ← hgiven]
      apply given_congr
      rw [node_update_ne g r _ f hne]
  refine ⟨fun hg => ⟨?_, hroot, hrec, fun τ hm => ⟨?_, ?_, ?_⟩, ?_, ?_⟩, hfilled⟩
  · exact update_wellFormed hg r f hlink (fun n j hj => .inl ((hread .element n).symm.trans hj))
      (fun n j hj => .inl ((hread .container n).symm.trans hj))
  · intro i
    rw [hroot, hm.root_eq]
  · intro i
    by_cases hir : r = i
    · subst hir
      rw [node_update_self g r f (lt_size_of_record hx), htype, hm.given_eq hx hgiven]
      exact Fits.self _
    · rw [node_update_ne g r i f hir]
      exact hm.fits i
  · intro s i x hx
    rw [hrec] at hx
    exact hm.relates s i x hx
  · intro i u hi hu
    by_cases hir : r = i
    · rw [hir, isOpen_eq_false_iff.mpr ⟨u, hi, hu⟩] at ho
      cases ho
    · rw [node_update_ne g r i f hir, hi]
  · intro i
    by_cases hir : r = i
    · exact .inr (hir ▸ hfilled)
    · rw [node_update_ne g r i f hir]
      exact .inl rfl

variable {resolve : List NodeId → NodeId → GraphM (NodeId × List NodeId)} {visited : List NodeId}

/-- A resolution of single classes that fills in what they are told. -/
def Informer (resolve : List NodeId → NodeId → GraphM (NodeId × List NodeId)) : Prop :=
  ∀ k visited i, k.WellFormed → Runs Informs (resolve visited i) k (fun r _ => r.1 = k.root i)

/-- A recorded class gives a type that it carries in the end, and what it gave before if it did. The
types of visited classes stay. -/
theorem runs_resolveRecorded_informs (hres : Resolver resolve) (hinf : Informer resolve)
    (hg : g.WellFormed) (s : Slot) (visited : List NodeId) (r : NodeId) :
    Runs Informs (resolveRecorded resolve (given s) visited (g.record s r)) g (fun res h =>
      ((∀ t, res.1 = some t → ∃ x, h.record s r = some x ∧ given s h (h.root x) = some t) ∧
        ∀ x t, g.record s r = some x → given s g (g.root x) = some t → res.1 = some t) ∧
      visited ⊆ res.2 ∧ ∀ i ∈ visited, (h.node i).type = (g.node i).type) := by
  have hvisited := runs_resolveRecorded resolve hres (given s) visited (g.record s r) hg
    fun _ => hg.record_lt
  refine .and ?_ (hvisited.imp fun _ _ hkept h => ⟨h.subset, hkept.type_eq⟩)
  unfold resolveRecorded
  split
  · next hn =>
    refine .pure _ ⟨(fun t ht => by cases ht), fun x t hx => ?_⟩
    rw [hn] at hx
    cases hx
  · next x hx =>
    refine .bind (hinf g visited x hg) ?_
    rintro ⟨root, visited'⟩ h hinform hroot
    have hf := hinform hg
    have hroot' : root = h.root x := (show root = g.root x from hroot).trans (hf.root_eq x).symm
    subst hroot'
    refine .bind_get (.pure _ ⟨?_, ?_⟩)
    · intro t ht
      exact ⟨x, by rw [hf.record_eq, hx], ht⟩
    · intro x' t hx' ht
      rw [hx] at hx'
      cases hx'
      exact hf.given_eq ht

/-- Settling a class of open type gives it what it is told, if it is told anything. -/
theorem runs_settle_informs (hres : Resolver resolve) (hinf : Informer resolve) (hg : g.WellFormed)
    (hr : r ∈ visited) (ho : TypeName.isOpen (g.node r).type = true) :
    Runs Informs (settle resolve visited r) g (fun _ h => Told g r → FilledIn h r) := by
  unfold settle
  refine .bind_get ?_
  refine .bind (runs_resolveRecorded_informs hres hinf hg .container visited r) ?_
  rintro ⟨type1, visited1⟩ g1 hinform1 ⟨⟨hfrom1, hgiven1⟩, hsub1, hkept1⟩
  have hf1 := hinform1 hg
  have ho1 : TypeName.isOpen (g1.node r).type = true := by rw [hkept1 r hr, ho]
  cases type1 with
  | some type =>
    obtain ⟨x, hx, hgiven⟩ := hfrom1 type rfl
    obtain ⟨hf, hfilled⟩ := informs_update ({ · with type := some type }) (fun _ => rfl)
      (fun s _ => by cases s <;> rfl) (fun _ => rfl) ho1 hx hgiven
    exact .bind_modify _ hf (.pure _ fun _ => hfilled)
  | none =>
    refine .bind_get ?_
    refine .bind (runs_resolveRecorded_informs hres hinf hf1.wellFormed .element visited1 r) ?_
    rintro ⟨type2, visited2⟩ g2 hinform2 ⟨⟨hfrom2, hgiven2⟩, _, hkept2⟩
    have hf2 := hinform2 hf1.wellFormed
    have ho2 : TypeName.isOpen (g2.node r).type = true := by rw [hkept2 r (hsub1 hr), ho1]
    cases type2 with
    | some type =>
      obtain ⟨x, hx, hgiven⟩ := hfrom2 type rfl
      obtain ⟨hf, hfilled⟩ := informs_update ({ · with type := some type, isArray := true })
        (fun _ => rfl) (fun s _ => by cases s <;> rfl) (fun _ => rfl) ho2 hx hgiven
      exact .bind_modify _ hf (.pure _ fun _ => hfilled)
    | none =>
      refine .pure _ ?_
      rintro ⟨s, x, t, hx, ht⟩
      cases s with
      | container => cases hgiven1 x t hx ht
      | element => cases hgiven2 x t (by rw [hf1.record_eq, hx]) (hf1.given_eq ht)

theorem informer_resolveFrom (fuel : Nat) : Informer (resolveFrom fuel) := by
  induction fuel with
  | zero =>
    intro k visited i hk
    unfold resolveFrom
    refine .bind (Q := fun r _ => r = k.root i) ⟨informs_compress k i, rfl⟩ ?_
    rintro r h _ rfl
    exact .pure _ rfl
  | succ fuel ih =>
    intro k visited i hk
    unfold resolveFrom
    refine .bind (Q := fun r _ => r = k.root i) ⟨informs_compress k i, rfl⟩ ?_
    rintro r h hinform rfl
    have hf := hinform hk
    split
    · exact .pure _ rfl
    · refine .bind_get ?_
      split
      · next ho =>
        refine .bind (runs_settle_informs (resolver_resolveFrom fuel) ih hf.wellFormed
          (.head _) ho) ?_
        intro visited' h' _ _
        exact .pure _ rfl
      · exact .pure _ rfl

/-- The class that is resolved gets a type if it is told one. -/
theorem runs_resolve_informs (hg : g.WellFormed) (i : NodeId) :
    Runs Informs (TypeGraph.resolve i) g (fun r h => r = g.root i ∧
      (TypeName.isOpen (g.typeAt i) = true → Told g (g.root i) → FilledIn h (g.root i))) := by
  unfold resolve
  refine .bind_get ?_
  refine .bind ?_ (fun _ _ _ hr => .pure _ hr)
  unfold resolveFrom
  refine .bind (Q := fun r k => r = g.root i ∧ k = g.compress i)
    ⟨informs_compress g i, rfl, rfl⟩ ?_
  rintro _ _ hinform ⟨rfl, rfl⟩
  have hf := hinform hg
  rw [if_neg List.not_mem_nil]
  refine .bind_get ?_
  split
  · next ho =>
    refine .bind (runs_settle_informs (resolver_resolveFrom _) (informer_resolveFrom _)
      hf.wellFormed (.head _) ho) ?_
    intro visited' h' _ hsettles
    refine .pure _ ⟨rfl, fun _ htold => hsettles ?_⟩
    obtain ⟨s, x, t, hx, hgiven⟩ := htold
    exact ⟨s, x, t, by rw [hf.record_eq, hx], hf.given_eq hgiven⟩
  · next ho =>
    refine .pure _ ⟨rfl, fun ho' => absurd ?_ ho⟩
    rw [(compress_sameClasses hg i).type_eq]
    exact ho'

theorem informed_resolve (hg : g.WellFormed) (i : NodeId) : Informed g (TypeGraph.resolve i g).2 :=
  (runs_resolve_informs hg i).1 hg

/-- A class whose type is settled, or that is told its type, is resolved to the type of the
assignment. -/
theorem resolvedType_eq (hg : g.WellFormed) (hm : Models τ g)
    (h : (∃ t, g.typeAt i = some t ∧ t ≠ .array) ∨ Told g (g.root i)) :
    (resolvedType i g).1 = some (τ i) := by
  have hf := informed_resolve hg i
  obtain ⟨_, hroot, htold⟩ := runs_resolve_informs hg i
  show (((resolve i g).2).node (resolve i g).1).type = _
  rw [hroot]
  by_cases hsettled : ∃ t, g.typeAt i = some t ∧ t ≠ .array
  · obtain ⟨t, ht, hne⟩ := hsettled
    rw [hf.type_eq _ t ht hne, hm.eq_of_typeAt ht hne]
  · have ho : TypeName.isOpen (g.typeAt i) = true :=
      Bool.of_not_eq_false (mt isOpen_eq_false_iff.mp hsettled)
    obtain ⟨s, x, t, ht, hx, hgiven⟩ := htold ho (h.resolve_left hsettled)
    rw [ht, (hf.models τ hm).given_eq hx hgiven, hm.root_eq]

theorem Informed.sound (hf : Informed g h) (hs : Sound τ g) : Sound τ h :=
  ⟨hf.wellFormed, hf.models τ hs.models⟩

/-! ## Histories -/

/-- What an operation has to respect: the assignment, and at most one partner for each class in its
unions. -/
def Fair (τ : NodeId → TypeName) (g : TypeGraph) : Operation → Prop
  | .addNode type _ => Fits type (τ g.size)
  | .ground t => Fits (some t) (τ (TypeGraph.ground t g).1)
  | .union p q => τ p = τ q ∧ OneToOne g p q
  | .linkElement l e => FairLink τ g l e
  | .find _ | .typeOf _ | .resolve _ => True

/-- One operation on nodes that exist. It is fair, or else it does no harm, as a union that is
refused: the graph still agrees with the assignment and no record is lost. -/
def FairStep (τ : NodeId → TypeName) (g h : TypeGraph) : Prop :=
  ∃ op : Operation, (∀ i ∈ op.nodes, i < g.size) ∧ (Fair τ g op ∨ (Models τ h ∧ Keeps g h)) ∧
    h = op.apply g

def FairLeads (τ : NodeId → TypeName) : TypeGraph → TypeGraph → Prop :=
  Relation.ReflTransGen (FairStep τ)

theorem sound_push (hs : Sound τ g) (type : Option TypeName) (isArray : Bool)
    (hfit : Fits type (τ g.size)) :
    Sound τ (g.push { type, isArray }) ∧ Keeps g (g.push { type, isArray }) := by
  have hw := push_wellFormed hs.wellFormed type isArray
  have hroot := root_push hs.wellFormed type isArray
  have hrec : ∀ s i, (g.push { type, isArray }).record s i = g.record s i := by
    intro s i
    unfold record
    rw [node_push]
    split
    · next hi =>
      rw [hi, node_eq_default g _ le_rfl]
      cases s <;> rfl
    · rfl
  refine ⟨⟨hw, ⟨?_, ?_, ?_⟩⟩, Keeps.of_records hroot hrec⟩
  · intro i
    rw [hroot, hs.models.root_eq]
  · intro i
    rw [node_push]
    split
    · next hi =>
      rw [hi]
      exact hfit
    · exact hs.models.fits i
  · intro s i x hx
    rw [hrec] at hx
    exact hs.models.relates s i x hx

theorem ground_cases (t : TypeName) (g : TypeGraph) : (ground t g).2 = g ∨
      ground t g =
        (g.size, g.push { type := some t, isArray := TypeName.isArray t }) := by
  unfold ground
  split
  · exact .inl rfl
  · split
    · exact .inl rfl
    · split
      · exact .inl rfl
      · split
        · exact .inl rfl
        · exact .inr rfl

/-- A fair operation keeps the graph sound and loses no record. -/
theorem Fair.sound {op : Operation} (hfair : Fair τ g op) (hop : ∀ i ∈ op.nodes, i < g.size)
    (hs : Sound τ g) : Sound τ (op.apply g) ∧ Keeps g (op.apply g) := by
  have hfind : ∀ i, Sound τ (g.compress i) ∧ Keeps g (g.compress i) := by
    intro i
    have ha := (compress_sameClasses hs.wellFormed i).alike
    exact ⟨hs.of_alike (compress_wellFormed hs.wellFormed i) ha, ha.keeps⟩
  have hend : ∀ {m : UnifyM Unit} {Q : TypeGraph → Prop},
      Succeeds m g (fun _ u => Upholds τ g u ∧ Q u) →
      Sound τ (finalGraph (m g)) ∧ Keeps g (finalGraph (m g)) := by
    intro m Q hm
    obtain ⟨_, u, hrun, hup, _⟩ := hm.exists_ok
    rw [hrun]
    exact ⟨hup.sound, hup.keeps⟩
  cases op with
  | addNode type isArray => exact sound_push hs type isArray hfair
  | ground t =>
    show Sound τ (ground t g).2 ∧ Keeps g (ground t g).2
    have hfit : Fits (some t) (τ (ground t g).1) := hfair
    rcases ground_cases t g with h | h
    · rw [h]
      exact ⟨hs, Keeps.of_records (fun _ => rfl) (fun _ _ => rfl)⟩
    · rw [h] at hfit ⊢
      exact sound_push hs (some t) _ hfit
  | find i => exact hfind i
  | typeOf i => exact hfind i
  | union p q =>
    exact hend (succeeds_union hs (hop p (by simp [Operation.nodes]))
      (hop q (by simp [Operation.nodes])) hfair.1 hfair.2)
  | linkElement l e =>
    exact hend (succeeds_linkElement hs (hop l (by simp [Operation.nodes]))
      (hop e (by simp [Operation.nodes])) hfair)
  | resolve i =>
    have hf := informed_resolve hs.wellFormed i
    exact ⟨hf.sound hs, Keeps.of_records hf.root_eq hf.record_eq⟩

theorem FairStep.sound (hstep : FairStep τ g h) (hs : Sound τ g) : Sound τ h ∧ Keeps g h := by
  obtain ⟨op, hop, hfair | ⟨hm, hk⟩, rfl⟩ := hstep
  · exact hfair.sound hop hs
  · exact ⟨⟨(op.changes hs.wellFormed hop).wellFormed hs.wellFormed, hm⟩, hk⟩

theorem FairLeads.leads (hl : FairLeads τ g h) : Leads g h :=
  hl.lift id fun _ _ ⟨op, hop, _, hh⟩ => ⟨op, hop, hh⟩

/-- A union that the check refuses does no harm. -/
theorem FairStep.of_clashes {p q : NodeId} (hs : Sound τ g) (hp : p < g.size) (hq : q < g.size)
    (hclash : Clashes g p q) : FairStep τ g ((Operation.union p q).apply g) := by
  have hunion : Ensures (union p q) g (fun _ h => SameClasses g h)
      (fun _ h => SameClasses g h) := by
    unfold union
    refine Ensures.bind_get ?_
    refine Ensures.bind ((ensures_checkUnion hs.wellFormed p q hp hq).imp (fun _ _ h => h) ?_) ?_
    · exact fun _ _ h => h.1
    · exact fun _ _ h => absurd hclash h.2
  have hsame : SameClasses g (finalGraph (union p q g)) := by
    cases hrun : union p q g with
    | ok _ h => exact hunion.of_ok hrun
    | error _ h => exact hunion.of_error hrun
  exact ⟨.union p q, by simp [Operation.nodes, hp, hq],
    .inr ⟨hs.models.of_alike hsame.alike, hsame.alike.keeps⟩, rfl⟩

theorem FairLeads.sound (hl : FairLeads τ g h) (hs : Sound τ g) : Sound τ h ∧ Keeps g h := by
  induction hl with
  | refl => exact ⟨hs, Keeps.of_records (fun _ => rfl) (fun _ _ => rfl)⟩
  | tail _ hstep ih =>
    obtain ⟨hsound, hkeeps⟩ := hstep.sound ih.1
    exact ⟨hsound, ih.2.trans hkeeps⟩

/-! ## Duality -/

/-- The list records the elements, and these record the list or have a settled type. -/
def Coupled (g : TypeGraph) (l e : NodeId) : Prop :=
  Records g .element l e ∧ (Records g .container e l ∨ ∃ t, g.typeAt e = some t ∧ t ≠ .array)

theorem Coupled.leads {l e : NodeId} (h : Coupled g l e) (hs : Sound τ g) (hl : FairLeads τ g k) :
    Coupled k l e := by
  have hkeeps := (hl.sound hs).2
  have hext := (hl.leads.changes hs.wellFormed).extends hs.wellFormed
  refine ⟨hkeeps.records _ _ _ h.1, ?_⟩
  rcases h.2 with hlist | ⟨t, ht, hne⟩
  · exact .inl (hkeeps.records _ _ _ hlist)
  · exact .inr ⟨t, hext.type_eq e t ht hne, hne⟩

theorem Records.told_list {l e : NodeId} (h : Records g .element l e) (ht : g.typeAt e = some t)
    (hne : t ≠ .array) : Told g (g.root l) := by
  obtain ⟨y, hy, hroot⟩ := h
  refine ⟨.element, y, .listOf t, hy, given_element.mpr ⟨t, ?_, hne, rfl⟩⟩
  rw [hroot]
  exact ht

theorem Records.told_element {l e : NodeId} (h : Records g .container e l)
    (ht : g.typeAt l = some (.listOf t)) : Told g (g.root e) := by
  obtain ⟨y, hy, hroot⟩ := h
  refine ⟨.container, y, t, hy, given_container.mpr ⟨_, ?_, TypeName.element?_listOf t⟩⟩
  rw [hroot]
  exact ht

theorem listOf_ne_array (t : TypeName) : TypeName.listOf t ≠ .array := by
  intro h
  have helement := TypeName.element?_listOf t
  rw [h] at helement
  cases helement

/-- Coupled lists and elements are resolved to types that belong together. -/
theorem Coupled.duality {l e : NodeId} (h : Coupled g l e) (hs : Sound τ g)
    (hτ : τ l = .listOf (τ e)) :
    (∀ t, g.typeAt e = some t → t ≠ TypeName.array →
      (resolvedType l g).1 = some (TypeName.listOf t)) ∧
    (∀ t, g.typeAt l = some (TypeName.listOf t) → (resolvedType e g).1 = some t) := by
  constructor
  · intro t ht hne
    rw [resolvedType_eq hs.wellFormed hs.models (.inr (h.1.told_list ht hne)), hτ,
      hs.models.eq_of_typeAt ht hne]
  · intro t ht
    have hlist := hs.models.eq_of_typeAt ht (listOf_ne_array t)
    have htold : (∃ u, g.typeAt e = some u ∧ u ≠ .array) ∨ Told g (g.root e) :=
      h.2.symm.imp_right fun hlist => hlist.told_element ht
    rw [resolvedType_eq hs.wellFormed hs.models htold, TypeName.listOf_injective (hlist.trans hτ)]

/-- The class of `i` is known to be some list, and of no list as its element. -/
def Bare (g : TypeGraph) (i : NodeId) : Prop :=
  g.typeAt i = some .array ∧ g.record .container (g.root i) = none

/-- In any graph that agrees with an assignment of types, an open list can be linked with its
elements. Unless these are left bare, a settled type of the elements gives the type of the list and
the other way round from then on, whatever fair operations follow. -/
theorem list_element_duality (τ : NodeId → TypeName) (g : TypeGraph) (hg : Reachable g)
    (hτ : Models τ g) (arr elem : NodeId) (harr : arr < g.size) (helem : elem < g.size)
    (hfair : FairLink τ g arr elem) (hopen : TypeName.isOpen (g.typeAt arr) = true) :
    ∃ g', linkElement arr elem g = .ok () g' ∧ (¬ Bare g' elem → ∀ h, FairLeads τ g' h →
      (∀ t, (typeOf elem h).1 = some t → t ≠ TypeName.array →
        (resolvedType arr h).1 = some (TypeName.listOf t)) ∧
      (∀ t, (typeOf arr h).1 = some (TypeName.listOf t) → (resolvedType elem h).1 = some t)) := by
  obtain ⟨_, g', hlink, hup, hlist, hside⟩ :=
    (succeeds_linkElement ⟨hg.wellFormed, hτ⟩ harr helem hfair).exists_ok
  refine ⟨g', hlink, fun hbare h hh => ?_⟩
  have hcoupled : Coupled g' arr elem := by
    refine ⟨hlist hopen, hside.imp_right ?_⟩
    rintro ⟨htyped, hnone⟩
    obtain ⟨t, ht⟩ := Option.ne_none_iff_exists'.mp htyped
    refine ⟨t, ht, ?_⟩
    rintro rfl
    exact hbare ⟨ht, hnone⟩
  have hs := (hh.sound hup.sound).1
  rw [typeOf_eq hs.wellFormed, typeOf_eq hs.wellFormed]
  exact (hcoupled.leads hup.sound hh).duality hs hfair.type_eq

/-- Lists of numbers at 4, 5 and 7, numbers from 6 on. -/
def numberLists : NodeId → TypeName
  | 1 => .text
  | 2 => .boolean
  | 3 => .void
  | 4 | 5 | 7 => "number[]"
  | _ => .number

/-- The elements of 4 are known to be numbers, and 5 to be a list of numbers. The first link is
recorded at the list, the other one at its elements 6. -/
def mixedLists : TypeGraph :=
  ⟨#[{ type := some .number }, { type := some .text },
     { type := some .boolean }, { type := some .void },
     { element := some 0 }, { type := some "number[]", isArray := true },
     { container := some 5 }, {}, {}]⟩

theorem mixedLists_reachable : Reachable mixedLists :=
  .of_run [.addNode none false, .ground "number[]", .addNode none false, .addNode none false,
    .addNode none false, .linkElement 5 6, .linkElement 4 0] .initial rfl

/-- The same after 7 is linked with its elements 8. -/
def linkedLists : TypeGraph :=
  (mixedLists.update 7 ({ · with element := some 8 })).update 8 ({ · with container := some 7 })

/-- Nothing but 8 and 0 is forced together. -/
theorem oneToOne_linkedLists : OneToOne linkedLists 8 0 := by
  have hpartners : ∀ {a b}, Partners linkedLists 8 0 a b → a = 8 ∧ b = 0 := by
    rintro a b ⟨hf, hne⟩
    induction hf with
    | start => exact ⟨rfl, rfl⟩
    | element _ hab hx _ ih =>
      obtain ⟨rfl, rfl⟩ := ih hab
      cases hx
    | container _ hab _ hy ih =>
      obtain ⟨rfl, rfl⟩ := ih hab
      cases hy
  refine ⟨?_, ?_, ?_⟩
  · exact fun h1 h2 => (hpartners h1).1.trans (hpartners h2).1.symm
  · exact fun h1 h2 => (hpartners h1).2.trans (hpartners h2).2.symm
  · exact fun h1 h2 => by cases (hpartners h1).1.symm.trans (hpartners h2).2

/-- 7 is linked with 8. A union of numbers with texts is refused; then 8 turn out to be numbers, and
7 is resolved to a list of numbers. -/
theorem list_element_duality_numbers :
    ∃ g' h, linkElement 7 8 mixedLists = .ok () g' ∧
      h = (Operation.union 8 0).apply ((Operation.union 0 1).apply g') ∧
      (typeOf 8 h).1 = some TypeName.number ∧ (resolvedType 7 h).1 = some "number[]" := by
  have hmodels : Models numberLists mixedLists := .of_lt (by decide +kernel)
  have hfair : FairLink numberLists mixedLists 7 8 :=
    ⟨rfl, (fun _ hx => by cases hx), (fun _ hk => by cases hk)⟩
  obtain ⟨g', hlink, hduality⟩ := list_element_duality numberLists mixedLists mixedLists_reachable
    hmodels 7 8 (by decide) (by decide) hfair rfl
  obtain rfl : linkedLists = g' := by
    have hrun : linkElement 7 8 mixedLists = .ok () linkedLists := rfl
    rw [hrun] at hlink
    cases hlink
    rfl
  have hlinked : Fair numberLists mixedLists (.linkElement 7 8) := hfair
  have hs : Sound numberLists linkedLists :=
    (hlinked.sound (by decide) ⟨mixedLists_reachable.wellFormed, hmodels⟩).1
  have hsame : (Operation.union 0 1).apply linkedLists = linkedLists := by decide +kernel
  have hrefused := FairStep.of_clashes (p := 0) (q := 1) hs (by decide) (by decide)
    ⟨0, 1, ⟨.number, .text⟩, .start, rfl⟩
  rw [hsame] at hrefused
  have hleads := (ReflTransGen.single hrefused).tail
    ⟨.union 8 0, by decide, .inl ⟨rfl, oneToOne_linkedLists⟩, rfl⟩
  have htype : (typeOf 8 ((Operation.union 8 0).apply linkedLists)).1 = some .number := by
    decide +kernel
  refine ⟨_, _, hlink, rfl, ?_⟩
  rw [hsame]
  exact ⟨htype, (hduality (fun h => absurd h.1 (by decide)) _ hleads).1 .number htype (by decide)⟩

/-- A node 4 without a type and a node 5 that is known to be some list. -/
def marked : TypeGraph :=
  initial.push {} |>.push { type := some TypeName.array, isArray := true }

theorem marked_reachable : Reachable marked :=
  .step (.ground .array) (.step (.addNode none false) .initial (by decide)) (by decide)

/-- The link of 4 with its element 5 is recorded at 4 only, because 5 has a type already. When 4
turns out to be a table of numbers, 5 does not learn that it is a list of numbers. -/
theorem element_untold_marked :
    Reachable marked ∧ marked.root 4 ≠ marked.root 5 ∧ TypeName.isOpen (marked.typeAt 4) = true ∧
      ∃ g' h, linkElement 4 5 marked = .ok () g' ∧ Leads g' h ∧
        (typeOf 4 h).1 = some (TypeName.listOf "number[]") ∧
        (resolvedType 5 h).1 ≠ some "number[]" := by
  refine ⟨marked_reachable, by decide, rfl, (Operation.linkElement 4 5).apply marked,
    (Operation.union 4 6).apply ((Operation.ground "number[][]").apply
      ((Operation.linkElement 4 5).apply marked)), rfl, ?_, rfl, by decide⟩
  exact (ReflTransGen.single ⟨.ground "number[][]", by decide, rfl⟩).tail
    ⟨.union 4 6, by decide, rfl⟩

/-- Lists of numbers up to 6, lists of these up to 11, and so on. -/
def nestedLists : NodeId → TypeName
  | 0 => .number
  | 1 => .text
  | 2 => .boolean
  | 3 => .void
  | 4 | 5 | 6 => "number[]"
  | 7 | 8 | 9 | 10 | 11 => "number[][]"
  | 12 | 13 | 14 | 15 | 16 => "number[][][]"
  | _ => "number[][][][]"

/-- The classes 4 to 19, of which 4 and 17 have a type, and their links. Some are recorded at the
list only, as that of 8 with 4, and some at the element only, as that of 17 with 13. -/
def crossedHistory : List Operation :=
  (List.range 16).map (fun i => .addNode
    (if i = 0 then some "number[]" else if i = 13 then some "number[][][][]" else none) false) ++
  [.linkElement 17 13, .linkElement 7 6, .linkElement 12 8, .linkElement 15 10, .linkElement 17 14,
    .linkElement 10 5, .linkElement 18 14, .linkElement 16 11, .linkElement 13 7,
    .linkElement 8 4, .linkElement 7 4]

def crossed : TypeGraph :=
  (Operation.run? crossedHistory initial).getD initial

theorem crossed_reachable : Reachable crossed :=
  .of_run crossedHistory .initial (by decide +kernel)

/-- The list 19 is linked with its elements 15, on both sides. The unions that follow join nodes of
one type. They are not one to one: the first drops a record of a class that could still be told its
type from the other side, the second the record on that side. 19 has a type, and 15 is not told. -/
theorem duality_lost_crossed :
    Reachable crossed ∧ Models nestedLists crossed ∧ crossed.typeAt 19 = none ∧
      ∃ g' h, linkElement 19 15 crossed = .ok () g' ∧ ¬ Bare g' 15 ∧ Leads g' h ∧
        Models nestedLists h ∧ (typeOf 19 h).1 = some (TypeName.listOf "number[][][]") ∧
        (resolvedType 15 h).1 = none := by
  have hlink : Succeeds (linkElement 19 15) crossed fun _ g' =>
      g' = (Operation.linkElement 19 15).apply crossed ∧ g'.typeAt 15 = none := by
    decide +kernel
  obtain ⟨_, _, hrun, rfl, htype⟩ := hlink.exists_ok
  refine ⟨crossed_reachable, .of_lt (by decide +kernel), by decide +kernel, _, _, hrun, ?_,
    ((ReflTransGen.single ⟨.linkElement 14 9, by decide +kernel, rfl⟩).tail
      ⟨.union 15 12, by decide +kernel, rfl⟩).tail ⟨.union 11 9, by decide +kernel, rfl⟩,
    .of_lt (by decide +kernel), by decide +kernel, by decide +kernel⟩
  rintro ⟨harray, _⟩
  rw [htype] at harray
  cases harray

end BlockProgram.TypeGraph
