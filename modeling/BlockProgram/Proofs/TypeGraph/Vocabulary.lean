import BlockProgram.Proofs.TypeGraph.Classes

/-!
# The types that a graph speaks of

No operation on a type graph makes up a type: the types in it are those that it was given, lists of
them and items of them. So a property that passes from a type to the lists of it and from a list to
its items (`Vocabulary`) holds of all types in a graph (`Speaks`) if it holds of those it is given.
-/

namespace BlockProgram

variable {t : TypeName}

theorem TypeName.eq_listOf_of_element? {u : TypeName} (h : element? t = some u) : t = listOf u := by
  unfold element? at h
  split at h
  · next r hr =>
    cases h
    rw [← String.toList_inj, listOf, String.toList_append, String.toList_ofList,
      ← List.reverse_reverse t.toList, hr]
    simp
  · cases h

namespace TypeGraph

/-- A property of the types that are always there, which passes to lists and items. -/
structure Vocabulary (P : TypeName → Prop) : Prop where
  constant : ∀ t ∈ [.number, .text, .boolean, .void, .any, TypeName.array], P t
  listOf : ∀ t, P t → P (TypeName.listOf t)
  element : ∀ t, P t → ∀ u ∈ TypeName.element? t, P u

variable {P : TypeName → Prop} {g : TypeGraph}

/-- The types that a graph carries have property `P`. -/
def Speaks (P : TypeName → Prop) (g : TypeGraph) : Prop :=
  ∀ i, ∀ t ∈ (g.node i).type, P t

abbrev Spoken (P : TypeName → Prop) (type : Option TypeName) : Prop :=
  ∀ t ∈ type, P t

theorem spoken_none : Spoken P none :=
  fun _ ht => by cases ht

theorem spoken_some (ht : P t) : Spoken P (some t) :=
  fun _ hu => Option.some.inj hu ▸ ht

theorem Speaks.update (hg : Speaks P g) (i : NodeId) {f : Node → Node}
    (hf : ∀ n, Spoken P n.type → Spoken P (f n).type) : Speaks P (g.update i f) := by
  intro j
  rw [node_update]
  split
  · exact hf _ (hg j)
  · exact hg j

theorem Speaks.keep (hg : Speaks P g) (i : NodeId) {f : Node → Node}
    (hf : ∀ n, (f n).type = n.type) : Speaks P (g.update i f) :=
  hg.update i fun n h => (hf n).symm ▸ h

theorem Speaks.push (hg : Speaks P g) {n : Node} (hn : Spoken P n.type) : Speaks P (g.push n) := by
  intro j
  rw [node_push]
  split
  · exact hn
  · exact hg j

theorem Speaks.compressFrom (hg : Speaks P g) (r : NodeId) (fuel : Nat) (i : NodeId) :
    Speaks P (compressFrom r fuel g i) := by
  induction fuel generalizing g i with
  | zero => exact hg
  | succ fuel ih =>
    unfold TypeGraph.compressFrom
    split
    · exact hg
    · have hlink : Speaks P (g.update i ({ · with link := some r })) := hg.keep i fun _ => rfl
      exact ih hlink _

theorem speaks_initial (hP : Vocabulary P) : Speaks P initial := by
  intro i t ht
  match i with
  | 0 | 1 | 2 | 3 =>
    cases ht
    exact hP.constant _ (by simp)
  | n + 4 => cases ht

/-- A graph that speaks of types with property `P` does so after the step. -/
abbrev Says {α : Type} (P : TypeName → Prop) (m : GraphM α) : Prop :=
  Preserves (Speaks P) m fun _ => True

/-- The same of a step that may fail. -/
abbrev Voices {α : Type} (P : TypeName → Prop) (m : UnifyM α) : Prop :=
  Gives (Speaks P) m fun _ => True

/-! ## Operations that always succeed -/

theorem preserves_find (i : NodeId) : Says P (find i) :=
  fun _ hg => ⟨hg.compressFrom _ _ _, trivial⟩

theorem preserves_addNode {type : Option TypeName} (ht : Spoken P type) (isArray : Bool) :
    Says P (addNode type isArray) :=
  fun _ hg => ⟨hg.push ht, trivial⟩

theorem preserves_ground (ht : P t) : Says P (ground t) := by
  have hnamed : Spoken P (some t) := fun u hu => by
    cases hu
    exact ht
  unfold ground
  split
  · exact .pure trivial
  · split
    · exact .pure trivial
    · split
      · exact .pure trivial
      · split
        · exact .pure trivial
        · exact preserves_addNode hnamed _

theorem preserves_typeOf (i : NodeId) : Preserves (Speaks P) (typeOf i) (Spoken P) :=
  (preserves_find i).bind fun r _ => .bind_get fun _ hg => .pure (hg r)

theorem preserves_isArrayNode (i : NodeId) : Says P (isArrayNode i) :=
  (preserves_find i).bind fun _ _ => .bind_get fun _ _ => .pure trivial

theorem preserves_setType (i : NodeId) (ht : P t) : Says P (setType i t) := by
  refine (preserves_find i).bind fun r _ => .of_modify fun g hg => hg.update r ?_
  intro _ _ u hu
  cases hu
  exact ht

/-! ## Joining -/

theorem gives_find (i : NodeId) : Voices P (liftM (find i) : UnifyM NodeId) :=
  .lift (preserves_find i)

/-- The common type of two is one of them. -/
theorem named_unify {s t u : Option TypeName} (hs : Spoken P s) (ht : Spoken P t)
    (h : TypeName.unify s t = .ok u) : Spoken P u := by
  have hcases : u = s ∨ u = t := by
    unfold TypeName.unify at h
    split at h
    · cases h
      exact .inr rfl
    · cases h
      exact .inl rfl
    · split at h
      · cases h
        exact .inr rfl
      · split at h
        · cases h
          exact .inl rfl
        · split at h
          · cases h
            exact .inl rfl
          · cases h
  rcases hcases with rfl | rfl
  · exact hs
  · exact ht

theorem gives_unifyRoots (a b : NodeId) : Gives (Speaks P) (unifyRoots a b) (Spoken P) := by
  intro g hg
  unfold Moves Ensures unifyRoots
  cases h : TypeName.unify (g.node a).type (g.node b).type with
  | ok t => exact ⟨hg, named_unify (hg a) (hg b) h⟩
  | error e => exact hg

theorem gives_checkBoth {check : Pairs → NodeId → NodeId → UnifyM Pairs}
    (hcheck : ∀ seen p q, Voices P (check seen p q)) (seen : Pairs) (x y : Option NodeId) :
    Voices P (checkBoth check seen x y) := by
  unfold checkBoth
  split
  · exact hcheck _ _ _
  · exact .pure trivial

theorem gives_checkUnion (fuel : Nat) (seen : Pairs) (p q : NodeId) :
    Voices P (checkUnion fuel seen p q) := by
  induction fuel generalizing seen p q with
  | zero => exact .pure trivial
  | succ fuel ih =>
    unfold checkUnion
    refine (gives_find p).bind fun a _ => (gives_find q).bind fun b _ => ?_
    split
    · exact .pure trivial
    · refine (gives_unifyRoots a b).bind fun _ _ => .bind_get fun _ _ => ?_
      refine (gives_checkBoth ih _ _ _).bind fun _ _ => .bind_get fun _ _ => ?_
      exact gives_checkBoth ih _ _ _

theorem gives_mergeRecords (s : Slot) {join : NodeId → NodeId → UnifyM Unit}
    (hjoin : ∀ x y, Voices P (join x y)) (a b : NodeId) : Voices P (mergeRecords s join a b) := by
  unfold mergeRecords
  refine .bind_get fun g hg => ?_
  split
  · exact .bind (.of_set (hg.keep a (Slot.type_write s _))) fun _ _ => hjoin _ _
  · exact .of_set (hg.keep b (Slot.type_write s _))
  · exact .pure trivial

theorem gives_linkRoots (a b : NodeId) : Voices P (linkRoots a b) := by
  refine (gives_unifyRoots a b).bind fun t ht => .bind_get fun g hg => .of_set ?_
  refine (hg.update a (f := ({ · with link := some b, type := none })) ?_).update b fun _ _ => ht
  intro _ _ u hu
  cases hu

theorem gives_merge (fuel : Nat) (p q : NodeId) : Voices P (merge fuel p q) := by
  induction fuel generalizing p q with
  | zero => exact .pure trivial
  | succ fuel ih =>
    unfold merge
    refine (gives_find p).bind fun a _ => (gives_find q).bind fun b _ => ?_
    split
    · exact .pure trivial
    · refine (gives_unifyRoots a b).bind fun _ _ => ?_
      refine (gives_mergeRecords .element ih a b).bind fun _ _ => ?_
      refine (gives_mergeRecords .container ih a b).bind fun _ _ => ?_
      refine (gives_find a).bind fun a _ => (gives_find b).bind fun b _ => ?_
      split
      · exact .pure trivial
      · exact gives_linkRoots a b

theorem gives_union (p q : NodeId) : Voices P (union p q) :=
  .bind_get fun _ _ => (gives_checkUnion _ _ p q).bind fun _ _ => gives_merge _ p q

/-! ## Lists and their elements -/

theorem gives_recordAt (s : Slot) (room : Option TypeName → Bool) (r x : NodeId) :
    Voices P (recordAt s room r x) := by
  unfold recordAt
  refine .bind_get fun g hg => ?_
  split
  · exact gives_union _ x
  · split
    · exact .of_set (hg.keep r (Slot.type_write s _))
    · exact .pure trivial

theorem gives_markArray (p : NodeId) : Voices P (markArray p) := by
  unfold markArray
  refine .bind_get fun g hg => ?_
  split
  · exact .of_set (hg.keep p fun _ => rfl)
  · exact .pure trivial

theorem gives_linkElement (container element : NodeId) :
    Voices P (linkElement container element) := by
  unfold linkElement
  refine (gives_find container).bind fun p _ => (gives_find element).bind fun c _ => ?_
  split
  · exact .pure trivial
  · refine (gives_recordAt .element _ p c).bind fun _ _ => ?_
    refine (gives_find p).bind fun p _ => (gives_find c).bind fun c _ => ?_
    refine (gives_recordAt .container _ c p).bind fun _ _ => (gives_find p).bind fun p _ => ?_
    exact gives_markArray p

/-! ## Resolving -/

/-- A function that resolves classes and speaks on. -/
def Resolving (P : TypeName → Prop)
    (resolve : List NodeId → NodeId → GraphM (NodeId × List NodeId)) : Prop :=
  ∀ visited i, Says P (resolve visited i)

theorem named_elementTypeAt (hP : Vocabulary P) (hg : Speaks P g) (i : NodeId) :
    Spoken P (g.elementTypeAt i) := by
  intro t ht
  obtain ⟨s, hs, hst⟩ := Option.bind_eq_some_iff.mp ht
  exact hP.element s (hg i s hs) t hst

theorem named_listTypeAt (hP : Vocabulary P) (hg : Speaks P g) (i : NodeId) :
    Spoken P (g.listTypeAt i) := by
  intro t ht
  obtain ⟨s, hs, rfl⟩ := Option.map_eq_some_iff.mp ht
  exact hP.listOf s (hg i s (Option.filter_eq_some_iff.mp hs).1)

theorem preserves_resolveRecorded {resolve : List NodeId → NodeId → GraphM (NodeId × List NodeId)}
    (hresolve : Resolving P resolve) {readType : TypeGraph → NodeId → Option TypeName}
    (hread : ∀ g, Speaks P g → ∀ i, Spoken P (readType g i)) (visited : List NodeId)
    (recorded : Option NodeId) :
    Preserves (Speaks P) (resolveRecorded resolve readType visited recorded) fun r =>
      Spoken P r.1 := by
  cases recorded with
  | none => exact .pure fun t ht => by cases ht
  | some i =>
    exact (hresolve visited i).bind fun r _ => .bind_get fun g hg => .pure (hread g hg r.1)

theorem preserves_settle (hP : Vocabulary P)
    {resolve : List NodeId → NodeId → GraphM (NodeId × List NodeId)}
    (hresolve : Resolving P resolve) (visited : List NodeId) (t : NodeId) :
    Says P (settle resolve visited t) := by
  have hset : ∀ {u : TypeName} {f : Node → Node}, P u → (∀ n, (f n).type = some u) →
      Says P (modify (·.update t f)) := by
    intro u f hu hf
    refine .of_modify fun g hg => hg.update t fun n _ => ?_
    rw [hf n]
    exact fun v hv => by
      cases hv
      exact hu
  unfold settle
  refine .bind_get fun _ _ => ?_
  refine (preserves_resolveRecorded hresolve (fun g hg => named_elementTypeAt hP hg) _ _).bind
    fun r hr => ?_
  obtain ⟨type, visited⟩ := r
  cases type with
  | some u => exact .bind (hset (hr u rfl) fun _ => rfl) fun _ _ => .pure trivial
  | none =>
    refine .bind_get fun _ _ => ?_
    refine (preserves_resolveRecorded hresolve (fun g hg => named_listTypeAt hP hg) _ _).bind
      fun r hr => ?_
    obtain ⟨type, visited⟩ := r
    cases type with
    | some u => exact .bind (hset (hr u rfl) fun _ => rfl) fun _ _ => .pure trivial
    | none => exact .pure trivial

theorem resolving_resolveFrom (hP : Vocabulary P) (fuel : Nat) :
    Resolving P (resolveFrom fuel) := by
  induction fuel with
  | zero => exact fun _ i => (preserves_find i).bind fun _ _ => .pure trivial
  | succ fuel ih =>
    intro visited i
    unfold resolveFrom
    refine (preserves_find i).bind fun t _ => ?_
    split
    · exact .pure trivial
    · refine .bind_get fun _ _ => ?_
      split
      · exact (preserves_settle hP ih _ t).bind fun _ _ => .pure trivial
      · exact .pure trivial

theorem preserves_resolvedType (hP : Vocabulary P) (i : NodeId) :
    Preserves (Speaks P) (resolvedType i) (Spoken P) := by
  have hresolve : Says P (resolve i) :=
    .bind_get fun _ _ => (resolving_resolveFrom hP _ [] i).bind fun _ _ => .pure trivial
  exact hresolve.bind fun r _ => .bind_get fun _ hg => .pure (hg r)

end TypeGraph

end BlockProgram
