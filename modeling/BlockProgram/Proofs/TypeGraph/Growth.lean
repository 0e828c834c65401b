import BlockProgram.Proofs.TypeGraph.Classes
import Mathlib.Logic.Relation

/-!
# Type graphs only grow

Every operation on a type graph is a sequence of small changes (`Change`): compression, another
record of an element or a list, an open type that is settled, two roots that are joined under their
common type, a new node. None of them splits a class, changes a settled type or forgets that a class
is a list (`Extends`), so neither does any operation, whether it fails or not.
-/

namespace BlockProgram.TypeGraph

open Relation

variable {g h : TypeGraph}

/-- The type that the class of a node carries. -/
def typeAt (g : TypeGraph) (i : NodeId) : Option TypeName :=
  (g.node (g.root i)).type

def isListAt (g : TypeGraph) (i : NodeId) : Bool :=
  (g.node (g.root i)).isArray

/-! ## What is kept -/

/-- `h` knows all that `g` knows: classes are not split, settled types stay, and so do the marks of
lists. -/
structure Extends (g h : TypeGraph) : Prop where
  size_le : g.size ≤ h.size
  root_eq : ∀ i j, g.root i = g.root j → h.root i = h.root j
  type_eq : ∀ i t, g.typeAt i = some t → t ≠ TypeName.array → h.typeAt i = some t
  isListAt_eq : ∀ i, g.isListAt i = true → h.isListAt i = true

theorem Extends.refl (g : TypeGraph) : Extends g g :=
  ⟨le_rfl, fun _ _ h => h, fun _ _ h _ => h, fun _ h => h⟩

theorem Extends.trans {k : TypeGraph} (h1 : Extends g h) (h2 : Extends h k) : Extends g k where
  size_le := le_trans h1.size_le h2.size_le
  root_eq i j hij := h2.root_eq i j (h1.root_eq i j hij)
  type_eq i t hi ht := h2.type_eq i t (h1.type_eq i t hi ht) ht
  isListAt_eq i hi := h2.isListAt_eq i (h1.isListAt_eq i hi)

theorem typeAt_congr {i j : NodeId} (h : g.root i = g.root j) : g.typeAt i = g.typeAt j := by
  unfold typeAt
  rw [h]

theorem SameClasses.typeAt_eq (hs : SameClasses g h) (i : NodeId) : h.typeAt i = g.typeAt i := by
  unfold typeAt
  rw [hs.root_eq, hs.type_eq]

theorem SameClasses.isListAt_eq (hs : SameClasses g h) (i : NodeId) :
    h.isListAt i = g.isListAt i := by
  unfold isListAt
  rw [hs.root_eq, hs.isArray_eq]

theorem SameClasses.extends (hs : SameClasses g h) : Extends g h where
  size_le := le_of_eq hs.size_eq.symm
  root_eq i j hij := by rw [hs.root_eq, hs.root_eq, hij]
  type_eq i t hi _ := by rw [hs.typeAt_eq, hi]
  isListAt_eq i hi := by rw [hs.isListAt_eq, hi]

/-! ## Small changes -/

/-- One small change of a type graph. -/
inductive Change : TypeGraph → TypeGraph → Prop where
  | compress (g : TypeGraph) (i : NodeId) : Change g (g.compress i)
  | element (g : TypeGraph) (i : NodeId) (x : Option NodeId) (hx : ∀ j, x = some j → j < g.size) :
      Change g (g.update i ({ · with element := x }))
  | container (g : TypeGraph) (i : NodeId) (x : Option NodeId) (hx : ∀ j, x = some j → j < g.size) :
      Change g (g.update i ({ · with container := x }))
  | mark (g : TypeGraph) (i : NodeId) : Change g (g.update i ({ · with isArray := true }))
  /-- A class of open type gets a type. -/
  | settle (g : TypeGraph) (r : NodeId) (t : TypeName) (hr : g.IsRoot r)
      (ho : TypeName.isOpen (g.node r).type = true) :
      Change g (g.update r ({ · with type := some t }))
  | join (g : TypeGraph) (a b : NodeId) (t : Option TypeName) (hra : g.IsRoot a)
      (hrb : g.IsRoot b) (hab : a ≠ b) (ha : a < g.size) (hb : b < g.size)
      (ht : TypeName.unify (g.node a).type (g.node b).type = .ok t) :
      Change g (g.joinRoots a b t)
  | push (g : TypeGraph) (type : Option TypeName) (isArray : Bool) :
      Change g (g.push { type, isArray })

/-- A change of a node that keeps its link does not take the mark of a list away. -/
theorem isListAt_update (g : TypeGraph) (i x : NodeId) (f : Node → Node)
    (hl : ∀ n, (f n).link = n.link) (ha : ∀ n, n.isArray = true → (f n).isArray = true)
    (hx : g.isListAt x = true) : (g.update i f).isListAt x = true := by
  unfold isListAt at hx ⊢
  rw [root_update g i x f hl]
  by_cases hroot : i = g.root x
  · subst hroot
    rcases lt_or_ge (g.root x) g.size with hlt | hge
    · rw [node_update_self g _ f hlt]
      exact ha _ hx
    · rw [node_eq_default g _ hge] at hx
      cases hx
  · rw [node_update_ne g i _ f hroot, hx]

/-- A change that keeps links, types and the marks of lists. -/
theorem extends_update (g : TypeGraph) (i : NodeId) (f : Node → Node)
    (hl : ∀ n, (f n).link = n.link) (ht : ∀ n, (f n).type = n.type)
    (ha : ∀ n, n.isArray = true → (f n).isArray = true) : Extends g (g.update i f) := by
  refine ⟨by rw [size_update], ?_, ?_, fun x => isListAt_update g i x f hl ha⟩
  · intro x y hxy
    rw [root_update g i x f hl, root_update g i y f hl, hxy]
  · intro x t hx _
    unfold typeAt at hx ⊢
    rw [root_update g i x f hl, field_update Node.type g i _ f ht, hx]

/-- The common type of two is the one of them that is settled. -/
theorem unify_left {s : TypeName} {t u : Option TypeName}
    (h : TypeName.unify (some s) t = .ok u) (hs : s ≠ .array) : u = some s := by
  cases t with
  | none =>
    simp only [TypeName.unify, Except.ok.injEq] at h
    exact h.symm
  | some b =>
    simp only [TypeName.unify] at h
    rw [if_neg (fun hc => hs hc.1)] at h
    split at h
    · simpa using h.symm
    · split at h
      · simpa using h.symm
      · cases h

theorem unify_right {s : TypeName} {t u : Option TypeName}
    (h : TypeName.unify t (some s) = .ok u) (hs : s ≠ .array) : u = some s := by
  cases t with
  | none =>
    simp only [TypeName.unify, Except.ok.injEq] at h
    exact h.symm
  | some a =>
    simp only [TypeName.unify] at h
    split at h
    · simpa using h.symm
    · rw [if_neg (fun hc => hs hc.1)] at h
      split at h
      · next hab =>
        rw [hab] at h
        simpa using h.symm
      · cases h

theorem Change.write (g : TypeGraph) (s : Slot) (i : NodeId) (x : Option NodeId)
    (hx : ∀ j, x = some j → j < g.size) : Change g (g.update i (s.write x)) := by
  cases s with
  | element => exact .element g i x hx
  | container => exact .container g i x hx

theorem Change.wellFormed (hc : Change g h) (hg : g.WellFormed) : h.WellFormed := by
  cases hc with
  | compress i => exact compress_wellFormed hg i
  | element i x hx =>
    exact update_wellFormed hg i _ (fun _ => rfl) (fun _ j hj => .inr (hx j hj))
      (fun _ _ hj => .inl hj)
  | container i x hx =>
    exact update_wellFormed hg i _ (fun _ => rfl) (fun _ _ hj => .inl hj)
      (fun _ j hj => .inr (hx j hj))
  | mark i =>
    exact update_wellFormed hg i _ (fun _ => rfl) (fun _ _ hj => .inl hj) (fun _ _ hj => .inl hj)
  | settle r t hr ho =>
    exact update_wellFormed hg r _ (fun _ => rfl) (fun _ _ hj => .inl hj) (fun _ _ hj => .inl hj)
  | join a b t hra hrb hab ha hb ht => exact joinRoots_wellFormed hg a b t hra hrb hab ha hb
  | push type isArray => exact push_wellFormed hg type isArray

theorem extends_settle (g : TypeGraph) (r : NodeId) (t : TypeName)
    (ho : TypeName.isOpen (g.node r).type = true) :
    Extends g (g.update r ({ · with type := some t })) := by
  have hroot : ∀ x, (g.update r ({ · with type := some t })).root x = g.root x :=
    fun x => root_update g r x _ (fun _ => rfl)
  refine ⟨by rw [size_update], fun x y hxy => by rw [hroot, hroot, hxy], ?_,
    fun x => isListAt_update g r x _ (fun _ => rfl) (fun _ hn => hn)⟩
  intro x u hx hu
  unfold typeAt at hx ⊢
  rw [hroot]
  by_cases hxr : r = g.root x
  · -- the class had no settled type
    rw [← hxr] at hx
    rw [hx] at ho
    simp only [TypeName.isOpen, beq_iff_eq] at ho
    exact absurd ho hu
  · rw [node_update_ne g r _ _ hxr, hx]

theorem extends_joinRoots (hg : g.WellFormed) (a b : NodeId) (t : Option TypeName)
    (hra : g.IsRoot a) (hrb : g.IsRoot b) (hab : a ≠ b) (ha : a < g.size) (hb : b < g.size)
    (ht : TypeName.unify (g.node a).type (g.node b).type = .ok t) :
    Extends g (g.joinRoots a b t) := by
  have hroot := root_joinRoots hg a b t hra hrb hab ha hb
  refine ⟨by rw [size_joinRoots], fun x y hxy => by rw [hroot, hroot, hxy], ?_, ?_⟩
  · intro x u hx hu
    unfold typeAt at hx ⊢
    rw [hroot]
    by_cases hxa : g.root x = a
    · rw [if_pos hxa, type_joinRoots g a b t ha hb, if_pos rfl]
      rw [hxa] at hx
      rw [hx] at ht
      exact unify_left ht hu
    · rw [if_neg hxa, type_joinRoots g a b t ha hb]
      by_cases hxb : g.root x = b
      · rw [if_pos hxb]
        rw [hxb] at hx
        rw [hx] at ht
        exact unify_right ht hu
      · rw [if_neg hxb, if_neg hxa, hx]
  · intro x hx
    unfold isListAt at hx ⊢
    rw [hroot, isArray_joinRoots g a b t hb]
    by_cases hxa : g.root x = a
    · rw [if_pos hxa, if_pos rfl, ← hxa, hx, Bool.true_or]
    · rw [if_neg hxa]
      split
      · next hxb => rw [← hxb, hx, Bool.or_true]
      · exact hx

theorem extends_push (hg : g.WellFormed) (type : Option TypeName) (isArray : Bool) :
    Extends g (g.push { type, isArray }) := by
  have hroot := root_push hg type isArray
  have hnode : ∀ i, g.node i ≠ default → (g.push { type, isArray }).node i = g.node i := by
    intro i hi
    rw [node_push, if_neg fun h => hi (node_eq_default g i h.ge)]
  refine ⟨by rw [size_push]; omega, fun x y hxy => by rw [hroot, hroot, hxy], ?_, ?_⟩
  · intro x u hx _
    unfold typeAt at hx ⊢
    rw [hroot, hnode _ fun h => (by rw [h] at hx; cases hx), hx]
  · intro x hx
    unfold isListAt at hx ⊢
    rw [hroot, hnode _ fun h => (by rw [h] at hx; cases hx), hx]

theorem Change.extends (hc : Change g h) (hg : g.WellFormed) : Extends g h := by
  cases hc with
  | compress i => exact (compress_sameClasses hg i).extends
  | element i x hx => exact extends_update g i _ (fun _ => rfl) (fun _ => rfl) (fun _ hn => hn)
  | container i x hx => exact extends_update g i _ (fun _ => rfl) (fun _ => rfl) (fun _ hn => hn)
  | mark i => exact extends_update g i _ (fun _ => rfl) (fun _ => rfl) (fun _ _ => rfl)
  | settle r t hr ho => exact extends_settle g r t ho
  | join a b t hra hrb hab ha hb ht => exact extends_joinRoots hg a b t hra hrb hab ha hb ht
  | push type isArray => exact extends_push hg type isArray

/-! ## Sequences of changes -/

/-- What sequences of small changes lead to. -/
def Changes : TypeGraph → TypeGraph → Prop :=
  Relation.ReflTransGen Change

instance changesRefl : Std.Refl Changes :=
  ⟨fun _ => .refl⟩

instance changesTrans : IsTrans TypeGraph Changes :=
  ⟨fun _ _ _ => ReflTransGen.trans⟩

theorem Change.single (hc : Change g h) : Changes g h :=
  .single hc

theorem Changes.wellFormed (hc : Changes g h) (hg : g.WellFormed) : h.WellFormed := by
  induction hc with
  | refl => exact hg
  | tail _ hlast ih => exact hlast.wellFormed ih

theorem Changes.extends (hc : Changes g h) (hg : g.WellFormed) : Extends g h := by
  induction hc with
  | refl => exact Extends.refl g
  | tail hfirst hlast ih => exact ih.trans (hlast.extends (Changes.wellFormed hfirst hg))

theorem Changes.size_le (hc : Changes g h) (hg : g.WellFormed) : g.size ≤ h.size :=
  (hc.extends hg).size_le

def Compressions : TypeGraph → TypeGraph → Prop :=
  Relation.ReflTransGen fun g h => ∃ i, h = g.compress i

instance compressionsRefl : Std.Refl Compressions :=
  ⟨fun _ => .refl⟩

instance compressionsTrans : IsTrans TypeGraph Compressions :=
  ⟨fun _ _ _ => ReflTransGen.trans⟩

theorem Compressions.single (g : TypeGraph) (i : NodeId) : Compressions g (g.compress i) :=
  ReflTransGen.single ⟨i, rfl⟩

theorem Compressions.changes (hc : Compressions g h) : Changes g h := by
  refine ReflTransGen.mono ?_ _ _ hc
  rintro k _ ⟨i, rfl⟩
  exact Change.compress k i

theorem Compressions.wellFormed (hc : Compressions g h) (hg : g.WellFormed) : h.WellFormed :=
  hc.changes.wellFormed hg

theorem Compressions.sameClasses (hc : Compressions g h) (hg : g.WellFormed) : SameClasses g h := by
  induction hc with
  | refl => exact SameClasses.refl g
  | tail hfirst hlast ih =>
    obtain ⟨i, rfl⟩ := hlast
    exact ih.trans (compress_sameClasses (Compressions.wellFormed hfirst hg) i)

end BlockProgram.TypeGraph
