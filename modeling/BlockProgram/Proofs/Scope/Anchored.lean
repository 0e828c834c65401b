import BlockProgram.Proofs.Scope.Resolution

/-!
# Names that keep a meaning

A name is anchored in a scope when an inner scope around declares it, or when it is declared at the
root and its variable is used in a scope around. Once anchored a name stays so: an inner scope keeps
what it declares, and a variable of the root that is used somewhere moves to a scope around all its
uses, if it moves at all. An anchored name means something (`Anchored.finds`).

The walk anchors every name that a block looks up later on: the variable that it reads or writes
(`anchors_enter`) and the variables that it declares for its own inputs (`anchors_openInputs`).
-/

namespace BlockProgram

open Compilation Relation

variable {n : String} {s : ScopeId} {v : BindingId}

variable {p : Program} {c c' : Compilation}

/-- Some variable is sure to be found under name `n` in scope `s`. -/
def Anchored (c : Compilation) (n : String) (s : ScopeId) : Prop :=
  (∃ t v, t ≠ rootScope ∧ Inside c t s ∧ (c.scope t).declared.get? n = some v) ∨
  ∃ t v, (c.scope rootScope).declared.get? n = some v ∧ Inside c t s ∧ v ∈ (c.scope t).referenced

theorem Finds.inside (h : Finds c n v s) :
    ∃ t, Inside c t s ∧ (c.scope t).declared.get? n = some v := by
  induction h with
  | here h => exact ⟨_, .refl, h⟩
  | up _ hq _ ih =>
    obtain ⟨t, ht, hv⟩ := ih
    exact ⟨t, .head hq ht, hv⟩

theorem finds_of_inside {t s : ScopeId} (h : Inside c t s)
    (hv : (c.scope t).declared.get? n = some v) : ∃ w, Finds c n w s := by
  induction h using ReflTransGen.head_induction_on with
  | refl => exact ⟨v, .here hv⟩
  | @head s q hq _ ih =>
    obtain ⟨w, hw⟩ := ih
    cases hfree : (c.scope s).declared.get? n with
    | some w' => exact ⟨w', .here hfree⟩
    | none => exact ⟨w, .up hfree hq hw⟩

theorem Anchored.finds (ht : ScopeTree c) (hs : s < c.scopes.size) (h : Anchored c n s) :
    ∃ v, Finds c n v s := by
  rcases h with ⟨t, v, _, hinside, hv⟩ | ⟨_, v, hv, _, _⟩
  · exact finds_of_inside hinside hv
  · exact finds_of_root ht hs hv

/-- A name that is anchored in a scope is anchored in the scopes inside it. -/
theorem Anchored.inward {s t : ScopeId} (h : Anchored c n s) (hst : Inside c s t) :
    Anchored c n t := by
  rcases h with ⟨u, v, hroot, hu, hv⟩ | ⟨u, v, hv, hu, hused⟩
  · exact .inl ⟨u, v, hroot, ReflTransGen.trans hst hu, hv⟩
  · exact .inr ⟨u, v, hv, ReflTransGen.trans hst hu, hused⟩

/-! ## Steps that anchor no less -/

theorem lt_of_get?_declared (h : (c.scope s).declared.get? n = some v) : s < c.scopes.size := by
  apply Nat.lt_of_not_le
  intro hle
  rw [scope_eq_default c hle] at h
  cases h

/-- Scopes keep their places, what they declare and what is used in them. -/
structure Grows (c c' : Compilation) : Prop where
  size_le : c.scopes.size ≤ c'.scopes.size
  parent_eq : ∀ s, s < c.scopes.size → (c'.scope s).parent = (c.scope s).parent
  declared : ∀ s n v, (c.scope s).declared.get? n = some v → (c'.scope s).declared.get? n = some v
  referenced : ∀ s v, v ∈ (c.scope s).referenced → v ∈ (c'.scope s).referenced

instance growsTrans : IsTrans Compilation Grows where
  trans _ _ _ h1 h2 := {
    size_le := le_trans h1.size_le h2.size_le
    parent_eq := fun s hs =>
      (h2.parent_eq s (lt_of_lt_of_le hs h1.size_le)).trans (h1.parent_eq s hs)
    declared := fun s n v h => h2.declared s n v (h1.declared s n v h)
    referenced := fun s v h => h2.referenced s v (h1.referenced s v h) }

theorem Grows.inside (h : Grows c c') {t s : ScopeId} (hts : Inside c t s) : Inside c' t s := by
  refine ReflTransGen.mono ?_ s t hts
  intro x q hq
  rw [h.parent_eq x (lt_of_parent hq)]
  exact hq

theorem Grows.anchored (h : Grows c c') (hs : Anchored c n s) : Anchored c' n s := by
  rcases hs with ⟨t, v, hroot, ht, hv⟩ | ⟨t, v, hv, ht, hused⟩
  · exact .inl ⟨t, v, hroot, h.inside ht, h.declared t n v hv⟩
  · exact .inr ⟨t, v, h.declared _ n v hv, h.inside ht, h.referenced t v hused⟩

theorem Keeps.grows {raw : Prop} (h : Keeps c.scopes.size raw c c') : Grows c c' where
  size_le := h.size_le
  parent_eq := h.parent_eq
  declared s n v hv := h.declared s (lt_of_get?_declared hv) n v hv
  referenced s v hv := by rw [h.referenced_eq]; exact hv

theorem grows_recordUse (hs : s < c.scopes.size) (b : BlockRef) (assigns : Bool) (v : BindingId) :
    Grows c (Program.recordUse s b assigns v c) where
  size_le := (steps_recordUse s b assigns v).size_le
  parent_eq t _ := scope_field_recordUse assigns Scope.parent (fun _ _ _ => rfl) t
  declared t n w hw := by
    rw [scope_field_recordUse assigns (·.declared) (fun _ _ _ => rfl)]
    exact hw
  referenced t w hw := (mem_referenced_recordUse assigns hs t w).mpr (.inl hw)

/-- The block that the walk comes to finds the variable that it reads or writes. -/
theorem anchors_enter {b : BlockRef} (h : Entered p c.scopes.size s b c c') :
    Grows c c' ∧ ∀ n, (p.block b).usedName? = some n → Anchored c' n s := by
  cases h with
  | apart hnone hadd _ _ =>
    refine ⟨hadd.keeps.grows, fun n hn => ?_⟩
    rw [hnone] at hn
    cases hn
  | @uses n v d assigns hn hadd _ hv =>
    have hgrows := grows_recordUse hv.lt b assigns v
    refine ⟨trans_of Grows hadd.keeps.grows hgrows, fun m hm => ?_⟩
    rw [hn] at hm
    cases hm
    obtain ⟨t, hinside, hdeclared⟩ := hv.inside
    by_cases hroot : t = rootScope
    · subst hroot
      refine .inr ⟨s, v, hgrows.declared _ n v hdeclared, .refl, ?_⟩
      exact (mem_referenced_recordUse assigns hv.lt s v).mpr (.inr ⟨rfl, rfl⟩)
    · exact hgrows.anchored (.inl ⟨t, v, hroot, hinside, hdeclared⟩)

/-- What a block declares for its inputs is anchored in the scope that the block is placed in. -/
theorem anchors_openInputs {s inner : ScopeId} {b : BlockRef} (h : Opened p s b c inner c')
    (hgrows : Grows c c') (hs : s < c.scopes.size) (hb : c.blockScope.get? b = some s) :
    ∃ t, c'.blockScope.get? b = some t ∧ t < c'.scopes.size ∧ Inside c' s t ∧
      ∀ n ∈ p.ownNames (p.block b), Anchored c' n t := by
  cases h with
  | same hnames hscope =>
    refine ⟨s, by rw [hscope, hb], lt_of_lt_of_le hs hgrows.size_le, .refl, fun n hn => ?_⟩
    rw [hnames] at hn
    cases hn
  | new _ hlt hinner hdeclared hscope =>
    obtain ⟨declared, hinner⟩ := hinner
    have hroot : c.scopes.size ≠ rootScope := ne_of_gt (lt_of_le_of_lt (Nat.zero_le s) hs)
    refine ⟨c.scopes.size, by rw [hscope, Table.get?_insert_self], hlt,
      .single (by rw [hinner]), fun n hn => ?_⟩
    obtain ⟨v, hv⟩ := hdeclared n hn
    exact .inl ⟨c.scopes.size, v, hroot, .refl, hv⟩

/-! ## After the walk -/

theorem Anchored.congr (hparent : ∀ s, (c'.scope s).parent = (c.scope s).parent)
    (hdeclared : ∀ s, (c'.scope s).declared = (c.scope s).declared)
    (hreferenced : ∀ s, (c'.scope s).referenced = (c.scope s).referenced) (h : Anchored c n s) :
    Anchored c' n s := by
  unfold Anchored Inside at h ⊢
  simp only [hparent, hdeclared, hreferenced]
  exact h

/-- A variable that moves goes to a scope around all its uses. -/
theorem anchored_narrow (ht : ScopeTree c) {e : String × BindingId}
    (he : (c.scope rootScope).declared.get? e.1 = some e.2) (h : Anchored c n s) :
    Anchored (c.narrow e) n s := by
  rcases narrow_cases c e with hsame | ⟨hroot, hfree, hmove⟩
  · rw [hsame]
    exact h
  rw [hmove]
  have ho := owner_lt ht e.2
  have hget := get?_moveTo c e.1 e.2 ho hroot
  have hinside : ∀ {t s}, Inside c t s → Inside (c.moveTo e.1 e.2 (c.owner e.2)) t s := by
    intro t s hts
    refine ReflTransGen.mono ?_ s t hts
    intro x q hq
    rw [parent_moveTo]
    exact hq
  rcases h with ⟨t, v, htroot, hts, hv⟩ | ⟨t, v, hv, hts, hused⟩
  · by_cases hmoved : n = e.1 ∧ t = c.owner e.2
    · rw [hmoved.1, hmoved.2, hfree] at hv
      cases hv
    · refine .inl ⟨t, v, htroot, hinside hts, ?_⟩
      rw [hget, if_neg hmoved, if_neg fun h => htroot h.2]
      exact hv
  · by_cases hn : n = e.1
    · subst hn
      rw [he] at hv
      cases hv
      refine .inl ⟨c.owner e.2, e.2, hroot, hinside ?_, ?_⟩
      · exact ReflTransGen.trans hts (inside_owner ht hused)
      · rw [hget, if_pos ⟨rfl, rfl⟩]
    · refine .inr ⟨t, v, ?_, hinside hts, ?_⟩
      · rw [hget, if_neg fun h => hn h.1, if_neg fun h => hn h.1]
        exact hv
      · rw [scope_field_moveTo Scope.referenced fun _ _ => rfl]
        exact hused

theorem blockScope_narrow (c : Compilation) (e : String × BindingId) :
    (c.narrow e).blockScope = c.blockScope := by
  rcases narrow_cases c e with h | ⟨_, _, h⟩
  · rw [h]
  · rw [h]
    rfl

end BlockProgram
