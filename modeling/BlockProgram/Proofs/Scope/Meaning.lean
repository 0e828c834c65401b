import BlockProgram.Proofs.Scope.Tree

/-!
# What names mean

A name means the variable of the nearest scope around that declares it (`Finds`), which is what the
search finds (`find?_eq_some_iff`). The owner of a variable has all its uses inside it
(`inside_owner`).
-/

namespace BlockProgram

open Compilation List Relation

variable {assigned : Bool} {n : String} {s t o q k : ScopeId} {v : BindingId} {c c' : Compilation}

/-! ## Names -/

/-- Variable `v` is what name `n` means in a scope. -/
inductive Finds (c : Compilation) (n : String) (v : BindingId) : ScopeId → Prop where
  | here {s : ScopeId} (h : (c.scope s).declared.get? n = some v) : Finds c n v s
  | up {s q : ScopeId} (hfree : (c.scope s).declared.get? n = none)
      (hq : (c.scope s).parent = some q) (h : Finds c n v q) : Finds c n v s

theorem lt_of_parent (h : (c.scope s).parent = some q) : s < c.scopes.size := by
  apply Nat.lt_of_not_le
  intro hle
  rw [scope_eq_default c hle] at h
  cases h

theorem ScopeTree.ne_root (ht : ScopeTree c) (h : (c.scope s).parent = some q) : s ≠ rootScope := by
  rintro rfl
  rw [ht.root_parent] at h
  cases h

theorem ScopeTree.parent_lt (ht : ScopeTree c) (h : (c.scope s).parent = some q) :
    q < s ∧ s ∈ (c.scope q).children := by
  obtain ⟨r, hr, hlt, hmem⟩ := ht.parent s (lt_of_parent h) (ht.ne_root h)
  rw [h] at hr
  cases hr
  exact ⟨hlt, hmem⟩

theorem Finds.lt (h : Finds c n v s) : s < c.scopes.size := by
  cases h with
  | here h =>
    apply Nat.lt_of_not_le
    intro hle
    rw [scope_eq_default c hle] at h
    cases h
  | up _ hq _ => exact lt_of_parent hq

/-- A name has one meaning. -/
theorem Finds.unique {v w : BindingId} (hv : Finds c n v s) (hw : Finds c n w s) : v = w := by
  induction hv with
  | here hv =>
    cases hw with
    | here hw => exact Option.some.inj (hv.symm.trans hw)
    | up hfree _ _ =>
      rw [hv] at hfree
      cases hfree
  | up hfree hq _ ih =>
    cases hw with
    | here hw =>
      rw [hw] at hfree
      cases hfree
    | up _ hq' hw =>
      rw [hq] at hq'
      cases hq'
      exact ih hw

/-- A variable that is found is declared somewhere. -/
theorem Finds.declared (h : Finds c n v s) : ∃ t, (c.scope t).declared.get? n = some v := by
  induction h with
  | here h => exact ⟨_, h⟩
  | up _ _ _ ih => exact ih

theorem finds_of_findFrom (fuel : Nat) (h : c.findFrom n fuel s = some v) : Finds c n v s := by
  induction fuel generalizing s with
  | zero => cases h
  | succ fuel ih =>
    unfold findFrom at h
    split at h
    · next hv =>
      cases h
      exact .here hv
    · next hfree =>
      split at h
      · cases h
      · next q hq => exact .up hfree hq (ih h)

section

variable (ht : ScopeTree c)
include ht

/-- The search goes up to smaller numbers, so its fuel lasts. -/
theorem findFrom_of_finds (h : Finds c n v s) (fuel : Nat) (hfuel : s < fuel) :
    c.findFrom n fuel s = some v := by
  induction h generalizing fuel with
  | here h =>
    cases fuel with
    | zero => cases hfuel
    | succ fuel =>
      unfold findFrom
      rw [h]
  | up hfree hq _ ih =>
    cases fuel with
    | zero => cases hfuel
    | succ fuel =>
      unfold findFrom
      rw [hfree, hq]
      exact ih fuel (lt_of_lt_of_le (ht.parent_lt hq).1 (Nat.le_of_lt_succ hfuel))

theorem find?_eq_some_iff : c.find? s n = some v ↔ Finds c n v s :=
  ⟨finds_of_findFrom _, fun h => findFrom_of_finds ht h _ h.lt⟩

/-- A name that is declared at the root means something everywhere. -/
theorem finds_of_root (hs : s < c.scopes.size)
    (hroot : (c.scope rootScope).declared.get? n = some v) : ∃ w, Finds c n w s := by
  induction s using Nat.strongRecOn with
  | ind s ih =>
    cases hfree : (c.scope s).declared.get? n with
    | some w => exact ⟨w, .here hfree⟩
    | none =>
      have hne : s ≠ rootScope := by
        rintro rfl
        rw [hroot] at hfree
        cases hfree
      obtain ⟨q, hq, hlt, _⟩ := ht.parent s hs hne
      obtain ⟨w, hw⟩ := ih q hlt (lt_trans hlt hs)
      exact ⟨w, .up hfree hq hw⟩

/-! ## Scopes inside scopes -/

/-- Scope `s` is scope `o` or inside it. -/
def Inside (c : Compilation) (o s : ScopeId) : Prop :=
  Relation.ReflTransGen (fun x q => (c.scope x).parent = some q) s o

theorem Inside.le (h : Inside c o s) : o ≤ s := by
  induction h with
  | refl => exact le_rfl
  | tail _ hlast ih => exact le_trans (le_of_lt (ht.parent_lt hlast).1) ih

theorem ScopeTree.inside_root (hs : s < c.scopes.size) : Inside c rootScope s := by
  induction s using Nat.strongRecOn with
  | ind s ih =>
    by_cases hne : s = rootScope
    · rw [hne]
      exact .refl
    · obtain ⟨q, hq, hlt, _⟩ := ht.parent s hs hne
      exact .head hq (ih q hlt (lt_trans hlt hs))

/-- What is inside a scope is the scope itself or inside one of its children. -/
theorem Inside.eq_or_child (h : Inside c o s) :
    s = o ∨ ∃ k ∈ (c.scope o).children, Inside c k s := by
  rcases ReflTransGen.cases_tail h with h | ⟨k, hk, hparent⟩
  · exact .inl h.symm
  · exact .inr ⟨k, (ht.parent_lt hparent).2, hk⟩

theorem Inside.of_child (hk : k ∈ (c.scope o).children) (h : Inside c k s) : Inside c o s :=
  .tail h (ht.child o k hk).2

end

/-- Of two scopes around a third, one is around the other. -/
theorem Inside.total {o' t : ScopeId} (h : Inside c o t) (h' : Inside c o' t) :
    Inside c o o' ∨ Inside c o' o := by
  have huniq : Relator.RightUnique fun x q => (c.scope x).parent = some q :=
    fun _ _ _ hq hq' => Option.some.inj (hq.symm.trans hq')
  exact (ReflTransGen.total_of_right_unique huniq h h').symm

/-- A scope is not inside its children. -/
theorem ScopeTree.not_inside_child (ht : ScopeTree c) (hk : k ∈ (c.scope s).children) :
    ¬ Inside c k s := by
  intro h
  exact Nat.not_lt_of_le (h.le ht) (ht.parent_lt (ht.child s k hk).2).1

/-- What is inside two children of a scope is inside one. -/
theorem ScopeTree.eq_of_inside (ht : ScopeTree c) {k' t : ScopeId} (hk : k ∈ (c.scope s).children)
    (hk' : k' ∈ (c.scope s).children) (h : Inside c k t) (h' : Inside c k' t) : k = k' := by
  have hup : ∀ {a b}, a ∈ (c.scope s).children → b ∈ (c.scope s).children → Inside c a b →
      a = b := by
    intro a b ha hb hab
    rcases ReflTransGen.cases_head hab with h | ⟨q, hq, hqa⟩
    · exact h.symm
    · rw [(ht.child s b hb).2] at hq
      cases hq
      exact absurd hqa (ht.not_inside_child ha)
  rcases h.total h' with hkk | hkk
  · exact hup hk hk' hkk
  · exact (hup hk' hk hkk).symm

/-! ## Owners -/

theorem lt_of_mem_usesIn (h : v ∈ c.usesIn assigned s) : s < c.scopes.size := by
  apply Nat.lt_of_not_le
  intro hle
  unfold usesIn at h
  rw [scope_eq_default c hle] at h
  cases assigned <;> cases h

theorem lt_of_referenced (h : v ∈ (c.scope s).referenced) : s < c.scopes.size :=
  lt_of_mem_usesIn (show v ∈ c.usesIn false s from h)

variable (ht : ScopeTree c)
include ht

/-- A use inside a scope is found below it: numbers of scopes grow on the way down, so the fuel
lasts. -/
theorem usedBelowFrom_of_inside (hv : v ∈ c.usesIn assigned t) (fuel : Nat)
    (hfuel : c.scopes.size ≤ s + fuel) (h : Inside c s t) :
    c.usedBelowFrom assigned v fuel s = true := by
  induction fuel generalizing s with
  | zero =>
    have hlt := lt_of_le_of_lt (h.le ht) (lt_of_mem_usesIn hv)
    exact absurd hlt (Nat.not_lt_of_le hfuel)
  | succ fuel ih =>
    unfold usedBelowFrom
    rw [Bool.or_eq_true]
    rcases h.eq_or_child ht with rfl | ⟨k, hk, hkt⟩
    · exact .inl (contains_iff_mem.mpr hv)
    · refine .inr (any_eq_true.mpr ⟨k, hk, ih ?_ hkt⟩)
      calc c.scopes.size ≤ s + (fuel + 1) := hfuel
        _ = s + 1 + fuel := Nat.add_right_comm s fuel 1
        _ ≤ k + fuel := Nat.add_le_add_right (ht.parent_lt (ht.child s k hk).2).1 fuel

theorem used_of_usedBelowFrom (fuel : Nat) (h : c.usedBelowFrom assigned v fuel s = true) :
    ∃ t, Inside c s t ∧ v ∈ c.usesIn assigned t := by
  induction fuel generalizing s with
  | zero => cases h
  | succ fuel ih =>
    unfold usedBelowFrom at h
    rcases Bool.or_eq_true _ _ ▸ h with h | h
    · exact ⟨s, .refl, contains_iff_mem.mp h⟩
    · obtain ⟨k, hk, hkv⟩ := any_eq_true.mp h
      obtain ⟨t, hkt, hv⟩ := ih hkv
      exact ⟨t, hkt.of_child ht hk, hv⟩

/-- The search below a scope finds the uses inside it. -/
theorem usedBelow_iff :
    c.usedBelow assigned v s = true ↔ ∃ t, Inside c s t ∧ v ∈ c.usesIn assigned t :=
  ⟨used_of_usedBelowFrom ht _,
    fun ⟨_, hst, hv⟩ => usedBelowFrom_of_inside ht hv _ (Nat.le_add_left _ _) hst⟩

/-- The search for an owner starts where all uses are inside and goes on to where they all are. -/
theorem inside_ownerFrom (fuel : Nat) (hall : ∀ t, v ∈ (c.scope t).referenced → Inside c s t)
    (h : v ∈ (c.scope t).referenced) : Inside c (c.ownerFrom v fuel s) t := by
  induction fuel generalizing s with
  | zero => exact hall t h
  | succ fuel ih =>
    unfold ownerFrom
    split
    · exact hall t h
    · next hself =>
      split
      · next only honly =>
        split
        · refine ih ?_
          -- a use is inside a child that is used, and only one child is
          intro u hu
          rcases (hall u hu).eq_or_child ht with rfl | ⟨k, hk, hku⟩
          · exact absurd hu hself
          · have hused : c.usedBelow false v k = true := (usedBelow_iff ht).mpr ⟨u, hku, hu⟩
            have hmem := mem_filter.mpr ⟨hk, hused⟩
            rw [honly] at hmem
            rw [← mem_singleton.mp hmem]
            exact hku
        · exact hall t h
      · exact hall t h

theorem inside_owner (h : v ∈ (c.scope t).referenced) : Inside c (c.owner v) t :=
  inside_ownerFrom ht _ (fun _ hu => ht.inside_root (lt_of_referenced hu)) h

/-- A variable that is used nowhere belongs to the root. -/
theorem used_of_owner (h : c.owner v ≠ rootScope) : ∃ t, v ∈ (c.scope t).referenced := by
  unfold owner at h
  cases hsize : c.scopes.size with
  | zero =>
    rw [hsize] at h
    exact absurd rfl h
  | succ fuel =>
    rw [hsize] at h
    unfold ownerFrom at h
    split at h
    · exact absurd rfl h
    · split at h
      · next only honly =>
        have hused : only ∈ (c.scope rootScope).children.filter (c.usedBelow false v) := by
          rw [honly]
          exact .head _
        obtain ⟨t, _, hv⟩ := (usedBelow_iff ht).mp (mem_filter.mp hused).2
        exact ⟨t, hv⟩
      · exact absurd rfl h

end BlockProgram
