import BlockProgram.Proofs.Scope.Walk
import BlockProgram.Proofs.Text.Identifier

/-!
# Output names

Naming goes down the tree of scopes and takes along the names in use: the reserved and the taken
ones and those of all scopes around. So each variable gets a legal identifier that is none of those
(`NamedBelow`), and two variables have different names if one scope is inside the other or they
share it (`outputNames_apart_and_legal`).
-/

namespace BlockProgram

open Compilation List

variable {s : ScopeId} {v : BindingId} {used : List String}

variable {c c' d : Compilation}

/-! ## Variables in scopes -/

structure SameScopes (d c : Compilation) : Prop where
  scopes_eq : c.scopes = d.scopes
  size_eq : c.bindings.size = d.bindings.size

theorem SameScopes.trans (h : SameScopes d c) (h' : SameScopes c c') : SameScopes d c' :=
  ⟨h'.scopes_eq.trans h.scopes_eq, h'.size_eq.trans h.size_eq⟩

theorem SameScopes.scope_eq (h : SameScopes d c) : c.scope = d.scope := by
  funext s
  unfold scope
  rw [h.scopes_eq]

theorem SameScopes.inside_eq (h : SameScopes d c) : Inside c = Inside d := by
  unfold Inside
  rw [h.scope_eq]

theorem Notes.sameScopes (h : Notes c c') : SameScopes c c' :=
  ⟨h.same.1, h.same.2.2.2⟩

/-- Variable `v` is declared in scope `s` or inside it. -/
def Holds (d : Compilation) (s : ScopeId) (v : BindingId) : Prop :=
  ∃ t, Inside d s t ∧ v ∈ (d.scope t).declared.values

theorem scope_lt_of_mem_values (h : v ∈ (d.scope s).declared.values) : s < d.scopes.size := by
  apply Nat.lt_of_not_le
  intro hle
  rw [scope_eq_default d hle] at h
  cases h

theorem DeclaredOnce.eq_of_mem_values (hd : DeclaredOnce d) {s t : ScopeId}
    (hs : v ∈ (d.scope s).declared.values) (ht : v ∈ (d.scope t).declared.values) : s = t := by
  obtain ⟨n, hn⟩ := ((hd.distinct s).mem_values_iff v).mp hs
  obtain ⟨m, hm⟩ := ((hd.distinct t).mem_values_iff v).mp ht
  exact (hd.once s t n m v hn hm).1

theorem DeclaredOnce.lt_of_mem_values (hd : DeclaredOnce d) (hs : v ∈ (d.scope s).declared.values) :
    v < d.bindings.size := by
  obtain ⟨n, hn⟩ := ((hd.distinct s).mem_values_iff v).mp hs
  exact hd.lt s n v hn

/-! ## The variables of one scope -/

/-- The variables of a list have got names that were not in use, and now are. Each was first offered
its own name, so that is in use, too. -/
structure Named (used : List String) (l : List BindingId) (acc : List String × Compilation) :
    Prop where
  used_subset : used ⊆ acc.1
  origin : ∀ x ∈ acc.1, x ∈ used ∨ ∃ v ∈ l, (acc.2.binding v).outputName = some x
  own : ∀ v ∈ l, Text.identifier (acc.2.binding v).name ∈ acc.1
  named : ∀ v ∈ l, ∃ name, (acc.2.binding v).outputName = some name ∧ Text.IsIdentifier name ∧
    name ∉ used ∧ name ∈ acc.1
  apart : ∀ v ∈ l, ∀ w ∈ l, v ≠ w → (acc.2.binding v).outputName ≠ (acc.2.binding w).outputName

theorem binding_nameEach (l : List BindingId) (acc : List String × Compilation) (hv : v ∉ l) :
    (l.foldl nameOne acc).2.binding v = acc.2.binding v := by
  induction l generalizing acc with
  | nil => rfl
  | cons w r ih =>
    rw [mem_cons, not_or] at hv
    rw [foldl_cons, ih _ hv.2]
    exact binding_updateBinding_ne acc.2 hv.1 _

theorem named_nameEach {l : List BindingId} (hl : l.Nodup) (acc : List String × Compilation)
    (hlt : ∀ v ∈ l, v < acc.2.bindings.size) : Named acc.1 l (l.foldl nameOne acc) := by
  induction l generalizing acc with
  | nil => exact ⟨List.Subset.refl _, fun _ => .inl, nofun, nofun, nofun⟩
  | cons v r ih =>
    rw [nodup_cons] at hl
    have hv : v < acc.2.bindings.size := hlt v (.head _)
    have hrest := ih hl.2 (nameOne acc v) (by
      intro w hw
      exact (size_updateBinding acc.2 v _).symm ▸ hlt w (.tail v hw))
    obtain ⟨name, hfresh, hname⟩ : ∃ name,
        Text.FirstFree acc.1 (Text.identifier (acc.2.binding v).name) name ∧
        nameOne acc v =
          (name :: acc.1, acc.2.updateBinding v ({ · with outputName := some name })) :=
      ⟨_, Text.firstFree_fresh _ _, rfl⟩
    -- the first variable keeps its name while the others get theirs
    have hbinding : (r.foldl nameOne (nameOne acc v)).2.binding v =
        { acc.2.binding v with outputName := some name } := by
      rw [binding_nameEach r _ hl.1, hname, binding_updateBinding_self acc.2 hv]
    rw [foldl_cons]
    rw [hname] at hrest hbinding ⊢
    have hfirst := congrArg Binding.outputName hbinding
    have hnew : ∀ w ∈ r, ((r.foldl nameOne
        (name :: acc.1, acc.2.updateBinding v ({ · with outputName := some name }))).2.binding
          w).outputName ≠ some name := by
      intro w hw h
      obtain ⟨other, hother, _, hnot, _⟩ := hrest.named w hw
      rw [hother] at h
      cases h
      exact hnot (.head _)
    refine ⟨fun x hx => hrest.used_subset (.tail name hx), ?_, ?_, ?_, ?_⟩
    · intro x hx
      rcases hrest.origin x hx with hx | ⟨w, hw, hx⟩
      · rcases mem_cons.mp hx with rfl | hx
        · exact .inr ⟨v, .head _, hfirst⟩
        · exact .inl hx
      · exact .inr ⟨w, .tail v hw, hx⟩
    · refine forall_mem_cons.mpr ⟨?_, hrest.own⟩
      rw [hbinding]
      exact hrest.used_subset hfresh.base_mem
    · intro w hw
      rcases mem_cons.mp hw with rfl | hw
      · exact ⟨name, hfirst, hfresh.isIdentifier (Text.isIdentifier_identifier _), hfresh.not_mem,
          hrest.used_subset mem_cons_self⟩
      · obtain ⟨other, hother, hlegal, hnot, hmem⟩ := hrest.named w hw
        exact ⟨other, hother, hlegal, fun h => hnot (.tail name h), hmem⟩
    · intro w hw u hu hne
      rcases mem_cons.mp hw with rfl | hwr
      · rcases mem_cons.mp hu with rfl | hur
        · exact absurd rfl hne
        · rw [hfirst]
          exact (hnew u hur).symm
      · rcases mem_cons.mp hu with rfl | hur
        · rw [hfirst]
          exact hnew w hwr
        · exact hrest.apart w hwr u hur hne

/-! ## The tree -/

/-- The variables in and inside a scope have legal names that were not in use, and different names
if one of two is declared where the other can be seen. The own name of a variable was in use, or a
variable that can be seen has it. -/
structure NamedBelow (d : Compilation) (used : List String) (s : ScopeId) (c : Compilation) :
    Prop where
  named : ∀ v, Holds d s v → ∃ name, (c.binding v).outputName = some name ∧
    Text.IsIdentifier name ∧ name ∉ used
  own : ∀ t v, Inside d s t → v ∈ (d.scope t).declared.values →
    Text.identifier (c.binding v).name ∈ used ∨ ∃ u w, Inside d s u ∧ Inside d u t ∧
      w ∈ (d.scope u).declared.values ∧
      (c.binding w).outputName = some (Text.identifier (c.binding v).name)
  apart : ∀ t u v w, Inside d s t → Inside d t u → v ∈ (d.scope t).declared.values →
    w ∈ (d.scope u).declared.values → v ≠ w →
    (c.binding v).outputName ≠ (c.binding w).outputName

theorem NamedBelow.congr (h : NamedBelow d used s c)
    (hc : ∀ v, Holds d s v → c'.binding v = c.binding v) : NamedBelow d used s c' where
  named v hv := by
    rw [hc v hv]
    exact h.named v hv
  own t v ht hv := by
    rw [hc v ⟨t, ht, hv⟩]
    refine (h.own t v ht hv).imp_right fun ⟨u, w, hu, hut, hw, hname⟩ => ⟨u, w, hu, hut, hw, ?_⟩
    rw [hc w ⟨u, hu, hw⟩, hname]
  apart t u v w ht hu hv hw hne := by
    rw [hc v ⟨t, ht, hv⟩, hc w ⟨u, Relation.ReflTransGen.trans hu ht, hw⟩]
    exact h.apart t u v w ht hu hv hw hne

section Tree

variable (ht : ScopeTree d) (hd : DeclaredOnce d)

theorem SameScopes.nameScope (hc : SameScopes d c) (used : List String) (fuel : Nat) (s : ScopeId) :
    SameScopes d (nameScope used fuel c s) :=
  hc.trans (along_nameScope notes_nameOne used fuel c s).sameScopes

/-- A loop over scopes leaves the variables alone that are in none of them. -/
theorem binding_foldl_nameScope {fuel : Nat} (hframe : ∀ c s, SameScopes d c → ¬ Holds d s v →
      (nameScope used fuel c s).binding v = c.binding v) (l : List ScopeId)
    (hl : ∀ k ∈ l, ¬ Holds d k v) (hc : SameScopes d c) :
    (l.foldl (nameScope used fuel) c).binding v = c.binding v := by
  induction l generalizing c with
  | nil => rfl
  | cons k r ih =>
    have hrest := ih (fun x hx => hl x (.tail k hx)) (hc.nameScope used fuel k)
    rw [foldl_cons, hrest]
    exact hframe c k hc (hl k (.head _))

include ht

theorem binding_nameScope (used : List String) (fuel : Nat) (s : ScopeId) (hc : SameScopes d c)
    (hv : ¬ Holds d s v) : (nameScope used fuel c s).binding v = c.binding v := by
  induction fuel generalizing used c s with
  | zero => rfl
  | succ fuel ih =>
    have hown : v ∉ (c.scope s).declared.values := by
      rw [hc.scope_eq]
      exact fun h => hv ⟨s, .refl, h⟩
    have hfirst := binding_nameEach _ (used, c) hown
    have hnotes := along_nameEach notes_nameOne (c.scope s).declared.values (used, c)
    have hsame := hc.trans hnotes.sameScopes
    unfold nameScope
    generalize (c.scope s).declared.values.foldl nameOne (used, c) = acc at hfirst hsame ⊢
    show ((acc.2.scope s).children.foldl (nameScope acc.1 fuel) acc.2).binding v = _
    rw [binding_foldl_nameScope (fun c s hc hs => ih acc.1 s hc hs) _ ?_ hsame]
    · exact hfirst
    · rw [hsame.scope_eq]
      rintro k hk ⟨t, hkt, hvt⟩
      exact hv ⟨t, hkt.of_child ht hk, hvt⟩

include hd

/-- The subtrees of different children are named one after the other. -/
theorem namedBelow_foldl {fuel : Nat} (hname : ∀ c k, SameScopes d c → k ∈ (d.scope s).children →
      NamedBelow d used k (nameScope used fuel c k)) (l : List ScopeId) (hl : l.Nodup)
    (hsub : ∀ k ∈ l, k ∈ (d.scope s).children) (hc : SameScopes d c) :
    ∀ k ∈ l, NamedBelow d used k (l.foldl (nameScope used fuel) c) := by
  induction l generalizing c with
  | nil => exact nofun
  | cons k r ih =>
    rw [nodup_cons] at hl
    have hsame := hc.nameScope used fuel k
    have hk := hsub k (.head _)
    have hrest := ih hl.2 (fun x hx => hsub x (.tail k hx)) hsame
    intro x hx
    rw [foldl_cons]
    rcases mem_cons.mp hx with rfl | hx
    · refine (hname c x hc hk).congr ?_
      -- what is in this subtree is in no other
      rintro v ⟨t, hxt, hvt⟩
      refine binding_foldl_nameScope (fun c s hc hs => binding_nameScope ht used fuel s hc hs) r
        ?_ hsame
      rintro y hy ⟨u, hyu, hvu⟩
      have htu := hd.eq_of_mem_values hvt hvu
      subst htu
      have hxy := ht.eq_of_inside hk (hsub y (.tail x hy)) hxt hyu
      exact hl.1 (hxy ▸ hy)
    · exact hrest x hx

omit hd in
/-- A scope whose variables are named first, and whose children are named with those names in
use. -/
theorem namedBelow_of_children {acc : List String × Compilation}
    (hfirst : Named used (d.scope s).declared.values acc)
    (hkeep : ∀ v ∈ (d.scope s).declared.values, c.binding v = acc.2.binding v)
    (hbelow : ∀ k ∈ (d.scope s).children, NamedBelow d acc.1 k c) : NamedBelow d used s c := by
  have horigin : ∀ t, Inside d s t → ∀ x ∈ acc.1, x ∈ used ∨ ∃ u w, Inside d s u ∧ Inside d u t ∧
      w ∈ (d.scope u).declared.values ∧ (c.binding w).outputName = some x := by
    intro t hst x hx
    refine (hfirst.origin x hx).imp_right fun ⟨w, hw, hname⟩ => ⟨s, w, .refl, hst, hw, ?_⟩
    rw [hkeep w hw, hname]
  refine ⟨?_, ?_, ?_⟩
  · rintro v ⟨t, hst, hv⟩
    rcases hst.eq_or_child ht with rfl | ⟨k, hk, hkt⟩
    · obtain ⟨name, hname, hlegal, hfree, _⟩ := hfirst.named v hv
      exact ⟨name, by rw [hkeep v hv, hname], hlegal, hfree⟩
    · obtain ⟨name, hname, hlegal, hfree⟩ := (hbelow k hk).named v ⟨t, hkt, hv⟩
      exact ⟨name, hname, hlegal, fun h => hfree (hfirst.used_subset h)⟩
  · intro t v hst hv
    rcases hst.eq_or_child ht with rfl | ⟨k, hk, hkt⟩
    · refine horigin t hst _ ?_
      rw [hkeep v hv]
      exact hfirst.own v hv
    · rcases (hbelow k hk).own t v hkt hv with hmem | ⟨u, w, hku, hut, hw, hname⟩
      · exact horigin t hst _ hmem
      · exact .inr ⟨u, w, hku.of_child ht hk, hut, hw, hname⟩
  · intro t u v w hst htu hv hw hne
    rcases hst.eq_or_child ht with rfl | ⟨k, hk, hkt⟩
    · rw [hkeep v hv]
      rcases htu.eq_or_child ht with rfl | ⟨k, hk, hku⟩
      · rw [hkeep w hw]
        exact hfirst.apart v hv w hw hne
      · -- the names of the scope are in use when its children are named
        obtain ⟨name, hname, _, _, hused⟩ := hfirst.named v hv
        obtain ⟨other, hother, _, hfree⟩ := (hbelow k hk).named w ⟨u, hku, hw⟩
        rw [hname, hother]
        intro h
        cases h
        exact hfree hused
    · exact (hbelow k hk).apart t u v w hkt htu hv hw hne

theorem namedBelow_nameScope (used : List String) (fuel : Nat) (hfuel : d.scopes.size ≤ s + fuel)
    (hc : SameScopes d c) : NamedBelow d used s (nameScope used fuel c s) := by
  induction fuel generalizing used c s with
  | zero =>
    -- there is no such scope
    have hnone : ∀ t v, Inside d s t → v ∉ (d.scope t).declared.values := by
      intro t v hst hv
      exact Nat.not_lt_of_le (Nat.le_trans hfuel (hst.le ht)) (scope_lt_of_mem_values hv)
    exact ⟨fun v ⟨t, hst, hv⟩ => absurd hv (hnone t v hst),
      fun t v hst hv => absurd hv (hnone t v hst),
      fun t _ v _ hst _ hv => absurd hv (hnone t v hst)⟩
  | succ fuel ih =>
    have hown : (c.scope s).declared.values = (d.scope s).declared.values := by rw [hc.scope_eq]
    have hnodup : (d.scope s).declared.values.Nodup :=
      (hd.distinct s).nodup_values fun n m v hn hm => (hd.once s s n m v hn hm).2
    have hfirst := named_nameEach hnodup (used, c) fun v hv => by
      rw [hc.size_eq]
      exact hd.lt_of_mem_values hv
    have hnotes := along_nameEach notes_nameOne (d.scope s).declared.values (used, c)
    have hsame := hc.trans hnotes.sameScopes
    unfold nameScope
    rw [hown]
    generalize (d.scope s).declared.values.foldl nameOne (used, c) = acc at hfirst hsame ⊢
    show NamedBelow d used s ((acc.2.scope s).children.foldl (nameScope acc.1 fuel) acc.2)
    rw [hsame.scope_eq]
    refine namedBelow_of_children ht hfirst ?_ ?_
    · intro v hv
      refine binding_foldl_nameScope (fun c s hc hs => binding_nameScope ht acc.1 fuel s hc hs) _ ?_
        hsame
      rintro k hk ⟨t, hkt, hvt⟩
      exact ht.not_inside_child hk (hd.eq_of_mem_values hv hvt ▸ hkt)
    · refine namedBelow_foldl ht hd ?_ _ (ht.nodup s) (fun _ hk => hk) hsame
      intro c' k hc' hk
      refine ih acc.1 ?_ hc'
      calc d.scopes.size ≤ s + (fuel + 1) := hfuel
        _ = s + 1 + fuel := Nat.add_right_comm s fuel 1
        _ ≤ k + fuel := Nat.add_le_add_right (ht.parent_lt (ht.child s k hk).2).1 fuel

end Tree

/-! ## All of tracking -/

theorem namedBelow_nameAll (ht : ScopeTree c) (hd : DeclaredOnce c) :
    NamedBelow c (Text.reservedWords ++ c.taken) rootScope c.nameAll :=
  namedBelow_nameScope ht hd _ _ (Nat.le_add_left _ _) ⟨rfl, rfl⟩

theorem namedBelow_track (p : Program) (disabled : List BlockRef) (taken : List String) :
    let c := (p.track (.fresh disabled taken)).2
    ScopeTree c ∧ NamedBelow c (Text.reservedWords ++ taken) rootScope c := by
  have hsteps := steps_markAll (fresh_consistent disabled taken p) (fresh_tree disabled taken)
    (fresh_declaredOnce disabled taken) (fun _ => rfl)
  have htree := hsteps.invariant (fun _ _ hstep => hstep.tree) (fresh_tree disabled taken)
  have honce := hsteps.invariant (fun _ _ hstep => hstep.declaredOnce)
    (fresh_declaredOnce disabled taken)
  have htaken : _ = taken := hsteps.taken_eq
  rw [track_eq]
  generalize p.markAll (p.visitAll (fresh disabled taken)).2.narrowAll = d at *
  have hnames := namedBelow_nameAll htree honce
  have hsame := (notes_nameAll d).sameScopes
  rw [htaken] at hnames
  refine ⟨(notes_nameAll d).steps.invariant (fun _ _ hstep => hstep.tree) htree, ?_, ?_, ?_⟩
  all_goals simp only [Holds, hsame.scope_eq, hsame.inside_eq]
  · exact hnames.named
  · exact hnames.own
  · exact hnames.apart

/-- After tracking, every declared variable has a legal output name that was not in use. -/
theorem exists_outputName (p : Program) (disabled : List BlockRef) (taken : List String)
    (hv : v ∈ ((p.track (.fresh disabled taken)).2.scope s).declared.values) :
    ∃ name, ((p.track (.fresh disabled taken)).2.binding v).outputName = some name ∧
      Text.IsIdentifier name ∧ name ∉ Text.reservedWords ++ taken := by
  obtain ⟨htree, hnames⟩ := namedBelow_track p disabled taken
  exact hnames.named v ⟨s, htree.inside_root (scope_lt_of_mem_values hv), hv⟩

/-- After tracking, variables of which one is declared in the scope of the other or around it have
different output names. Every declared variable has a legal one that is neither reserved nor taken.
The search for a name ends with the first candidate that is free, whatever names are in use. -/
theorem outputNames_apart_and_legal (p : Program) (disabled : List BlockRef) (taken : List String) :
    let c := (p.track (.fresh disabled taken)).2
    (∀ s t v w, Inside c s t → v ∈ (c.scope s).declared.values →
      w ∈ (c.scope t).declared.values → v ≠ w → c.outputName v ≠ c.outputName w) ∧
    (∀ s, ∀ v ∈ (c.scope s).declared.values, ∃ name, (c.binding v).outputName = some name ∧
      Text.IsIdentifier name ∧ name ∉ Text.reservedWords ∧ name ∉ taken) ∧
    ∀ used base, Text.FirstFree used base (Text.fresh used base) := by
  intro c
  obtain ⟨htree, hnames⟩ := namedBelow_track p disabled taken
  have hroot : ∀ {s v}, v ∈ (c.scope s).declared.values → Inside c rootScope s :=
    fun hv => htree.inside_root (scope_lt_of_mem_values hv)
  refine ⟨?_, ?_, Text.firstFree_fresh⟩
  · intro s t v w hst hv hw hne
    obtain ⟨name, hname, _⟩ := hnames.named v ⟨s, hroot hv, hv⟩
    obtain ⟨other, hother, _⟩ := hnames.named w ⟨t, hroot hw, hw⟩
    have hapart := hnames.apart s t v w (hroot hv) hst hv hw hne
    unfold outputName
    rw [hname, hother] at hapart ⊢
    exact fun h => hapart (congrArg some h)
  · intro s v hv
    obtain ⟨name, hname, hlegal, hfree⟩ := hnames.named v ⟨s, hroot hv, hv⟩
    rw [mem_append, not_or] at hfree
    exact ⟨name, hname, hlegal, hfree⟩

/-- Two variables whose names differ only in characters that identifiers do not have, and a loop
variable with the name of one of them. -/
def collidingBlocks : List BlockSpec :=
  [{ id := "for", tag := "pxt_controls_for", fields := [⟨"VAR", "a b"⟩],
     inputs := [("DO", .statement, some "set")] },
   { id := "set", tag := "variables_set", fields := [⟨"VAR", "a-b"⟩] }]

def colliding : Program where
  workspace :=
    match Workspace.build {} collidingBlocks [⟨"a b", none⟩, ⟨"a-b", none⟩] with
    | .ok ws => ws
    | .error _ => {}
  surface := {}

theorem outputNames_colliding :
    ((colliding.track (.fresh [] ["a_b2"])).2.scope 0).declared.values = [0] ∧
    ((colliding.track (.fresh [] ["a_b2"])).2.scope 1).declared.values = [2] ∧
    Inside (colliding.track (.fresh [] ["a_b2"])).2 0 1 ∧
    (colliding.track (.fresh [] ["a_b2"])).2.outputName 0 ≠
      (colliding.track (.fresh [] ["a_b2"])).2.outputName 2 := by
  have houter : ((colliding.track (.fresh [] ["a_b2"])).2.scope 0).declared.values = [0] := by
    decide +kernel
  have hinner : ((colliding.track (.fresh [] ["a_b2"])).2.scope 1).declared.values = [2] := by
    decide +kernel
  have hinside : Inside (colliding.track (.fresh [] ["a_b2"])).2 0 1 :=
    Relation.ReflTransGen.single (by decide +kernel)
  have hnames := outputNames_apart_and_legal colliding [] ["a_b2"]
  refine ⟨houter, hinner, hinside, hnames.1 0 1 0 2 hinside ?_ ?_ (by decide)⟩
  · rw [houter]
    exact mem_cons_self
  · rw [hinner]
    exact mem_cons_self

end BlockProgram
