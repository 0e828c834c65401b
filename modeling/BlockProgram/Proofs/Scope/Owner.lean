import BlockProgram.Proofs.Scope.Anchored

/-!
# The owner of a variable

The search for the owner of a variable goes down the tree of scopes as long as a single child holds
all uses and an assignment is among them (`Descends`). Where it stops is the lowest scope around all
uses of the variable, if the variable is assigned anywhere, and the root if it is not
(`owner_isLowest`). Moving a variable to its owner keeps it around its uses, so after all moves
every variable is declared around the scopes that use it (`Enclosed`).
-/

namespace BlockProgram

open Compilation Relation Program

variable {p : Program} {c c' : Compilation} {v : BindingId} {s k : ScopeId} {b : BlockRef}

/-- Scope `o` is around all scopes that use a variable, and so is no scope below it: any other such
scope is around `o`. -/
structure IsLowestAround (c : Compilation) (v : BindingId) (o : ScopeId) : Prop where
  around : ∀ t, v ∈ (c.scope t).referenced → Inside c o t
  lowest : ∀ o', (∀ t, v ∈ (c.scope t).referenced → Inside c o' t) → Inside c o' o

/-- One round of the search for an owner: the variable is not used right in scope `s`, and `k` is
the only child of `s` with uses inside it, an assignment among them. -/
structure Descends (c : Compilation) (v : BindingId) (s k : ScopeId) : Prop where
  unused : v ∉ (c.scope s).referenced
  child : k ∈ (c.scope s).children
  only : ∀ x ∈ (c.scope s).children, (∃ t, Inside c x t ∧ v ∈ (c.scope t).referenced) → x = k
  used : ∃ t, Inside c k t ∧ v ∈ (c.scope t).referenced
  assigned : ∃ t, Inside c k t ∧ v ∈ (c.scope t).assigned

/-! ## The search -/

theorem filter_eq_singleton {l : List ScopeId} (hl : l.Nodup) {q : ScopeId → Bool} (hk : k ∈ l)
    (hq : ∀ x ∈ l, q x = true ↔ x = k) : l.filter q = [k] := by
  have heq : l.filter q = l.filter (· == k) := by
    refine List.filter_congr fun x hx => ?_
    rw [Bool.eq_iff_iff, hq x hx, beq_iff_eq]
  rw [heq, List.filter_beq, List.count_eq_one_of_mem hl hk]
  rfl

section

variable (ht : ScopeTree c)
include ht

theorem descends_iff :
    Descends c v s k ↔ v ∉ (c.scope s).referenced ∧
      (c.scope s).children.filter (c.usedBelow false v) = [k] ∧ c.usedBelow true v k = true := by
  constructor
  · intro h
    refine ⟨h.unused, filter_eq_singleton (ht.nodup s) h.child fun x hx => ?_,
      (usedBelow_iff ht).mpr h.assigned⟩
    rw [usedBelow_iff ht]
    constructor
    · exact h.only x hx
    · rintro rfl
      exact h.used
  · rintro ⟨hunused, honly, hassigned⟩
    have hmem : ∀ x, x ∈ (c.scope s).children ∧ c.usedBelow false v x = true ↔ x = k := by
      intro x
      rw [← List.mem_filter, honly, List.mem_singleton]
    obtain ⟨hchild, hused⟩ := (hmem k).mpr rfl
    refine ⟨hunused, hchild, ?_, (usedBelow_iff ht).mp hused, (usedBelow_iff ht).mp hassigned⟩
    exact fun x hx hx' => (hmem x).mp ⟨hx, (usedBelow_iff ht).mpr hx'⟩

/-- The search goes down round by round and ends where no further round is possible. Numbers of
scopes grow on the way, so the fuel lasts. -/
theorem descends_ownerFrom (fuel : Nat) (hfuel : c.scopes.size ≤ s + fuel) :
    ReflTransGen (Descends c v) s (c.ownerFrom v fuel s) ∧
      ∀ k, ¬ Descends c v (c.ownerFrom v fuel s) k := by
  induction fuel generalizing s with
  | zero =>
    refine ⟨.refl, fun k hk => ?_⟩
    have hlt := lt_of_parent (ht.child _ k hk.child).2
    exact absurd (lt_trans (ht.parent_lt (ht.child _ k hk.child).2).1 hlt) (Nat.not_lt_of_le hfuel)
  | succ fuel ih =>
    have hstop : (∀ k, ¬ Descends c v s k) →
        ReflTransGen (Descends c v) s s ∧ ∀ k, ¬ Descends c v s k :=
      fun h => ⟨.refl, h⟩
    unfold ownerFrom
    split
    · next hused => exact hstop fun k hk => hk.unused hused
    · next hunused =>
      split
      · next only honly =>
        split
        · next hassigned =>
          have hstep : Descends c v s only := (descends_iff ht).mpr ⟨hunused, honly, hassigned⟩
          obtain ⟨hlt, _⟩ := ht.parent_lt (ht.child s only hstep.child).2
          have hrest : c.scopes.size ≤ only + fuel :=
            calc c.scopes.size ≤ s + (fuel + 1) := hfuel
              _ = s + 1 + fuel := Nat.add_right_comm s fuel 1
              _ ≤ only + fuel := Nat.add_le_add_right hlt fuel
          obtain ⟨hpath, hend⟩ := ih hrest
          exact ⟨.head hstep hpath, hend⟩
        · next hassigned =>
          refine hstop fun k hk => ?_
          obtain ⟨_, hk, hkassigned⟩ := (descends_iff ht).mp hk
          rw [honly] at hk
          cases hk
          exact hassigned hkassigned
      · next hnot =>
        refine hstop fun k hk => ?_
        exact hnot k ((descends_iff ht).mp hk).2.1

theorem descends_owner (v : BindingId) :
    ReflTransGen (Descends c v) rootScope (c.owner v) ∧
      ∀ k, ¬ Descends c v (c.owner v) k :=
  descends_ownerFrom ht _ (Nat.le_add_left _ _)

/-- Without an assignment the search stays at the root. -/
theorem owner_eq_root (hnone : ∀ t, v ∉ (c.scope t).assigned) : c.owner v = rootScope := by
  rcases ReflTransGen.cases_head (descends_owner ht v).1 with h | ⟨k, hk, _⟩
  · exact h.symm
  · obtain ⟨t, _, ht⟩ := hk.assigned
    exact absurd ht (hnone t)

/-- If all uses are inside a child of a scope, the search goes on from the scope to the child. -/
theorem Descends.of_inside_child (hsub : ∀ t, v ∈ (c.scope t).assigned → v ∈ (c.scope t).referenced)
    (hk : k ∈ (c.scope s).children) (hall : ∀ t, v ∈ (c.scope t).referenced → Inside c k t)
    (hassigned : ∃ t, v ∈ (c.scope t).assigned) : Descends c v s k := by
  obtain ⟨t, hv⟩ := hassigned
  have huse := hall t (hsub t hv)
  refine ⟨?_, hk, ?_, ⟨t, huse, hsub t hv⟩, ⟨t, huse, hv⟩⟩
  · exact fun hs => ht.not_inside_child hk (hall s hs)
  · rintro x hx ⟨u, hxu, hu⟩
    exact ht.eq_of_inside hx hk hxu (hall u hu)

/-- Where the search ends is lowest around the uses: a scope below it that is around all uses would
be in a child to which the search could go on. -/
theorem isLowestAround_owner (hsub : ∀ t, v ∈ (c.scope t).assigned → v ∈ (c.scope t).referenced)
    (hassigned : ∃ t, v ∈ (c.scope t).assigned) : IsLowestAround c v (c.owner v) := by
  refine ⟨fun t hv => inside_owner ht hv, fun o hall => ?_⟩
  obtain ⟨t, hv⟩ := hassigned
  rcases Inside.total (hall t (hsub t hv)) (inside_owner ht (hsub t hv)) with h | h
  · exact h
  · rcases h.eq_or_child ht with rfl | ⟨k, hk, hko⟩
    · exact .refl
    · have hkall : ∀ u, v ∈ (c.scope u).referenced → Inside c k u :=
        fun u hu => ReflTransGen.trans (hall u hu) hko
      have hstep := Descends.of_inside_child ht hsub hk hkall ⟨t, hv⟩
      exact absurd hstep ((descends_owner ht v).2 k)

end

/-! ## What the walk keeps -/

/-- The walk has come so far: what a scope assigns it uses, and every variable is declared in a
scope around those that use it. -/
structure Enclosed (p : Program) (c : Compilation) : Prop extends Orderly p c where
  assigned : ∀ t v, v ∈ (c.scope t).assigned → v ∈ (c.scope t).referenced
  declared : ∀ t v, v ∈ (c.scope t).referenced →
    ∃ s n, (c.scope s).declared.get? n = some v ∧ Inside c s t

theorem Enclosed.keeps {raw : Prop} (hc : Enclosed p c) (hsteps : ScopeSteps c c')
    (h : Keeps c.scopes.size raw c c') : Enclosed p c' where
  toOrderly := hsteps.orderly hc.toOrderly
  assigned t v hv := by
    have hassigned : (c'.scope t).assigned = (c.scope t).assigned := h.uses_eq true t
    rw [hassigned] at hv
    rw [h.referenced_eq]
    exact hc.assigned t v hv
  declared t v hv := by
    rw [h.referenced_eq] at hv
    obtain ⟨s, n, hdeclared, hinside⟩ := hc.declared t v hv
    exact ⟨s, n, h.grows.declared s n v hdeclared, h.grows.inside hinside⟩

/-! ## Uses -/

theorem mem_assigned_recordUse (hs : s < c.scopes.size) (assigns : Bool) {t : ScopeId}
    {w : BindingId} (h : w ∈ ((recordUse s b assigns v c).scope t).assigned) :
    w ∈ (c.scope t).assigned ∨ t = s ∧ w = v := by
  unfold recordUse at h
  change w ∈ (((c.updateBinding v _).updateScope s _).scope t).assigned at h
  by_cases hts : t = s
  · subst hts
    rw [scope_updateScope_self (c.updateBinding v _) hs] at h
    cases assigns with
    | false => exact .inl h
    | true => exact (mem_addOnce.mp h).imp id fun hw => ⟨rfl, hw⟩
  · rw [scope_updateScope_ne _ hts] at h
    exact .inl h

/-- A use is noted in a scope that finds the variable. -/
theorem Enclosed.recordUse (hc : Enclosed p c) (hs : s < c.scopes.size) {n : String}
    (hv : Finds c n v s) (b : BlockRef) (assigns : Bool) :
    Enclosed p (recordUse s b assigns v c) := by
  have hreferenced := mem_referenced_recordUse (c := c) (b := b) (v := v) assigns hs
  have hgrows := grows_recordUse hs b assigns v
  refine ⟨(steps_recordUse s b assigns v).orderly hc.toOrderly, ?_, ?_⟩
  · intro t w hw
    refine (hreferenced t w).mpr ?_
    exact (mem_assigned_recordUse hs assigns hw).imp_left (hc.assigned t w)
  · intro t w hw
    rcases (hreferenced t w).mp hw with hw | ⟨rfl, rfl⟩
    · obtain ⟨x, m, hm, hx⟩ := hc.declared t w hw
      exact ⟨x, m, hgrows.declared x m w hm, hgrows.inside hx⟩
    · obtain ⟨x, hx, hm⟩ := hv.inside
      exact ⟨x, n, hgrows.declared x n w hm, hgrows.inside hx⟩

/-! ## The walk and the moves -/

theorem walkInvariant_enclosed (p : Program) : WalkInvariant p (Enclosed p) where
  orderly _ hd := hd.toOrderly
  block b s d e inner e' hd _ _ h hopen _ := by
    refine Enclosed.keeps (c := e) ?_ hopen.steps hopen.keeps
    cases h with
    | uses assigns _ hadd _ hv =>
      exact (hd.keeps hadd.steps hadd.keeps).recordUse hv.lt hv b assigns
    | apart _ hadd _ _ => exact hd.keeps hadd.steps hadd.keeps
  addStatement b s d hd :=
    have hkeeps : Keeps d.scopes.size False d (d.addStatement s b) := keeps_addStatement s b
    hd.keeps (step_addStatement d s b).single hkeeps
  start b d hd _ hs _ :=
    have hplace : Adds p d.scopes.size False d (place b rootScope d).2 :=
      .place d b rootScope hs
    hd.keeps hplace.steps hplace.keeps
  add _ _ hd hadd _ := hd.keeps hadd.steps hadd.keeps

theorem fresh_enclosed (disabled : List BlockRef) (taken : List String) (p : Program) :
    Enclosed p (fresh disabled taken) where
  toOrderly := fresh_orderly disabled taken p
  assigned t v hv := by
    rw [scope_fresh] at hv
    cases hv
  declared t v hv := by
    rw [scope_fresh] at hv
    cases hv

theorem visitAll_enclosed (p : Program) (disabled : List BlockRef) (taken : List String) :
    Enclosed p (p.visitAll (fresh disabled taken)).2 :=
  visitAll_invariant (walkInvariant_enclosed p) (fresh_enclosed disabled taken p)
    (fresh_tree disabled taken).root_lt (fun _ => rfl)

/-- A variable that moves goes to a scope around its uses. -/
theorem Enclosed.narrow (hc : Enclosed p c) {e : String × BindingId}
    (he : (c.scope rootScope).declared.get? e.1 = some e.2) : Enclosed p (c.narrow e) := by
  rcases narrow_cases c e with h | ⟨hroot, hfree, h⟩
  · rw [h]
    exact hc
  rw [h]
  have ho := owner_lt hc.tree e.2
  have hstep := ScopeStep.move c e.1 e.2 _ ho hroot he hfree
  have hreferenced := scope_field_moveTo Scope.referenced (fun _ _ => rfl) c e.1 e.2 (c.owner e.2)
  have hassigned := scope_field_moveTo Scope.assigned (fun _ _ => rfl) c e.1 e.2 (c.owner e.2)
  have hinside : Inside (c.moveTo e.1 e.2 (c.owner e.2)) = Inside c := by
    unfold Inside
    simp only [parent_moveTo]
  refine ⟨hstep.single.orderly hc.toOrderly, ?_, ?_⟩
  · intro t v hv
    rw [hassigned] at hv
    rw [hreferenced]
    exact hc.assigned t v hv
  · intro t v hv
    rw [hreferenced] at hv
    rw [hinside]
    obtain ⟨s, n, hdeclared, hst⟩ := hc.declared t v hv
    by_cases hmoved : n = e.1 ∧ s = rootScope
    · -- the moved variable itself
      rw [hmoved.1, hmoved.2, he] at hdeclared
      cases hdeclared
      refine ⟨c.owner e.2, e.1, ?_, inside_owner hc.tree hv⟩
      rw [get?_moveTo c e.1 e.2 ho hroot, if_pos ⟨rfl, rfl⟩]
    · refine ⟨s, n, ?_, hst⟩
      rw [get?_moveTo c e.1 e.2 ho hroot, if_neg, if_neg hmoved]
      · exact hdeclared
      · rintro ⟨rfl, rfl⟩
        rw [hfree] at hdeclared
        cases hdeclared

/-- After the moves, the scope of a variable is around all its uses. -/
theorem inside_of_declared (hc : Enclosed p c) {t : ScopeId} (hs : v ∈ (c.scope s).declared.values)
    (ht : v ∈ (c.scope t).referenced) : Inside c s t := by
  obtain ⟨x, n, hx, hxt⟩ := hc.declared t v ht
  obtain ⟨m, hm⟩ := ((hc.once.distinct s).mem_values_iff v).mp hs
  rw [(hc.once.once s x m n v hm hx).1]
  exact hxt

/-! ## Owners while variables move -/

theorem usedBelow_congr (hsize : c'.scopes.size = c.scopes.size)
    (huses : ∀ a s, c'.usesIn a s = c.usesIn a s)
    (hchildren : ∀ s, (c'.scope s).children = (c.scope s).children) (a : Bool) (v : BindingId) :
    c'.usedBelow a v = c.usedBelow a v := by
  have hfrom : ∀ fuel s, c'.usedBelowFrom a v fuel s = c.usedBelowFrom a v fuel s := by
    intro fuel
    induction fuel with
    | zero => exact fun _ => rfl
    | succ fuel ih =>
      intro s
      unfold usedBelowFrom
      rw [huses, hchildren, funext ih]
  funext s
  unfold usedBelow
  rw [hsize, hfrom]

theorem owner_congr (hsize : c'.scopes.size = c.scopes.size)
    (huses : ∀ a s, c'.usesIn a s = c.usesIn a s)
    (hchildren : ∀ s, (c'.scope s).children = (c.scope s).children) (v : BindingId) :
    c'.owner v = c.owner v := by
  have hbelow := fun a => usedBelow_congr hsize huses hchildren a v
  have hreferenced : ∀ s, (c'.scope s).referenced = (c.scope s).referenced := huses false
  have hfrom : ∀ fuel s, c'.ownerFrom v fuel s = c.ownerFrom v fuel s := by
    intro fuel
    induction fuel with
    | zero => exact fun _ => rfl
    | succ fuel ih =>
      intro s
      unfold ownerFrom
      rw [hreferenced, hchildren, hbelow]
      simp only [ih, hbelow]
  unfold owner
  rw [hsize, hfrom]

theorem owner_narrow (c : Compilation) (e : String × BindingId) (v : BindingId) :
    (c.narrow e).owner v = c.owner v := by
  rcases narrow_cases c e with h | ⟨_, _, h⟩
  · rw [h]
  · rw [h]
    refine owner_congr ?_ ?_ ?_ v
    · unfold moveTo
      rw [size_updateScope, size_updateScope]
    · intro a s
      exact scope_field_moveTo (fun x => if a then x.assigned else x.referenced)
        (fun _ _ => rfl) c _ _ _ s
    · exact scope_field_moveTo Scope.children (fun _ _ => rfl) c _ _ _

/-- Moves on the way do not change the owners of variables. -/
theorem owner_foldl_narrow (l : List (String × BindingId)) (c : Compilation) (v : BindingId) :
    (l.foldl narrow c).owner v = c.owner v := by
  induction l generalizing c with
  | nil => rfl
  | cons e r ih => rw [List.foldl_cons, ih, owner_narrow]

/-- Owners after the walk over a program. The search for the owner of a variable ends, and moves of
other variables do not change where. If the variable is assigned, it ends at the lowest scope around
all its uses, else at the root. When all variables have moved, each is declared around all its
uses. -/
theorem owner_isLowest (p : Program) (disabled : List BlockRef) (taken : List String) :
    let c := (p.visitAll (.fresh disabled taken)).2
    (∀ v, ReflTransGen (Descends c v) rootScope (c.owner v) ∧
      ∀ k, ¬ Descends c v (c.owner v) k) ∧
    (∀ v (l : List (String × BindingId)), (l.foldl narrow c).owner v = c.owner v) ∧
    (∀ v, (∃ t, v ∈ (c.scope t).assigned) → IsLowestAround c v (c.owner v)) ∧
    (∀ v, (∀ t, v ∉ (c.scope t).assigned) → c.owner v = rootScope) ∧
    ∀ v s t, v ∈ (c.narrowAll.scope s).declared.values → v ∈ (c.narrowAll.scope t).referenced →
      Inside c.narrowAll s t := by
  intro c
  have hvisited : Enclosed p c := visitAll_enclosed p disabled taken
  have hnarrowed : Enclosed p c.narrowAll :=
    narrowAll_induction (J := Enclosed p) (fun _ _ hd _ hv => hd.narrow hv) hvisited.tree
      hvisited.once hvisited
  refine ⟨fun v => descends_owner hvisited.tree v, fun v l => owner_foldl_narrow l c v, ?_, ?_, ?_⟩
  · exact fun v hv => isLowestAround_owner hvisited.tree (fun t => hvisited.assigned t v) hv
  · exact fun v hv => owner_eq_root hvisited.tree hv
  · exact fun v s t hs ht => inside_of_declared hnarrowed hs ht

/-- A loop with two loops in it that both set `x`; the second one also sets `y`. -/
def siblingBlocks : List BlockSpec :=
  [{ id := "outer", tag := "device_while", inputs := [("DO", .statement, some "first")] },
   { id := "first", tag := "device_while", inputs := [("DO", .statement, some "a")],
     next := some "second" },
   { id := "a", tag := "variables_set", fields := [⟨"VAR", "x"⟩] },
   { id := "second", tag := "device_while", inputs := [("DO", .statement, some "b")] },
   { id := "b", tag := "variables_set", fields := [⟨"VAR", "x"⟩], next := some "c" },
   { id := "c", tag := "variables_set", fields := [⟨"VAR", "y"⟩] }]

def siblings : Program where
  workspace :=
    match Workspace.build {} siblingBlocks [] with
    | .ok ws => ws
    | .error _ => {}
  surface := {}

/-- `x` belongs to the outer loop, which does not use it itself, and `y` to the inner one. -/
theorem owner_siblings :
    let c := (siblings.visitAll (.fresh [] [])).2
    c.owner 0 = 1 ∧ IsLowestAround c 0 1 ∧ c.owner 1 = 3 ∧ IsLowestAround c 1 3 ∧
      0 ∈ (c.narrowAll.scope 1).declared.values ∧ 0 ∈ (c.narrowAll.scope 3).referenced ∧
      Inside c.narrowAll 1 3 := by
  intro c
  have hx : c.owner 0 = 1 := by decide +kernel
  have hy : c.owner 1 = 3 := by decide +kernel
  have hdeclared : 0 ∈ (c.narrowAll.scope 1).declared.values := by decide +kernel
  have hused : 0 ∈ (c.narrowAll.scope 3).referenced := by decide +kernel
  obtain ⟨_, _, hlowest, _, hinside⟩ := owner_isLowest siblings [] []
  refine ⟨hx, ?_, hy, ?_, hdeclared, hused, hinside 0 1 3 hdeclared hused⟩
  · exact hx ▸ hlowest 0 ⟨2, by decide +kernel⟩
  · exact hy ▸ hlowest 1 ⟨3, by decide +kernel⟩

end BlockProgram
