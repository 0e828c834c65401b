import BlockProgram.Proofs.Scope.Uses

/-!
# Lookup after tracking

Passes that come after scope tracking look the variable of a block up again, when variables have
moved to inner scopes. They find the variable that the walk noted the block as a reference of
(`lookup_finds_referenced`): no move hides a variable from one of its uses, and none puts it in the
way of another variable of the same name.
-/

namespace BlockProgram

open Compilation Workspace

variable {p : Program} {c c' : Compilation} {s : ScopeId}

/-! ## Moves -/

section Move

variable {n : String} {v : BindingId} {o : ScopeId}

/-- A variable of the root that is found in a scope is found in all scopes around it. -/
theorem Finds.climb (ht : ScopeTree c) (hd : DeclaredOnce c)
    (hv : (c.scope rootScope).declared.get? n = some v) {q : ScopeId} (h : Finds c n v s)
    (hq : (c.scope s).parent = some q) : (c.scope s).declared.get? n = none ∧ Finds c n v q := by
  cases h with
  | here h => exact absurd (hd.once s rootScope n n v h hv).1 (ht.ne_root hq)
  | up hfree hq' h =>
    rw [hq] at hq'
    cases hq'
    exact ⟨hfree, h⟩

theorem Finds.of_inside (ht : ScopeTree c) (hd : DeclaredOnce c)
    (hv : (c.scope rootScope).declared.get? n = some v) (h : Finds c n v s) (ho : Inside c o s) :
    Finds c n v o := by
  induction ho with
  | refl => exact h
  | tail _ hlast ih => exact (ih.climb ht hd hv hlast).2

theorem parent_moveTo (c : Compilation) (n : String) (v : BindingId) (o s : ScopeId) :
    ((c.moveTo n v o).scope s).parent = (c.scope s).parent :=
  scope_field_moveTo Scope.parent (fun _ _ => rfl) c n v o s

variable (ht : ScopeTree c) (ho : o < c.scopes.size) (hroot : o ≠ rootScope)

include ho hroot in
theorem finds_moveTo_of_ne {m : String} (hm : m ≠ n) {w : BindingId} (h : Finds c m w s) :
    Finds (c.moveTo n v o) m w s := by
  refine h.congr (parent_moveTo c n v o) ?_
  intro t
  rw [get?_moveTo c n v ho hroot, if_neg (fun h => hm h.1), if_neg (fun h => hm h.1)]

include ht ho hroot

/-- The moved variable is found where it was, if that is inside its new scope. -/
theorem finds_moveTo_self (hd : DeclaredOnce c) (hv : (c.scope rootScope).declared.get? n = some v)
    (hs : Inside c o s) (h : Finds c n v s) : Finds (c.moveTo n v o) n v s := by
  induction hs using Relation.ReflTransGen.head_induction_on with
  | refl =>
    refine .here ?_
    rw [get?_moveTo c n v ho hroot, if_pos ⟨rfl, rfl⟩]
  | @head s q hq _ ih =>
    by_cases hso : s = o
    · refine .here ?_
      rw [get?_moveTo c n v ho hroot, if_pos ⟨rfl, hso⟩]
    · obtain ⟨hfree, hup⟩ := h.climb ht hd hv hq
      refine .up ?_ ((parent_moveTo c n v o s).trans hq) (ih hup)
      rw [get?_moveTo c n v ho hroot, if_neg (fun h => hso h.2),
        if_neg (fun h => ht.ne_root hq h.2)]
      exact hfree

/-- Another variable of the same name is found where it was: its new scope would have found the
moved one. -/
theorem finds_moveTo_other (hv : (c.scope rootScope).declared.get? n = some v)
    (hfree : (c.scope o).declared.get? n = none) (hov : Finds c n v o) {w : BindingId} (hw : w ≠ v)
    (h : Finds c n w s) : Finds (c.moveTo n v o) n w s := by
  have hne : ∀ {x}, Finds c n w x → x ≠ o := by
    rintro x hx rfl
    exact hw (hx.unique hov)
  induction h with
  | @here s h =>
    have hr : s ≠ rootScope := by
      rintro rfl
      exact hw (Option.some.inj (h.symm.trans hv))
    refine .here ?_
    rw [get?_moveTo c n v ho hroot, if_neg (fun h' => hne (.here h) h'.2),
      if_neg (fun h' => hr h'.2)]
    exact h
  | @up s q hs hq h ih =>
    refine .up ?_ ((parent_moveTo c n v o s).trans hq) ih
    rw [get?_moveTo c n v ho hroot, if_neg (fun h' => hne (.up hs hq h) h'.2),
      if_neg (fun h' => ht.ne_root hq h'.2)]
    exact hs

/-- A move to where all uses of the variable are changes the variable of no use. -/
theorem Resolved.moveTo (hc : Resolved p c) (hv : (c.scope rootScope).declared.get? n = some v)
    (hfree : (c.scope o).declared.get? n = none) (hused : ∃ t, v ∈ (c.scope t).referenced)
    (hinside : ∀ t, v ∈ (c.scope t).referenced → Inside c o t) : Resolved p (c.moveTo n v o) := by
  have hstep := ScopeStep.move c n v o ho hroot hv hfree
  -- the name of a use of the variable is the one it has at the root
  have hname : ∀ {m s}, Finds c m v s → m = n := by
    intro m s hm
    obtain ⟨t, hdeclared⟩ := hm.declared
    exact (hc.once.once t rootScope m n v hdeclared hv).2
  have hov : Finds c n v o := by
    obtain ⟨t, htv⟩ := hused
    obtain ⟨b, hb, hbt⟩ := (hc.used t v).mp htv
    obtain ⟨s, m, hs, _, hm⟩ := hc.finds b v hb
    rw [hbt] at hs
    cases hs
    exact (hname hm ▸ hm).of_inside ht hc.once hv (hinside t htv)
  refine ⟨hstep.single.orderly hc.toOrderly, ?_, ?_⟩
  · intro b w hb
    obtain ⟨s, m, hs, hm, hw⟩ := hc.finds b w hb
    refine ⟨s, m, hs, hm, ?_⟩
    by_cases hmn : m = n
    · subst hmn
      by_cases hwv : w = v
      · subst hwv
        have hs' := hinside s ((hc.used s w).mpr ⟨b, hb, hs⟩)
        exact finds_moveTo_self ht ho hroot hc.once hv hs' hw
      · exact finds_moveTo_other ht ho hroot hv hfree hov hwv hw
    · exact finds_moveTo_of_ne ho hroot hmn hw
  · intro s w
    rw [scope_field_moveTo Scope.referenced (fun _ _ => rfl)]
    exact hc.used s w

end Move

/-! ## All of tracking -/

theorem resolved_narrow {e : String × BindingId} (hc : Resolved p c ∧ Recorded p c)
    (hv : (c.scope rootScope).declared.get? e.1 = some e.2) :
    Resolved p (c.narrow e) ∧ Recorded p (c.narrow e) := by
  rcases narrow_cases c e with h | ⟨hroot, hfree, h⟩
  · rw [h]
    exact hc
  · rw [h]
    have ht := hc.1.tree
    exact ⟨hc.1.moveTo ht (owner_lt ht e.2) hroot hv hfree (used_of_owner ht hroot)
      fun _ => inside_owner ht, hc.2⟩

theorem resolved_notes (hc : Resolved p c ∧ Recorded p c) (h : Notes c c') :
    Resolved p c' ∧ Recorded p c' :=
  resolved_keeps hc h.steps h.keeps id fun _ _ _ => by rw [h.same.2.1]

theorem Resolved.lookup (hc : Resolved p c) (hr : Recorded p c) {b : BlockRef} {n : String}
    (hb : c.blockScope.get? b = some s) (hn : (p.block b).usedName? = some n) :
    ∃ v, p.lookup b n c = .ok v c ∧ ∀ w, b ∈ (c.binding w).references ↔ w = v := by
  have hfinds : ∀ w, b ∈ (c.binding w).references → Finds c n w s := by
    intro w hw
    obtain ⟨t, m, ht, hm, hfinds⟩ := hc.finds b w hw
    rw [hb] at ht
    rw [hn] at hm
    cases ht
    cases hm
    exact hfinds
  obtain ⟨v, hv⟩ := hr b s n hb hn
  refine ⟨v, ?_, fun w => ⟨fun hw => (hfinds w hw).unique (hfinds v hv), fun hw => hw ▸ hv⟩⟩
  refine lookup_of_some (Option.bind_eq_some_iff.mpr ⟨s, hb, ?_⟩)
  exact (find?_eq_some_iff hc.tree).mpr (hfinds v hv)

theorem fresh_resolved (disabled : List BlockRef) (taken : List String) (p : Program) :
    Resolved p (fresh disabled taken) ∧ Recorded p (fresh disabled taken) := by
  refine ⟨⟨fresh_orderly disabled taken p, ?_, ?_⟩, ?_⟩
  · intro b v hb
    cases hb
  · intro s v
    rw [scope_fresh]
    constructor
    · intro h
      cases h
    · rintro ⟨b, hb, _⟩
      cases hb
  · intro b s n hb
    cases hb

theorem block_mem_or_default (p : Program) (b : BlockRef) :
    p.block b ∈ p.workspace.blocks ∨ p.block b = default := by
  unfold Program.block block
  cases hb : p.workspace.blocks[b]? with
  | none => exact .inr rfl
  | some x => exact .inl (Array.mem_of_getElem? hb)

/-- After tracking, a block that was visited and uses a variable finds one, and it is the only
variable that has the block as a reference. Raw code must declare no variables, and blocks that use
a variable must declare none for inputs of their own. -/
theorem lookup_finds_referenced {surface : Surface} {specs : List BlockSpec}
    {vars : List VariableModel} {p : Program}
    (hbuild : Workspace.build surface specs vars = .ok p.workspace)
    (hraw : ∀ x ∈ p.workspace.blocks, x.kind = .rawStatement →
      x.field? "DECLARED_VARIABLES" = none)
    (hmutation : ∀ x ∈ p.workspace.blocks, x.usedName? ≠ none → x.mutation = none)
    (disabled : List BlockRef) (taken : List String) {c : Compilation}
    (hc : (p.track (.fresh disabled taken)).2 = c) {b : BlockRef} {n : String}
    (hvisited : c.blockScope.contains b = true) (hn : (p.block b).usedName? = some n) :
    ∃ v, p.lookup b n c = .ok v c ∧ ∀ w, b ∈ (c.binding w).references ↔ w = v := by
  have hraw' : ∀ b, p.kind b = .rawStatement → (p.block b).field? "DECLARED_VARIABLES" = none := by
    intro b hb
    rcases block_mem_or_default p b with h | h
    · exact hraw _ h hb
    · rw [show p.kind b = (p.block b).kind from rfl, h] at hb
      cases hb
  have hmutation' : ∀ b n, (p.block b).usedName? = some n → (p.block b).mutation = none := by
    intro b n hb
    rcases block_mem_or_default p b with h | h
    · exact hmutation _ h (by rw [hb]; exact Option.some_ne_none n)
    · rw [h]
      rfl
  have hwalk := walkInvariant_resolved (build_isForest hbuild) hraw' hmutation'
  have hvisit := visitAll_invariant hwalk (fresh_resolved disabled taken p)
    (fresh_tree disabled taken).root_lt (fun _ => rfl)
  have hnarrow := narrowAll_induction (fun _ _ hd _ hv => resolved_narrow hd hv)
    hvisit.1.tree hvisit.1.once hvisit
  have hmark := resolved_notes hnarrow (notes_markAll (p := p) _)
  have htrack := resolved_notes hmark (notes_nameAll _)
  rw [← track_eq, hc] at htrack
  obtain ⟨s, hs⟩ := Option.isSome_iff_exists.mp hvisited
  exact htrack.1.lookup htrack.2 hs hn

/-- A loop over `x`, and after it another loop that sets and changes an `x` of its own. -/
def shadowingBlocks : List BlockSpec :=
  [{ id := "start", tag := "pxt-on-start", inputs := [("HANDLER", .statement, some "for")] },
   { id := "for", tag := "pxt_controls_for", fields := [⟨"VAR", "x"⟩],
     inputs := [("DO", .statement, some "inner")], next := some "while" },
   { id := "inner", tag := "variables_set", fields := [⟨"VAR", "x"⟩] },
   { id := "while", tag := "device_while", inputs := [("DO", .statement, some "set")] },
   { id := "set", tag := "variables_set", fields := [⟨"VAR", "x"⟩], next := some "change" },
   { id := "change", tag := "variables_change", fields := [⟨"VAR", "x"⟩] }]

def shadowing : Program where
  workspace :=
    match Workspace.build {} shadowingBlocks [] with
    | .ok ws => ws
    | .error _ => {}
  surface := {}

theorem lookup_shadowing :
    ((shadowing.track (.fresh [] [])).2.scope rootScope).declared.get? "x" = none ∧
    (shadowing.block 5).usedName? = some "x" ∧
    ∃ v, shadowing.lookup 5 "x" (shadowing.track (.fresh [] [])).2 =
        .ok v (shadowing.track (.fresh [] [])).2 ∧
      ∀ w, 5 ∈ ((shadowing.track (.fresh [] [])).2.binding w).references ↔ w = v := by
  have hbuild : build {} shadowingBlocks [] = .ok shadowing.workspace := by decide +kernel
  have hn : (shadowing.block 5).usedName? = some "x" := by decide +kernel
  have hvisited : (shadowing.track (.fresh [] [])).2.blockScope.contains 5 = true := by
    decide +kernel
  refine ⟨by decide +kernel, hn, ?_⟩
  exact lookup_finds_referenced hbuild (by decide +kernel) (by decide +kernel) [] [] rfl hvisited hn

end BlockProgram
