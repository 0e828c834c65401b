import BlockProgram.Proofs.Scope.Heads
import BlockProgram.Proofs.Scope.Names

/-!
# Where variables are declared

Tracking decides where the variables are declared that no parameter, assignment or loop declares: at
the top of the program, or in front of the head of the scope that they have moved to. No variable
has two such places, one that is used has one, and all blocks that use it are below it
(`track_sited`).
-/

namespace BlockProgram

open Compilation Program List

variable {p : Program} {L : BlockRef → Bool} {c c' : Compilation} {s : ScopeId} {b : BlockRef}

/-! ## Before variables move -/

/-- Variables without a declaration are at the root. -/
structure Unmoved (c : Compilation) : Prop where
  tree : ScopeTree c
  once : DeclaredOnce c
  root : ∀ v, v < c.bindings.size → (c.binding v).declared = none →
    ∃ n, (c.scope rootScope).declared.get? n = some v
  inner : ∀ s n v, s ≠ rootScope → (c.scope s).declared.get? n = some v →
    (c.binding v).declared ≠ none

theorem Unmoved.congr (hc : Unmoved c) (hstep : ScopeSteps c c')
    (hsize : c'.bindings.size = c.bindings.size)
    (hbinding : ∀ v, (c'.binding v).declared = (c.binding v).declared)
    (hscope : ∀ s, (c'.scope s).declared = (c.scope s).declared) : Unmoved c' where
  tree := hstep.invariant (fun _ _ h => h.tree) hc.tree
  once := hstep.invariant (fun _ _ h => h.declaredOnce) hc.once
  root v hv hnone := by
    rw [hsize] at hv
    rw [hbinding] at hnone
    rw [hscope]
    exact hc.root v hv hnone
  inner s n v hs hv := by
    rw [hscope] at hv
    rw [hbinding]
    exact hc.inner s n v hs hv

theorem tree_declare (ht : ScopeTree c) (s : ScopeId) (name : String) (node : NodeId) :
    ScopeTree (declare s name node c).2 :=
  ht.congr (size_declare c s name node)
    (scope_field_declare c Scope.parent (fun _ _ => rfl) s name node)
    (scope_field_declare c Scope.children (fun _ _ => rfl) s name node)

/-- What a name means in a scope itself, after a new variable. -/
theorem get?_declare (hs : s < c.scopes.size) (name : String) (node : NodeId) (x : ScopeId)
    (n : String) :
    ((declare s name node c).2.scope x).declared.get? n =
      if x = s ∧ n = name then some c.bindings.size else (c.scope x).declared.get? n := by
  rw [scope_declare c hs]
  by_cases hx : x = s
  · rw [if_pos hx, Table.get?_insert, hx]
    simp only [true_and]
  · rw [if_neg hx, if_neg fun h => hx h.1]

theorem Unmoved.declare (hc : Unmoved c) {name : String}
    (hfree : (c.scope rootScope).declared.get? name = none) (node : NodeId) :
    Unmoved (declare rootScope name node c).2 where
  tree := tree_declare hc.tree _ _ _
  once := hc.once.declare hc.tree.root_lt name node
  root v hv hnone := by
    rw [bindings_size_declare] at hv
    rcases Nat.lt_succ_iff_lt_or_eq.mp hv with hv | rfl
    · rw [binding_declare, if_neg (ne_of_lt hv)] at hnone
      obtain ⟨n, hn⟩ := hc.root v hv hnone
      refine ⟨n, ?_⟩
      rw [get?_declare hc.tree.root_lt, if_neg, hn]
      rintro ⟨_, rfl⟩
      rw [hfree] at hn
      cases hn
    · exact ⟨name, by rw [get?_declare hc.tree.root_lt, if_pos ⟨rfl, rfl⟩]⟩
  inner x n v hx hv := by
    rw [get?_declare hc.tree.root_lt, if_neg fun h => hx h.1] at hv
    rw [binding_declare, if_neg (ne_of_lt (hc.once.lt x n v hv))]
    exact hc.inner x n v hx hv

/-- A new variable with a declaration, in any scope. It takes the name of none at the root. -/
theorem Unmoved.declareClosed (hc : Unmoved c) (hs : s < c.scopes.size) {name : String}
    (hfree : s = rootScope → (c.scope s).declared.get? name = none) (node : NodeId)
    (f : Binding → Binding) (hname : ∀ x, (f x).name = x.name) (hnode : ∀ x, (f x).node = x.node)
    (hf : ∀ x, (f x).declared ≠ none) :
    Unmoved ((Compilation.declare s name node c).2.updateBinding c.bindings.size f) := by
  have hsize := bindings_size_declare c s name node
  have hnew : ((Compilation.declare s name node c).2.updateBinding c.bindings.size f).binding
      c.bindings.size = f { name, node } := by
    rw [binding_updateBinding_self _ (by rw [hsize]; exact Nat.lt_succ_self _), binding_declare,
      if_pos rfl]
  have hold : ∀ v, v ≠ c.bindings.size →
      ((Compilation.declare s name node c).2.updateBinding c.bindings.size f).binding v =
        c.binding v := by
    intro v hv
    rw [binding_updateBinding_ne _ hv, binding_declare, if_neg hv]
  refine ⟨?_, ?_, ?_, ?_⟩
  · exact (ScopeStep.binding _ _ f hname hnode).tree (tree_declare hc.tree s name node)
  · exact (ScopeStep.binding _ _ f hname hnode).declaredOnce (hc.once.declare hs name node)
  · intro v hv hnone
    rw [size_updateBinding, hsize] at hv
    rcases Nat.lt_succ_iff_lt_or_eq.mp hv with hv | rfl
    · rw [hold v (ne_of_lt hv)] at hnone
      obtain ⟨n, hn⟩ := hc.root v hv hnone
      refine ⟨n, ?_⟩
      show ((Compilation.declare s name node c).2.scope rootScope).declared.get? n = some v
      rw [get?_declare hs, if_neg, hn]
      rintro ⟨rfl, rfl⟩
      rw [hfree rfl] at hn
      cases hn
    · rw [hnew] at hnone
      exact absurd hnone (hf _)
  · intro x n v hx hv
    change ((Compilation.declare s name node c).2.scope x).declared.get? n = some v at hv
    rw [get?_declare hs] at hv
    split at hv
    · cases hv
      rw [hnew]
      exact hf _
    · rw [hold v (ne_of_lt (hc.once.lt x n v hv))]
      exact hc.inner x n v hx hv

theorem Unmoved.newScope (hc : Unmoved c) (hs : s < c.scopes.size) (first : Option BlockRef) :
    Unmoved (newScope (some s) first c).2 := by
  refine hc.congr (ScopeStep.newScope c s first hs).single rfl (fun _ => rfl) ?_
  intro x
  rw [scope_newScope c hs]
  split
  · next h => rw [h, scope_eq_default c le_rfl]
  · split
    · next h => rw [h]
    · rfl

theorem Unmoved.adds {N : Nat} {raw : Prop} (hc : Unmoved c) (h : Adds p N raw c c') :
    Unmoved c' := by
  have hsteps := h.steps
  cases h with
  | graph g hg => exact hc.congr hsteps rfl (fun _ => rfl) (fun _ => rfl)
  | place b s hs => exact hc.congr hsteps rfl (fun _ => rfl) (fun _ => rfl)
  | newScope s first hs _ => exact hc.newScope hs first
  | atRoot name node _ _ hfree => exact hc.declare hfree node
  | closed s name node f hs _ hf hfree =>
    exact hc.declareClosed hs (fun h => (hfree (.inr h)).2) node f hf.name_eq hf.node_eq hf.declared

theorem walkInvariant_unmoved : WalkInvariant p fun d => Orderly p d ∧ Unmoved d := by
  refine .of_adds (fun _ _ _ h hc => hc.adds h) (fun s b assigns v c _ hc => ?_)
    fun b s c _ hc => ?_
  · refine hc.congr (steps_recordUse s b assigns v) (size_updateBinding _ _ _) ?_ ?_
    · exact binding_field c Binding.declared v _ fun _ => rfl
    · exact scope_field_recordUse assigns Scope.declared fun _ _ _ => rfl
  · refine hc.congr (step_addStatement c s b).single rfl (fun _ => rfl) ?_
    exact scope_field c Scope.declared s _ fun _ => rfl

theorem visitAll_unmoved (disabled : List BlockRef) (taken : List String) :
    Unmoved (p.visitAll (fresh disabled taken)).2 := by
  have hfresh : Unmoved (fresh disabled taken) := by
    refine ⟨fresh_tree disabled taken, fresh_declaredOnce disabled taken, ?_, ?_⟩
    · intro v hv
      exact absurd hv (Nat.not_lt_zero v)
    · intro x n v _ hv
      rw [scope_fresh] at hv
      cases hv
  exact walkInvariant_unmoved.visitAll_fresh disabled taken hfresh

/-! ## After variables have moved -/

/-- Variables without a declaration are declared in a scope around all their uses. -/
structure Moved (p : Program) (L : BlockRef → Bool) (c : Compilation) : Prop where
  homed : Homed p L c
  once : DeclaredOnce c
  placed : ∀ v, v < c.bindings.size → (c.binding v).declared = none →
    ∃ s n, (c.scope s).declared.get? n = some v
  around : ∀ s n v, s ≠ rootScope → (c.scope s).declared.get? n = some v →
    (c.binding v).declared = none → ∀ t, v ∈ (c.scope t).referenced → Inside c s t

theorem Unmoved.moved (hc : Unmoved c) (hhomed : Homed p L c) : Moved p L c where
  homed := hhomed
  once := hc.once
  placed v hv hnone := ⟨rootScope, hc.root v hv hnone⟩
  around s n v hs hv hnone := absurd hnone (hc.inner s n v hs hv)

theorem calm_moveTo (name : String) (v : BindingId) (o : ScopeId) : Calm c (c.moveTo name v o) where
  size_le := by
    unfold moveTo
    rw [size_updateScope, size_updateScope]
  outline_eq s _ := scope_field_moveTo Scope.outline (fun _ _ => rfl) c name v o s
  references_eq _ := rfl
  referenced_eq s := scope_field_moveTo Scope.referenced (fun _ _ => rfl) c name v o s
  sites_eq := rfl
  rootSites_eq := rfl

theorem moved_narrow {e : String × BindingId} (hc : Moved p L c)
    (he : (c.scope rootScope).declared.get? e.1 = some e.2) : Moved p L (c.narrow e) := by
  rcases narrow_cases c e with h | ⟨hroot, hfree, h⟩
  · rw [h]
    exact hc
  rw [h]
  have htree := hc.homed.tree
  have hlt := owner_lt htree e.2
  have hget := get?_moveTo c e.1 e.2 hlt hroot
  have hstep := ScopeStep.move c e.1 e.2 _ hlt hroot he hfree
  have hparent : ∀ x, ((c.moveTo e.1 e.2 (c.owner e.2)).scope x).parent = (c.scope x).parent :=
    scope_field_moveTo Scope.parent (fun _ _ => rfl) c e.1 e.2 _
  refine ⟨?_, hc.once.moveTo hlt hroot he, ?_, ?_⟩
  · exact (homeward_of_calm hstep.single (calm_moveTo e.1 e.2 _) le_rfl hc.homed).1
  · intro v hv hnone
    obtain ⟨s, n, hn⟩ := hc.placed v hv hnone
    by_cases hmoved : n = e.1 ∧ s = rootScope
    · obtain ⟨rfl, rfl⟩ := hmoved
      rw [he] at hn
      cases hn
      exact ⟨c.owner e.2, e.1, by rw [hget, if_pos ⟨rfl, rfl⟩]⟩
    · refine ⟨s, n, ?_⟩
      rw [hget, if_neg, if_neg hmoved, hn]
      rintro ⟨rfl, rfl⟩
      rw [hfree] at hn
      cases hn
  · intro s n v hs hv hnone t ht
    rw [scope_field_moveTo Scope.referenced (fun _ _ => rfl)] at ht
    have hinside : Inside c s t := by
      rw [hget] at hv
      split at hv
      · next hmoved =>
        cases hv
        rw [hmoved.2]
        exact inside_owner htree ht
      · split at hv
        · cases hv
        · exact hc.around s n v hs hv hnone t ht
    exact inside_of_parent_eq htree (fun x _ => hparent x) hinside (Nat.lt_succ_self t)

theorem moved_narrowAll (hc : Moved p L c) : Moved p L c.narrowAll :=
  narrowAll_induction (fun _ _ hd _ he => moved_narrow hd he) hc.homed.tree hc.once hc

/-- A variable without a declaration that has moved to a scope is used below the head of it. -/
theorem Moved.below (hc : Moved p L c) {n : String} {v : BindingId} (hs : s ≠ rootScope)
    (hv : (c.scope s).declared.get? n = some v) (hnone : (c.binding v).declared = none)
    {r : BlockRef} (hr : r ∈ (c.binding v).references) :
    ∃ h, scopeHead? (c.scope s) = some h ∧ p.workspace.Under h r ∧ Heads p L h := by
  obtain ⟨_, t, ht, hbelongs⟩ := hc.homed.uses v r hr
  exact hbelongs.2 s hs (hc.around s n v hs hv hnone t ht)

/-! ## Places for declarations -/

/-- The variables that are declared in front of a block. -/
def Compilation.declarationsAt (c : Compilation) (b : BlockRef) : List BindingId :=
  (c.blockDeclarations.get? b).getD []

theorem declarationsAt_declareBefore (b : BlockRef) (v : BindingId) (h : BlockRef) :
    (declareBefore b v c).declarationsAt h =
      if h = b then c.declarationsAt h ++ [v] else c.declarationsAt h := by
  unfold declarationsAt declareBefore
  dsimp only
  rw [Table.get?_insert]
  split
  · next heq => rw [heq, Option.getD_some]
  · rfl

/-- What can become of a variable: it has a declaration, its first assignment declares it, or it is
declared at the top or in front of the head of its scope. -/
theorem markSite_cases (p : Program) (s : ScopeId) (c : Compilation) (v : BindingId) :
    ((c.binding v).declared ≠ none ∧ p.markSite s c v = c) ∨
    (c.binding v).declared = none ∧ ((∃ b, p.inlineSite? c s v = some b ∧ p.markSite s c v =
        c.updateBinding v ({ · with declared := some .assigned, first := some b })) ∨
      ((s = rootScope ∨ scopeHead? (c.scope s) = none) ∧
        p.markSite s c v = { c with rootDeclarations := c.rootDeclarations ++ [v] }) ∨
      ∃ h, s ≠ rootScope ∧ scopeHead? (c.scope s) = some h ∧
        p.markSite s c v = declareBefore h v c) := by
  unfold markSite
  split
  · next hsome => exact .inl ⟨Option.isSome_iff_ne_none.mp hsome, rfl⟩
  · next hnone =>
    refine .inr ⟨Option.not_isSome_iff_eq_none.mp hnone, ?_⟩
    split
    · next b hb => exact .inl ⟨b, hb, rfl⟩
    · split
      · next h hh =>
        split
        · next hroot => exact .inr (.inl ⟨.inl hroot, rfl⟩)
        · next hroot => exact .inr (.inr ⟨h, hroot, hh, rfl⟩)
      · next hh => exact .inr (.inl ⟨.inr hh, rfl⟩)

/-! ### Turn by turn -/

section Turns

variable {d : Compilation} {J : List (ScopeId × BindingId) → Compilation → Prop}
  {done : List (ScopeId × BindingId)}

def entriesOf (d : Compilation) (scopes : List ScopeId) : List (ScopeId × BindingId) :=
  scopes.flatMap fun s => (d.scope s).declared.values.map (s, ·)

theorem mem_entriesOf {scopes : List ScopeId} {e : ScopeId × BindingId} :
    e ∈ entriesOf d scopes ↔ e.1 ∈ scopes ∧ e.2 ∈ (d.scope e.1).declared.values := by
  unfold entriesOf
  rw [mem_flatMap]
  constructor
  · rintro ⟨s, hs, he⟩
    obtain ⟨v, hv, rfl⟩ := mem_map.mp he
    exact ⟨hs, hv⟩
  · rintro ⟨hs, hv⟩
    exact ⟨e.1, hs, mem_map.mpr ⟨e.2, hv, rfl⟩⟩

theorem mem_snd_append {v w : BindingId} :
    w ∈ (done ++ [(s, v)]).map Prod.snd ↔ w ∈ done.map Prod.snd ∨ w = v := by
  rw [map_append, mem_append, map_singleton, mem_singleton]

variable (hstep : ∀ done c s v, J done c → v ∉ done.map Prod.snd →
  v ∈ (d.scope s).declared.values → J (done ++ [(s, v)]) (p.markSite s c v))
include hstep

theorem markSites_induction (s : ScopeId) (l : List BindingId) (hl : l.Nodup)
    (hv : ∀ v ∈ l, v ∉ done.map Prod.snd ∧ v ∈ (d.scope s).declared.values) (h : J done c) :
    J (done ++ l.map (s, ·)) (l.foldl (p.markSite s) c) := by
  induction l generalizing c done with
  | nil =>
    rw [map_nil, append_nil]
    exact h
  | cons v r ih =>
    obtain ⟨hvr, hr⟩ := nodup_cons.mp hl
    obtain ⟨hnew, hmem⟩ := hv v (.head _)
    have hrest := ih hr (fun w hw => by
      refine ⟨fun hdone => ?_, (hv w (.tail v hw)).2⟩
      rcases mem_snd_append.mp hdone with hdone | rfl
      · exact (hv w (.tail v hw)).1 hdone
      · exact hvr hw) (hstep done c s v h hnew hmem)
    rw [append_assoc] at hrest
    exact hrest

theorem markScopes_induction (hscope : ∀ done c, J done c → c.scope = d.scope) (hd : DeclaredOnce d)
    (l : List ScopeId) (hl : l.Nodup)
    (hdone : ∀ s ∈ l, ∀ v ∈ (d.scope s).declared.values, v ∉ done.map Prod.snd) (h : J done c) :
    J (done ++ entriesOf d l) (l.foldl p.markScope c) := by
  induction l generalizing c done with
  | nil => exact (append_nil done).symm ▸ h
  | cons s r ih =>
    obtain ⟨hsr, hr⟩ := nodup_cons.mp hl
    have hnodup : (d.scope s).declared.values.Nodup :=
      (hd.distinct s).nodup_values fun k k' v hk hk' => (hd.once s s k k' v hk hk').2
    have hfirst : J (done ++ (d.scope s).declared.values.map (s, ·)) (p.markScope c s) := by
      unfold markScope
      rw [hscope done c h]
      exact markSites_induction hstep s _ hnodup (fun v hv => ⟨hdone s (.head _) v hv, hv⟩) h
    have hrest := ih hr (fun t ht v hv hmem => by
      rw [map_append, mem_append] at hmem
      rcases hmem with hmem | hmem
      · exact hdone t (.tail s ht) v hv hmem
      · obtain ⟨e, he, rfl⟩ := mem_map.mp hmem
        obtain ⟨w, hw, rfl⟩ := mem_map.mp he
        have hst := hd.eq_of_mem_values hw hv
        exact hsr (hst ▸ ht)) hfirst
    rw [append_assoc] at hrest
    exact hrest

/-- Marking comes to every variable of every scope once: what holds at the start and is kept by each
turn holds in the end. -/
theorem markAll_induction (hscope : ∀ done c, J done c → c.scope = d.scope) (hd : DeclaredOnce d)
    (hstart : J [] d) : J (entriesOf d (List.range d.scopes.size)) (p.markAll d) :=
  markScopes_induction hstep hscope hd (List.range d.scopes.size) nodup_range
    (fun _ _ _ _ h => by cases h) hstart

end Turns

/-! ### What is decided -/

/-- The place of a variable in front of a block: the block is the head of a scope in `done`. -/
def SiteOf (d : Compilation) (done : List (ScopeId × BindingId)) (v : BindingId) (h : BlockRef) :
    Prop :=
  (d.binding v).declared = none ∧
    ∃ s, (s, v) ∈ done ∧ s ≠ rootScope ∧ scopeHead? (d.scope s) = some h

/-- The place of a variable at the top: it is at the root or in a scope without a head. -/
def RootOf (d : Compilation) (done : List (ScopeId × BindingId)) (v : BindingId) : Prop :=
  ∃ s, (s, v) ∈ done ∧ (s = rootScope ∨ scopeHead? (d.scope s) = none)

/-- The variables of `done`, with their scopes, have got their places; `d` is how it was before. -/
structure Marking (d : Compilation) (done : List (ScopeId × BindingId)) (c : Compilation) :
    Prop where
  scope_eq : c.scope = d.scope
  size_eq : c.bindings.size = d.bindings.size
  references_eq : ∀ v, (c.binding v).references = (d.binding v).references
  pending : ∀ v, v ∉ done.map Prod.snd → (c.binding v).declared = (d.binding v).declared
  sited : ∀ v h, v ∈ c.declarationsAt h → SiteOf d done v h
  rooted : ∀ v ∈ c.rootDeclarations, RootOf d done v
  nodup : ∀ h, (c.declarationsAt h).Nodup
  nodup_root : c.rootDeclarations.Nodup
  settled : ∀ v ∈ done.map Prod.snd, (c.binding v).declared = none →
    v ∈ c.rootDeclarations ∨ ∃ h, v ∈ c.declarationsAt h

namespace Marking

variable {d : Compilation} {done more : List (ScopeId × BindingId)} {v : BindingId}

theorem siteOf_append {h : BlockRef} (hv : SiteOf d done v h) : SiteOf d (done ++ more) v h :=
  ⟨hv.1, hv.2.imp fun _ hs => ⟨mem_append_left _ hs.1, hs.2⟩⟩

theorem rootOf_append (hv : RootOf d done v) : RootOf d (done ++ more) v :=
  hv.imp fun _ hs => ⟨mem_append_left _ hs.1, hs.2⟩

variable (h : Marking d done c)
include h

theorem pending_append {w : BindingId} (hw : w ∉ (done ++ [(s, v)]).map Prod.snd) :
    (c.binding w).declared = (d.binding w).declared :=
  h.pending w fun hmem => hw (mem_snd_append.mpr (.inl hmem))

theorem not_sited (hv : v ∉ done.map Prod.snd) (k : BlockRef) : v ∉ c.declarationsAt k := by
  intro hk
  obtain ⟨_, t, ht, _⟩ := h.sited v k hk
  exact hv (mem_map.mpr ⟨(t, v), ht, rfl⟩)

theorem not_rooted (hv : v ∉ done.map Prod.snd) : v ∉ c.rootDeclarations := by
  intro hk
  obtain ⟨t, ht, _⟩ := h.rooted v hk
  exact hv (mem_map.mpr ⟨(t, v), ht, rfl⟩)

/-- The variable has a declaration. -/
theorem keep (hv : (c.binding v).declared ≠ none) :
    Marking d (done ++ [(s, v)]) c where
  __ := h
  pending _ hw := h.pending_append hw
  sited w k hw := siteOf_append (h.sited w k hw)
  rooted w hw := rootOf_append (h.rooted w hw)
  settled w hw hnone := by
    rcases mem_snd_append.mp hw with hw | rfl
    · exact h.settled w hw hnone
    · exact absurd hnone hv

/-- An assignment declares the variable. -/
theorem assign (hv : v < d.bindings.size) (b : BlockRef) :
    Marking d (done ++ [(s, v)])
      (c.updateBinding v ({ · with declared := some .assigned, first := some b })) where
  __ := h
  size_eq := (size_updateBinding c v _).trans h.size_eq
  references_eq w := (binding_field c Binding.references v
    ({ · with declared := some .assigned, first := some b }) (fun _ => rfl) w).trans
      (h.references_eq w)
  pending w hw := by
    rw [binding_updateBinding_ne c fun hwv => hw (mem_snd_append.mpr (.inr hwv))]
    exact h.pending_append hw
  sited w k hw := siteOf_append (h.sited w k hw)
  rooted w hw := rootOf_append (h.rooted w hw)
  settled w hw hnone := by
    by_cases hwv : w = v
    · rw [hwv, binding_updateBinding_self c (h.size_eq ▸ hv)] at hnone
      cases hnone
    · rw [binding_updateBinding_ne c hwv] at hnone
      exact h.settled w ((mem_snd_append.mp hw).resolve_right hwv) hnone

/-- The variable is declared at the top. -/
theorem atRoot (hv : v ∉ done.map Prod.snd) (hs : s = rootScope ∨ scopeHead? (c.scope s) = none) :
    Marking d (done ++ [(s, v)]) { c with rootDeclarations := c.rootDeclarations ++ [v] } where
  __ := h
  pending _ hw := h.pending_append hw
  sited w k hw := siteOf_append (h.sited w k hw)
  rooted w hw := by
    rcases mem_append.mp hw with hw | hw
    · exact rootOf_append (h.rooted w hw)
    · rw [mem_singleton.mp hw]
      exact ⟨s, mem_append_right _ (mem_singleton.mpr rfl), h.scope_eq ▸ hs⟩
  nodup_root :=
    nodup_append_comm.mp (nodup_cons.mpr ⟨h.not_rooted hv, h.nodup_root⟩)
  settled w hw hnone := by
    rcases mem_snd_append.mp hw with hw | rfl
    · exact (h.settled w hw hnone).imp_left fun hmem => mem_append_left _ hmem
    · exact .inl (mem_append_right _ (mem_singleton.mpr rfl))

/-- The variable is declared in front of the head of its scope. -/
theorem before (hv : v ∉ done.map Prod.snd) (hnone : (c.binding v).declared = none)
    (hs : s ≠ rootScope) {k : BlockRef} (hk : scopeHead? (c.scope s) = some k) :
    Marking d (done ++ [(s, v)]) (declareBefore k v c) where
  __ := h
  pending _ hw := h.pending_append hw
  sited w j hw := by
    rw [declarationsAt_declareBefore] at hw
    split at hw
    · next hj =>
      rcases mem_append.mp hw with hw | hw
      · exact siteOf_append (h.sited w j hw)
      · rw [mem_singleton.mp hw, hj]
        refine ⟨(h.pending v hv).symm.trans hnone, s, ?_, hs, h.scope_eq ▸ hk⟩
        exact mem_append_right _ (mem_singleton.mpr rfl)
    · exact siteOf_append (h.sited w j hw)
  rooted w hw := rootOf_append (h.rooted w hw)
  nodup j := by
    rw [declarationsAt_declareBefore]
    split
    · exact nodup_append_comm.mp (nodup_cons.mpr ⟨h.not_sited hv j, h.nodup j⟩)
    · exact h.nodup j
  settled w hw hwnone := by
    rcases mem_snd_append.mp hw with hw | rfl
    · refine (h.settled w hw hwnone).imp_right ?_
      rintro ⟨j, hj⟩
      refine ⟨j, ?_⟩
      rw [declarationsAt_declareBefore]
      split
      · exact mem_append_left _ hj
      · exact hj
    · refine .inr ⟨k, ?_⟩
      rw [declarationsAt_declareBefore, if_pos rfl]
      exact mem_append_right _ (mem_singleton.mpr rfl)

theorem markSite (hv : v ∉ done.map Prod.snd) (hlt : v < d.bindings.size) (s : ScopeId) :
    Marking d (done ++ [(s, v)]) (p.markSite s c v) := by
  rcases markSite_cases p s c v with ⟨hsome, heq⟩ | ⟨hnone, hplace⟩
  · rw [heq]
    exact h.keep hsome
  · rcases hplace with ⟨b, _, heq⟩ | ⟨hhead, heq⟩ | ⟨k, hs, hhead, heq⟩
    · rw [heq]
      exact h.assign hlt b
    · rw [heq]
      exact h.atRoot hv hhead
    · rw [heq]
      exact h.before hv hnone hs hhead

end Marking

/-- All variables have got their places. -/
theorem marking_markAll (hd : DeclaredOnce c) (hsites : c.blockDeclarations = {})
    (hroot : c.rootDeclarations = []) :
    Marking c (entriesOf c (List.range c.scopes.size)) (p.markAll c) := by
  have hat : ∀ h, c.declarationsAt h = [] := by
    intro h
    unfold declarationsAt
    rw [hsites]
    rfl
  have hstart : Marking c [] c := by
    refine ⟨rfl, rfl, fun _ => rfl, fun _ _ => rfl, ?_, ?_, ?_, ?_, ?_⟩
    · intro v h hv
      rw [hat] at hv
      cases hv
    · intro v hv
      rw [hroot] at hv
      cases hv
    · intro h
      rw [hat]
      exact nodup_nil
    · rw [hroot]
      exact nodup_nil
    · intro v hv
      cases hv
  refine markAll_induction ?_ (fun _ _ h => h.scope_eq) hd hstart
  intro done e s v h hnew hv
  exact h.markSite hnew (hd.lt_of_mem_values hv) s

/-! ## Naming -/

def Binding.unnamed (x : Binding) : Binding :=
  { x with outputName := none }

/-- Variables differ in their output names only, and declarations have the same places. -/
structure Renamed (c c' : Compilation) : Prop where
  binding_eq : ∀ v, (c'.binding v).unnamed = (c.binding v).unnamed
  sites_eq : c'.blockDeclarations = c.blockDeclarations
  rootSites_eq : c'.rootDeclarations = c.rootDeclarations

instance renamedRefl : Std.Refl Renamed :=
  ⟨fun _ => ⟨fun _ => rfl, rfl, rfl⟩⟩

instance renamedTrans : IsTrans Compilation Renamed :=
  ⟨fun _ _ _ h1 h2 => ⟨fun v => (h2.binding_eq v).trans (h1.binding_eq v),
    h2.sites_eq.trans h1.sites_eq, h2.rootSites_eq.trans h1.rootSites_eq⟩⟩

/-- Whatever does not depend on output names stays. -/
theorem Renamed.field {α : Type} (h : Renamed c c') (read : Binding → α)
    (hread : ∀ x outputName, read { x with outputName } = read x) (v : BindingId) :
    read (c'.binding v) = read (c.binding v) := by
  rw [← hread (c'.binding v) none, ← hread (c.binding v) none]
  exact congrArg read (h.binding_eq v)

theorem renamed_nameOne (acc : List String × Compilation) (v : BindingId) :
    Renamed acc.2 (nameOne acc v).2 where
  binding_eq := binding_field acc.2 Binding.unnamed v
    ({ · with outputName := some (Text.fresh acc.1 (Text.identifier (acc.2.binding v).name)) })
    fun _ => rfl
  sites_eq := rfl
  rootSites_eq := rfl

theorem renamed_nameAll (c : Compilation) : Renamed c c.nameAll :=
  along_nameScope renamed_nameOne _ _ c rootScope

/-! ## All of tracking -/

/-- What tracking decides about declarations: a variable has one place at most, and one that is
used without being declared otherwise has one. The blocks that use it are below that place. -/
structure Sited (p : Program) (L : BlockRef → Bool) (c : Compilation) : Prop where
  unique : ∀ v h h', v ∈ c.declarationsAt h → v ∈ c.declarationsAt h' → h = h'
  nodup : ∀ h, (c.declarationsAt h).Nodup
  apart : ∀ v ∈ c.rootDeclarations, ∀ h, v ∉ c.declarationsAt h
  nodup_root : c.rootDeclarations.Nodup
  somewhere : ∀ v, (c.binding v).declared = none → (c.binding v).references ≠ [] →
    v ∈ c.rootDeclarations ∨ ∃ h, v ∈ c.declarationsAt h
  below : ∀ v h, v ∈ c.declarationsAt h → ∀ r ∈ (c.binding v).references,
    p.workspace.Under h r ∧ Heads p L h
  reference_lt : ∀ v, ∀ r ∈ (c.binding v).references, r < p.workspace.size

theorem Sited.renamed (hc : Sited p L c) (h : Renamed c c') : Sited p L c' := by
  have hat : c'.declarationsAt = c.declarationsAt := by
    unfold declarationsAt
    rw [h.sites_eq]
  have hreferences : ∀ v, (c'.binding v).references = (c.binding v).references :=
    h.field Binding.references fun _ _ => rfl
  have hdeclared : ∀ v, (c'.binding v).declared = (c.binding v).declared :=
    h.field Binding.declared fun _ _ => rfl
  constructor
  · rw [hat]
    exact hc.unique
  · rw [hat]
    exact hc.nodup
  · rw [hat, h.rootSites_eq]
    exact hc.apart
  · rw [h.rootSites_eq]
    exact hc.nodup_root
  · intro v
    rw [hat, h.rootSites_eq, hreferences, hdeclared]
    exact hc.somewhere v
  · intro v k
    rw [hat, hreferences]
    exact hc.below v k
  · intro v
    rw [hreferences]
    exact hc.reference_lt v

theorem sited_markAll (hc : Moved p L c) : Sited p L (p.markAll c) := by
  have hmark := marking_markAll (p := p) hc.once hc.homed.no_site hc.homed.no_rootSite
  have hvalues : ∀ s v, (s, v) ∈ entriesOf c (List.range c.scopes.size) →
      v ∈ (c.scope s).declared.values := fun s v h => (mem_entriesOf.mp h).2
  generalize p.markAll c = d at hmark
  constructor
  · intro v h h' hv hv'
    obtain ⟨_, s, hs, _, hhead⟩ := hmark.sited v h hv
    obtain ⟨_, s', hs', _, hhead'⟩ := hmark.sited v h' hv'
    rw [hc.once.eq_of_mem_values (hvalues s v hs) (hvalues s' v hs'), hhead'] at hhead
    exact (Option.some.inj hhead).symm
  · exact hmark.nodup
  · intro v hv h hvh
    obtain ⟨_, s, hs, hne, hhead⟩ := hmark.sited v h hvh
    obtain ⟨s', hs', hroot⟩ := hmark.rooted v hv
    rw [← hc.once.eq_of_mem_values (hvalues s v hs) (hvalues s' v hs'), hhead] at hroot
    rcases hroot with hroot | hroot
    · exact hne hroot
    · cases hroot
  · exact hmark.nodup_root
  · intro v hnone hused
    rw [hmark.references_eq] at hused
    have hlt : v < c.bindings.size := by
      by_contra hge
      rw [binding_eq_default c (Nat.le_of_not_lt hge)] at hused
      exact hused rfl
    by_cases hv : v ∈ (entriesOf c (List.range c.scopes.size)).map Prod.snd
    · exact hmark.settled v hv hnone
    · rw [hmark.pending v hv] at hnone
      obtain ⟨s, n, hn⟩ := hc.placed v hlt hnone
      have hmem : v ∈ (c.scope s).declared.values :=
        ((hc.once.distinct s).mem_values_iff v).mpr ⟨n, hn⟩
      have hlt := mem_range.mpr (scope_lt_of_mem_values hmem)
      exact absurd (mem_map.mpr ⟨(s, v), mem_entriesOf.mpr ⟨hlt, hmem⟩, rfl⟩) hv
  · intro v h hv r hr
    rw [hmark.references_eq] at hr
    obtain ⟨hnone, s, hs, hne, hhead⟩ := hmark.sited v h hv
    obtain ⟨n, hn⟩ := ((hc.once.distinct s).mem_values_iff v).mp (hvalues s v hs)
    obtain ⟨k, hk, hunder, hheads⟩ := hc.below hne hn hnone hr
    rw [hhead] at hk
    cases hk
    exact ⟨hunder, hheads⟩
  · intro v r hr
    rw [hmark.references_eq] at hr
    exact (hc.homed.uses v r hr).1

theorem track_sited (hws : p.workspace.Sound) (disabled : List BlockRef) (taken : List String)
    (hL : p.isLive (fresh disabled taken) = L) : Sited p L (p.track (fresh disabled taken)).2 := by
  have hvisit : Moved p L (p.visitAll (fresh disabled taken)).2 :=
    (visitAll_unmoved disabled taken).moved (visitAll_homed hws disabled taken hL)
  rw [track_eq]
  exact (sited_markAll (moved_narrowAll hvisit)).renamed (renamed_nameAll _)

/-- A variable that has a place for its declaration is a variable of a scope. -/
theorem track_sited_declared (hws : p.workspace.Sound) (disabled : List BlockRef)
    (taken : List String) {v : BindingId}
    (hv : v ∈ (p.track (fresh disabled taken)).2.rootDeclarations ∨
      ∃ h, v ∈ (p.track (fresh disabled taken)).2.declarationsAt h) :
    ∃ s, v ∈ ((p.track (fresh disabled taken)).2.scope s).declared.values := by
  have hmoved : Moved p _ (p.visitAll (fresh disabled taken)).2.narrowAll :=
    moved_narrowAll ((visitAll_unmoved disabled taken).moved
      (visitAll_homed hws disabled taken rfl))
  rw [track_eq] at hv ⊢
  generalize (p.visitAll (fresh disabled taken)).2.narrowAll = d at hmoved hv
  have hmark := marking_markAll (p := p) hmoved.once hmoved.homed.no_site hmoved.homed.no_rootSite
  have hnamed : Renamed (p.markAll d) (p.markAll d).nameAll := renamed_nameAll _
  unfold declarationsAt at hv
  rw [hnamed.sites_eq, hnamed.rootSites_eq] at hv
  rw [(notes_nameAll _).sameScopes.scope_eq, hmark.scope_eq]
  rcases hv with hv | ⟨h, hv⟩
  · obtain ⟨s, hs, _⟩ := hmark.rooted v hv
    exact ⟨s, (mem_entriesOf.mp hs).2⟩
  · obtain ⟨_, s, hs, _⟩ := hmark.sited v h hv
    exact ⟨s, (mem_entriesOf.mp hs).2⟩

end BlockProgram
