import BlockProgram.Proofs.Scope.Walk

/-!
# Uses of variables

The walk over a program finds the variable of every block that reads or writes one, and notes the
block as a reference of the variable. Throughout the walk the name that a reference uses means the
variable (`walkInvariant_resolved`): what is declared later is out of its way.
-/

namespace BlockProgram

open Compilation Program

/-- Every reference of a variable is a block to which its name means the variable, and a scope lists
the variables that have a reference in it. -/
structure Resolved (p : Program) (c : Compilation) : Prop extends Orderly p c where
  finds : ∀ b v, b ∈ (c.binding v).references →
    ∃ s n, c.blockScope.get? b = some s ∧ (p.block b).usedName? = some n ∧ Finds c n v s
  used : ∀ s v, v ∈ (c.scope s).referenced ↔
    ∃ b ∈ (c.binding v).references, c.blockScope.get? b = some s

/-- Every placed block that uses a variable is a reference. -/
def Recorded (p : Program) (c : Compilation) : Prop :=
  ∀ b s n, c.blockScope.get? b = some s → (p.block b).usedName? = some n →
    ∃ v, b ∈ (c.binding v).references

/-! ## Steps that uses do not notice -/

/-- The first `N` scopes keep their places and what they declare, and no use is noted or lost. But
for the root, they declare no more unless raw code does. -/
structure Keeps (N : Nat) (raw : Prop) (c c' : Compilation) : Prop where
  size_le : c.scopes.size ≤ c'.scopes.size
  parent_eq : ∀ s, s < N → (c'.scope s).parent = (c.scope s).parent
  declared : ∀ s, s < N → ∀ n v, (c.scope s).declared.get? n = some v →
    (c'.scope s).declared.get? n = some v
  free : ¬ raw → ∀ s, s < N → s ≠ rootScope → ∀ n, (c.scope s).declared.get? n = none →
    (c'.scope s).declared.get? n = none
  uses_eq : ∀ a s, c'.usesIn a s = c.usesIn a s
  references_eq : ∀ v, (c'.binding v).references = (c.binding v).references

instance keepsRefl (N : Nat) (raw : Prop) : Std.Refl (Keeps N raw) :=
  ⟨fun _ => ⟨le_rfl, fun _ _ => rfl, fun _ _ _ _ h => h, fun _ _ _ _ _ h => h,
    fun _ _ => rfl, fun _ => rfl⟩⟩

instance keepsTrans (N : Nat) (raw : Prop) : IsTrans Compilation (Keeps N raw) where
  trans _ _ _ h1 h2 := {
    size_le := le_trans h1.size_le h2.size_le
    parent_eq := fun s hs => (h2.parent_eq s hs).trans (h1.parent_eq s hs)
    declared := fun s hs n v h => h2.declared s hs n v (h1.declared s hs n v h)
    free := fun hraw s hs hr n h => h2.free hraw s hs hr n (h1.free hraw s hs hr n h)
    uses_eq := fun a s => (h2.uses_eq a s).trans (h1.uses_eq a s)
    references_eq := fun v => (h2.references_eq v).trans (h1.references_eq v) }

variable {p : Program} {c c' : Compilation} {N : Nat} {raw : Prop}

theorem Keeps.referenced_eq (h : Keeps N raw c c') (s : ScopeId) :
    (c'.scope s).referenced = (c.scope s).referenced :=
  h.uses_eq false s

theorem Keeps.finds (hk : Keeps N raw c c') (hraw : ¬ raw) (ht : ScopeTree c) {n : String}
    {v : BindingId} {s : ScopeId} (hs : s < N) (h : Finds c n v s) : Finds c' n v s := by
  induction h with
  | @here s h => exact .here (hk.declared s hs n v h)
  | @up s q hfree hq _ ih =>
    refine .up ?_ ((hk.parent_eq s hs).trans hq) (ih (lt_trans (ht.parent_lt hq).1 hs))
    exact hk.free hraw s hs (ht.ne_root hq) n hfree

/-- Nothing about scopes changes. -/
theorem keeps_of_scopes_eq (hscopes : c'.scopes = c.scopes)
    (hreferences : ∀ v, (c'.binding v).references = (c.binding v).references) :
    Keeps N raw c c' := by
  have hscope : c'.scope = c.scope := by
    funext s
    unfold Compilation.scope
    rw [hscopes]
  refine ⟨le_of_eq (by rw [hscopes]), fun s _ => ?_, fun s _ n v => ?_, fun _ s _ _ n => ?_,
    fun a s => ?_, hreferences⟩
  · rw [hscope]
  · rw [hscope]
    exact id
  · rw [hscope]
    exact id
  · unfold usesIn
    rw [hscope]

theorem keeps_newScope {s : ScopeId} (hs : s < c.scopes.size) (first : Option BlockRef)
    (hN : N ≤ c.scopes.size) : Keeps N raw c (newScope (some s) first c).2 := by
  have hscope := scope_newScope c hs first
  have hold : ∀ x, x ≠ c.scopes.size → (newScope (some s) first c).2.scope x =
      { c.scope x with children := ((newScope (some s) first c).2.scope x).children } := by
    intro x hx
    rw [hscope, if_neg hx]
    split
    · next h => rw [h]
    · rfl
  have hne : ∀ x, x < N → x ≠ c.scopes.size := fun x hx => ne_of_lt (lt_of_lt_of_le hx hN)
  refine ⟨by rw [size_newScope]; exact Nat.le_succ _, fun x hx => ?_, fun x hx n v => ?_,
    fun _ x hx _ n => ?_, fun a x => ?_, fun _ => rfl⟩
  · rw [hold x (hne x hx)]
  · rw [hold x (hne x hx)]
    exact id
  · rw [hold x (hne x hx)]
    exact id
  · unfold usesIn
    by_cases hx : x = c.scopes.size
    · rw [hx, hscope, if_pos rfl, scope_eq_default c le_rfl]
    · rw [hold x hx]

theorem keeps_addStatement (s : ScopeId) (b : BlockRef) : Keeps N raw c (c.addStatement s b) := by
  have hfield : ∀ {α : Type} (read : Scope → α),
      (∀ x statements, read { x with statements } = read x) →
      ∀ x, read ((c.addStatement s b).scope x) = read (c.scope x) :=
    fun read hread => scope_field c read s _ fun x => hread x _
  refine ⟨(size_updateScope c s _).ge, fun x _ => ?_, fun x _ n v => ?_, fun _ x _ _ n => ?_,
    fun a x => ?_, fun _ => rfl⟩
  · exact hfield Scope.parent (fun _ _ => rfl) x
  iterate 2
    rw [hfield Scope.declared fun _ _ => rfl]
    exact id
  · exact hfield (fun y => if a then y.assigned else y.referenced) (fun _ _ => rfl) x

/-- A new variable has no references. -/
theorem references_declare (s : ScopeId) (name : String) (node : NodeId) (v : BindingId) :
    ((declare s name node c).2.binding v).references = (c.binding v).references := by
  rw [binding_declare]
  split
  · next h => rw [binding_eq_default c (le_of_eq h.symm)]; rfl
  · rfl

/-- A new variable takes the place of none in the first `N` scopes. -/
theorem keeps_declare {s : ScopeId} (hs : s < c.scopes.size) (name : String) (node : NodeId)
    (hfree : s < N → (c.scope s).declared.get? name = none)
    (hraw : s < N → s = rootScope ∨ raw) : Keeps N raw c (declare s name node c).2 where
  size_le := le_of_eq (size_declare c s name node).symm
  parent_eq x _ := scope_field_declare c Scope.parent (fun _ _ => rfl) s name node x
  declared x hx n v hv := by
    rw [scope_declare c hs]
    split
    · next h =>
      subst h
      exact Table.get?_insert_of_get? (hfree hx) hv
    · exact hv
  free hno x hx hr n hn := by
    have hne : x ≠ s := by
      rintro rfl
      exact (hraw hx).elim hr hno
    rw [scope_declare c hs, if_neg hne]
    exact hn
  uses_eq a x := by
    unfold usesIn
    rw [scope_field_declare c Scope.referenced (fun _ _ => rfl),
      scope_field_declare c Scope.assigned (fun _ _ => rfl)]
  references_eq := references_declare s name node

theorem Adds.keeps (h : Adds p N raw c c') : Keeps N raw c c' := by
  cases h with
  | graph g hg => exact keeps_of_scopes_eq rfl fun _ => rfl
  | place b s hs => exact keeps_of_scopes_eq rfl fun _ => rfl
  | newScope s first hs hN => exact keeps_newScope hs first hN
  | atRoot name node hs hn hfree =>
    exact keeps_declare hs name node (fun _ => hfree) fun _ => .inl rfl
  | closed s name node f hs hn hf hfree =>
    have hdeclare : Keeps N raw c (declare s name node c).2 :=
      keeps_declare hs name node (fun h => (hfree (.inl h)).2) fun h =>
        .inr (hfree (.inl h)).1
    refine trans_of (Keeps N raw) hdeclare ?_
    refine keeps_of_scopes_eq rfl ?_
    exact binding_field _ Binding.references _ f hf.references_eq

theorem Adding.keeps (h : Adding p N raw c c') : Keeps N raw c c' :=
  h.along fun _ _ hstep => hstep.keeps

theorem Notes.keeps (h : Notes c c') : Keeps N raw c c' := by
  induction h with
  | refl => exact Std.Refl.refl c
  | tail _ hlast ih =>
    refine trans_of (Keeps N raw) ih ?_
    cases hlast with
    | binding v f _ _ hreferences _ =>
      exact keeps_of_scopes_eq rfl (binding_field _ Binding.references v f hreferences)
    | sites atRoot before => exact keeps_of_scopes_eq rfl fun _ => rfl

theorem Resolved.keeps (hc : Resolved p c) (hsteps : ScopeSteps c c')
    (hk : Keeps c.scopes.size raw c c') (hraw : ¬ raw)
    (hplaced : ∀ b v, b ∈ (c.binding v).references →
      c'.blockScope.get? b = c.blockScope.get? b) : Resolved p c' where
  toOrderly := hsteps.orderly hc.toOrderly
  finds b v h := by
    rw [hk.references_eq] at h
    obtain ⟨s, n, hs, hn, hv⟩ := hc.finds b v h
    exact ⟨s, n, (hplaced b v h).trans hs, hn, hk.finds hraw hc.tree hv.lt hv⟩
  used s v := by
    rw [hk.referenced_eq, hk.references_eq, hc.used]
    refine exists_congr fun b => and_congr_right fun hb => ?_
    rw [hplaced b v hb]

/-- Blocks that use a variable stay where they are. -/
theorem resolved_keeps (hc : Resolved p c ∧ Recorded p c) (hsteps : ScopeSteps c c')
    (hk : Keeps c.scopes.size raw c c') (hraw : ¬ raw)
    (hplaced : ∀ b n, (p.block b).usedName? = some n →
      c'.blockScope.get? b = c.blockScope.get? b) : Resolved p c' ∧ Recorded p c' := by
  refine ⟨hc.1.keeps hsteps hk hraw fun b v hb => ?_, fun b s n hs hn => ?_⟩
  · obtain ⟨_, n, _, hn, _⟩ := hc.1.finds b v hb
    exact hplaced b n hn
  · rw [hplaced b n hn] at hs
    obtain ⟨v, hv⟩ := hc.2 b s n hs hn
    exact ⟨v, by rw [hk.references_eq]; exact hv⟩

/-! ## Noting a use -/

theorem mem_addOnce {l : List BindingId} {v w : BindingId} : w ∈ addOnce l v ↔ w ∈ l ∨ w = v := by
  unfold addOnce
  split
  · next h =>
    refine ⟨.inl, ?_⟩
    rintro (hw | rfl)
    · exact hw
    · exact h
  · rw [List.mem_append, List.mem_singleton]

section Record

variable {s : ScopeId} {b : BlockRef} {v : BindingId} (assigns : Bool)

theorem mem_references_recordUse (hv : v < c.bindings.size) (x : BlockRef) (w : BindingId) :
    x ∈ ((recordUse s b assigns v c).binding w).references ↔
      x ∈ (c.binding w).references ∨ (w = v ∧ x = b) := by
  unfold recordUse
  show x ∈ ((c.updateBinding v _).binding w).references ↔ _
  by_cases hw : w = v
  · subst hw
    rw [binding_updateBinding_self c hv]
    show x ∈ (c.binding w).references ++ [b] ↔ _
    rw [List.mem_append, List.mem_singleton]
    exact or_congr_right (and_iff_right rfl).symm
  · rw [binding_updateBinding_ne c hw]
    exact (or_iff_left fun h => hw h.1).symm

theorem mem_referenced_recordUse (hs : s < c.scopes.size) (t : ScopeId) (w : BindingId) :
    w ∈ ((recordUse s b assigns v c).scope t).referenced ↔
      w ∈ (c.scope t).referenced ∨ (t = s ∧ w = v) := by
  unfold recordUse
  show w ∈ (((c.updateBinding v _).updateScope s _).scope t).referenced ↔ _
  by_cases ht : t = s
  · subst ht
    rw [scope_updateScope_self (c.updateBinding v _) hs]
    show w ∈ addOnce (c.scope t).referenced v ↔ _
    rw [mem_addOnce]
    exact or_congr_right (and_iff_right rfl).symm
  · rw [scope_updateScope_ne _ ht]
    exact (or_iff_left fun h => ht h.1).symm

theorem scope_field_recordUse {α : Type} (read : Scope → α)
    (hread : ∀ x referenced assigned, read { x with referenced, assigned } = read x) (t : ScopeId) :
    read ((recordUse s b assigns v c).scope t) = read (c.scope t) := by
  unfold recordUse
  refine scope_field (c.updateBinding v _) read s _ ?_ t
  exact fun x => hread x _ _

/-- A use is noted at the variable that is found. -/
theorem Resolved.recordUse (hc : Resolved p c) (hb : c.blockScope.get? b = some s) {n : String}
    (hn : (p.block b).usedName? = some n) (hv : Finds c n v s) :
    Resolved p (recordUse s b assigns v c) := by
  obtain ⟨t, ht⟩ := hv.declared
  have hreferences :=
    mem_references_recordUse (c := c) (s := s) (b := b) assigns (hc.once.lt t n v ht)
  have hreferenced := mem_referenced_recordUse (c := c) (b := b) (v := v) assigns hv.lt
  have hfinds : ∀ {m w u}, Finds c m w u → Finds (Program.recordUse s b assigns v c) m w u := by
    intro m w u
    refine Finds.congr (scope_field_recordUse assigns Scope.parent fun _ _ _ => rfl) ?_
    exact scope_field_recordUse assigns (·.declared.get? m) fun _ _ _ => rfl
  refine ⟨(steps_recordUse s b assigns v).orderly hc.toOrderly, ?_, ?_⟩
  · intro x w h
    rcases (hreferences x w).mp h with h | ⟨rfl, rfl⟩
    · obtain ⟨u, m, hu, hm, hw⟩ := hc.finds x w h
      exact ⟨u, m, hu, hm, hfinds hw⟩
    · exact ⟨s, n, hb, hn, hfinds hv⟩
  · intro u w
    rw [hreferenced, hc.used]
    constructor
    · rintro (⟨x, hx, hu⟩ | ⟨rfl, rfl⟩)
      · exact ⟨x, (hreferences x w).mpr (.inl hx), hu⟩
      · exact ⟨b, (hreferences b w).mpr (.inr ⟨rfl, rfl⟩), hb⟩
    · rintro ⟨x, hx, hu⟩
      rcases (hreferences x w).mp hx with hx | ⟨rfl, rfl⟩
      · exact .inl ⟨x, hx, hu⟩
      · exact .inr ⟨Option.some.inj (hu.symm.trans hb), rfl⟩

end Record

/-! ## The walk -/

/-- A block that uses a variable declares none for its inputs. -/
theorem ownNames_of_used {b : Block} {n : String} (hn : b.usedName? = some n)
    (hmutation : b.mutation = none) : p.ownNames b = [] := by
  have hkind : p.kindNames b = [] := by
    unfold Block.usedName? at hn
    unfold kindNames
    split at hn
    iterate 4 next h => rw [h]
    · cases hn
  unfold ownNames mutationNames
  rw [hkind, hmutation]
  rfl

section Walk

variable (hws : p.workspace.IsForest)
  (hraw : ∀ b, p.kind b = .rawStatement → (p.block b).field? "DECLARED_VARIABLES" = none)
  (hmutation : ∀ b n, (p.block b).usedName? = some n → (p.block b).mutation = none)

include hraw in
/-- The block that the walk comes to is no reference yet. If it uses a variable, it becomes a
reference of it. -/
theorem resolved_enter {b : BlockRef} {s : ScopeId} (hc : Resolved p c ∧ Recorded p c)
    (hfresh : c.blockScope.get? b = none) (h : Entered p c.scopes.size s b c c') :
    Resolved p c' ∧ Recorded p c' := by
  have hplaced : ∀ x, x ≠ b → (c.blockScope.insert b s).get? x = c.blockScope.get? x :=
    fun x hx => Table.get?_insert_ne _ _ hx
  cases h with
  | apart hn hadd hscope _ =>
    refine resolved_keeps hc hadd.steps hadd.keeps (fun h => h.2 (hraw b h.1)) fun x n hx => ?_
    rw [hscope]
    refine hplaced x ?_
    rintro rfl
    rw [hn] at hx
    cases hx
  | @uses n v d assigns hn hadd hscope hv =>
    have hresolved : Resolved p d := by
      refine hc.1.keeps hadd.steps hadd.keeps id fun x w hx => ?_
      rw [hscope]
      refine hplaced x ?_
      rintro rfl
      obtain ⟨_, _, hx, _⟩ := hc.1.finds x w hx
      rw [hfresh] at hx
      cases hx
    obtain ⟨t, ht⟩ := hv.declared
    have hmem := mem_references_recordUse (s := s) (b := b) assigns (hresolved.once.lt t n v ht)
    refine ⟨hresolved.recordUse assigns (by rw [hscope, Table.get?_insert_self]) hn hv, ?_⟩
    intro x t m ht hm
    by_cases hx : x = b
    · exact ⟨v, (hmem x v).mpr (.inr ⟨rfl, hx⟩)⟩
    · change d.blockScope.get? x = some t at ht
      rw [hscope, hplaced x hx] at ht
      obtain ⟨w, hw⟩ := hc.2 x t m ht hm
      rw [← hadd.keeps.references_eq] at hw
      exact ⟨w, (hmem x w).mpr (.inl hw)⟩

include hws hraw hmutation in
theorem walkInvariant_resolved : WalkInvariant p (fun d => Resolved p d ∧ Recorded p d) where
  orderly _ hd := hd.1.toOrderly
  block b s d e inner d' hd _ hfresh henter hadd h := by
    refine resolved_keeps (resolved_enter hraw hd (hfresh hws) henter) hadd.steps hadd.keeps id
      fun x n hn => ?_
    cases h with
    | same _ hscope => rw [hscope]
    | new hnames _ _ _ hscope =>
      rw [hscope, Table.get?_insert_ne]
      rintro rfl
      exact hnames (ownNames_of_used hn (hmutation x n hn))
  addStatement b s d hd :=
    resolved_keeps hd (step_addStatement d s b).single (keeps_addStatement s b) id fun _ _ _ => rfl
  start b d hd hkind hs _ := by
    have hplace : Adds p d.scopes.size False d (place b rootScope d).2 :=
      .place d b rootScope hs
    refine resolved_keeps hd hplace.steps hplace.keeps id fun x n hn => ?_
    refine Table.get?_insert_ne _ _ ?_
    rintro rfl
    unfold Block.usedName? at hn
    rw [show (p.block x).kind = .onStart from hkind] at hn
    cases hn
  add d d' hd hadd hscope :=
    resolved_keeps hd hadd.steps hadd.keeps id fun _ _ _ => by rw [hscope]

end Walk

end BlockProgram
