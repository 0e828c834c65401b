import BlockProgram.Proofs.Scope.Owner
import BlockProgram.Proofs.Scope.Sites

/-!
# One declaration for each variable

A variable of a scope is declared in one of two ways. Some block declares it along with what it
does: a function, handler or loop, raw code, or its first assignment. Or it has a declaration of its
own, which stands in one of the lists that tracking leaves behind. `track_declares_once` says that
the two exclude each other, that a variable of the second kind is in these lists once, and that an
assignment that declares a variable comes before everything else that uses it.
-/

namespace BlockProgram

open Compilation List Workspace Program

variable {p : Program} {c d : Compilation} {s : ScopeId} {v : BindingId} {b : BlockRef}

/-! ## Before declarations are decided -/

/-- No variable is declared by its first assignment. -/
def Unassigned (c : Compilation) : Prop :=
  ∀ v, (c.binding v).declared ≠ some .assigned

theorem Unassigned.adds {N : Nat} {raw : Prop} (hc : Unassigned c) (h : Adds p N raw c d) :
    Unassigned d := by
  intro v
  rcases h.binding_cases v with hv | ⟨_, _, f, hv, rfl | hf⟩
  · rw [hv]
    exact hc v
  · rw [hv]
    exact nofun
  · rw [hv]
    exact hf.unassigned _

theorem walkInvariant_unassigned : WalkInvariant p fun d => Orderly p d ∧ Unassigned d := by
  refine .of_adds (fun _ _ _ h hc => hc.adds h) (fun s b assigns v c _ hc w => ?_)
    fun _ _ _ _ hc => hc
  have hdeclared : ∀ w, ((recordUse s b assigns v c).binding w).declared =
      (c.binding w).declared := binding_field c Binding.declared v _ fun _ => rfl
  rw [hdeclared]
  exact hc w

theorem visitAll_unassigned (disabled : List BlockRef) (taken : List String) :
    Unassigned (p.visitAll (fresh disabled taken)).2 :=
  walkInvariant_unassigned.visitAll_fresh disabled taken fun _ => nofun

theorem Unassigned.narrowAll (hc : Unassigned c) (ht : ScopeTree c) (hd : DeclaredOnce c) :
    Unassigned c.narrowAll := by
  refine narrowAll_induction ?_ ht hd hc
  intro d e hd _ _
  rcases narrow_cases d e with h | ⟨_, _, h⟩
  · rw [h]
    exact hd
  · rw [h]
    exact hd

/-! ## Lists of declarations -/

/-- All variables with a declaration of their own, at the top of the program or before a block. -/
def Compilation.declarationSites (c : Compilation) : List BindingId :=
  c.rootDeclarations ++ c.blockDeclarations.values.flatten

/-- A value put at the end of the list of some key is one more value. -/
theorem Table.flatten_insert_perm {κ α : Type} [DecidableEq κ] (t : Table κ (List α)) (k : κ)
    (x : α) :
    (t.insert k ((t.get? k).getD [] ++ [x])).values.flatten.Perm (x :: t.values.flatten) := by
  obtain ⟨l⟩ := t
  show ((Table.insertEntry k ((l.lookup k).getD [] ++ [x]) l).map Prod.snd).flatten.Perm
    (x :: (l.map Prod.snd).flatten)
  induction l with
  | nil => exact List.Perm.refl _
  | cons e r ih =>
    unfold Table.insertEntry
    rw [Table.lookup_cons_ite]
    by_cases he : e.1 = k
    · -- The list of the key is replaced by a longer one, so the value comes in the middle.
      rw [if_pos he, if_pos he.symm, Option.getD_some]
      simp only [map_cons, flatten_cons, append_assoc, singleton_append]
      exact perm_middle
    · rw [if_neg he, if_neg (Ne.symm he)]
      simp only [map_cons, flatten_cons]
      exact (ih.append_left e.2).trans perm_middle

theorem declarationSites_atRoot (c : Compilation) (v : BindingId) :
    ({ c with rootDeclarations := c.rootDeclarations ++ [v] } :
      Compilation).declarationSites.Perm (v :: c.declarationSites) := by
  unfold declarationSites
  rw [append_assoc, singleton_append]
  exact perm_middle

theorem declarationSites_declareBefore (b : BlockRef) (v : BindingId) (c : Compilation) :
    (declareBefore b v c).declarationSites.Perm (v :: c.declarationSites) :=
  ((Table.flatten_insert_perm c.blockDeclarations b v).append_left _).trans perm_middle

/-- What a turn of marking does: nothing to a variable that is declared, else it finds an assignment
that declares it, or adds it to the lists. -/
theorem markSite_effect (p : Program) (s : ScopeId) (c : Compilation) (v : BindingId) :
    ((c.binding v).declared ≠ none ∧ p.markSite s c v = c) ∨
    (c.binding v).declared = none ∧ ((∃ b, p.inlineSite? c s v = some b ∧ p.markSite s c v =
        c.updateBinding v ({ · with declared := some .assigned, first := some b })) ∨
      ((p.markSite s c v).scopes = c.scopes ∧ (p.markSite s c v).bindings = c.bindings ∧
        (p.markSite s c v).declarationSites.Perm (v :: c.declarationSites))) := by
  refine (markSite_cases p s c v).imp_right fun ⟨hnone, hplace⟩ => ⟨hnone, ?_⟩
  rcases hplace with hinline | ⟨_, heq⟩ | ⟨h, _, _, heq⟩
  · exact .inl hinline
  · rw [heq]
    exact .inr ⟨rfl, rfl, declarationSites_atRoot c v⟩
  · rw [heq]
    exact .inr ⟨rfl, rfl, declarationSites_declareBefore h v c⟩

/-! ## The assignment that declares a variable -/

/-- Statement `b` can declare a variable with these references: it assigns it, the value does not
use the variable, and no statement before `b` does. -/
structure AssignsFirst (p : Program) (statements references : List BlockRef) (b : BlockRef) :
    Prop where
  kind_eq : (p.block b).kind = .variableSet
  mem_references : b ∈ references
  value : ∀ t, (p.block b).inputTarget? "VALUE" = some t → ∀ r ∈ references, ¬ p.workspace.Under t r
  first : ∃ before after, statements = before ++ b :: after ∧
    ∀ e ∈ before, ∀ r ∈ references, ¬ p.workspace.Within e r

theorem not_mem_of_any_contains {l references : List BlockRef} {r : BlockRef} (hr : r ∈ references)
    (h : l.any references.contains = false) : r ∉ l := by
  intro hl
  exact any_eq_false.mp h r hl (contains_iff_mem.mpr hr)

theorem assignsFirst_of_inlineSite (hws : p.workspace.Sound) (h : p.inlineSite? c s v = some b) :
    AssignsFirst p (c.scope s).statements (c.binding v).references b := by
  unfold inlineSite? at h
  obtain ⟨hfind, hinline⟩ := Option.filter_eq_some_iff.mp h
  obtain ⟨_, before, after, hsplit, hbefore⟩ := find?_eq_some_iff_append.mp hfind
  unfold declaresInline at hinline
  simp only [Bool.and_eq_true, beq_iff_eq, contains_iff_mem, Bool.not_eq_true',
    Option.any_eq_false] at hinline
  obtain ⟨⟨hkind, hmem⟩, hvalue⟩ := hinline
  refine ⟨hkind, hmem, ?_, before, after, hsplit, ?_⟩
  · intro t ht r hr hunder
    obtain ⟨i, hi, htarget⟩ := Option.bind_eq_some_iff.mp ht
    have hchild := mem_targets (mem_of_find?_eq_some hi) htarget
    have hlt := hws.child_lt b t (mem_append_left _ hchild)
    exact not_mem_of_any_contains hr (hvalue t ht) ((mem_descendants hws hlt).mpr hunder)
  · intro e he r hr hwithin
    have hunused := (Bool.not_eq_true' _).mp (hbefore e he)
    exact not_mem_of_any_contains hr hunused ((mem_subtree hws).mpr hwithin)

/-! ## Every variable in turn -/

/-- A variable of a scope with these statements is declared in one way. -/
structure OneWay (p : Program) (statements : List BlockRef) (c : Compilation) (v : BindingId) :
    Prop where
  once : (c.binding v).declared ≠ none ∧ v ∉ c.declarationSites ∨
    (c.binding v).declared = none ∧ c.declarationSites.count v = 1
  assigned : (c.binding v).declared = some .assigned → ∃ b, (c.binding v).first = some b ∧
    AssignsFirst p statements (c.binding v).references b

theorem OneWay.congr {statements : List BlockRef} (h : OneWay p statements c v)
    (hdeclared : (d.binding v).declared = (c.binding v).declared)
    (hfirst : (d.binding v).first = (c.binding v).first)
    (hreferences : (d.binding v).references = (c.binding v).references)
    (hcount : d.declarationSites.count v = c.declarationSites.count v) :
    OneWay p statements d v := by
  constructor
  · rw [hdeclared, hcount, ← count_eq_zero, hcount, count_eq_zero]
    exact h.once
  · rw [hdeclared, hfirst, hreferences]
    exact h.assigned

/-- The variables of `done`, with their scopes, are declared in one way, and the others are as they
were in `d`, where nothing has been decided. -/
structure Deciding (p : Program) (d : Compilation) (done : List (ScopeId × BindingId))
    (c : Compilation) : Prop where
  scope_eq : c.scope = d.scope
  size_eq : c.bindings.size = d.bindings.size
  pending : ∀ v, v ∉ done.map Prod.snd → c.binding v = d.binding v ∧ v ∉ c.declarationSites
  settled : ∀ s v, (s, v) ∈ done → OneWay p (d.scope s).statements c v

section Deciding

variable {done : List (ScopeId × BindingId)}

/-- One more variable: the others must not notice. -/
theorem Deciding.turn (h : Deciding p d done c) (hnew : v ∉ done.map Prod.snd) {c' : Compilation}
    (hscope : c'.scope = c.scope) (hsize : c'.bindings.size = c.bindings.size)
    (hother : ∀ w, w ≠ v → c'.binding w = c.binding w ∧
      c'.declarationSites.count w = c.declarationSites.count w)
    (hv : OneWay p (d.scope s).statements c' v) : Deciding p d (done ++ [(s, v)]) c' where
  scope_eq := hscope.trans h.scope_eq
  size_eq := hsize.trans h.size_eq
  pending w hw := by
    rw [mem_snd_append, not_or] at hw
    obtain ⟨hbinding, hcount⟩ := hother w hw.2
    obtain ⟨hbefore, hsites⟩ := h.pending w hw.1
    refine ⟨hbinding.trans hbefore, ?_⟩
    rw [← count_eq_zero] at hsites ⊢
    exact hcount.trans hsites
  settled t w hw := by
    rcases mem_append.mp hw with hold | hlast
    · have hne : w ≠ v := by
        rintro rfl
        exact hnew (mem_map.mpr ⟨(t, w), hold, rfl⟩)
      obtain ⟨hbinding, hcount⟩ := hother w hne
      exact (h.settled t w hold).congr (by rw [hbinding]) (by rw [hbinding]) (by rw [hbinding])
        hcount
    · cases mem_singleton.mp hlast
      exact hv

theorem Deciding.assign (hws : p.workspace.Sound) (h : Deciding p d done c)
    (hnew : v ∉ done.map Prod.snd) (hlt : v < d.bindings.size) (hb : p.inlineSite? c s v = some b) :
    Deciding p d (done ++ [(s, v)])
      (c.updateBinding v ({ · with declared := some .assigned, first := some b })) := by
  have hfirst := assignsFirst_of_inlineSite hws hb
  rw [h.scope_eq] at hfirst
  refine h.turn hnew rfl (size_updateBinding c v _)
    (fun w hw => ⟨binding_updateBinding_ne c hw _, rfl⟩) ?_
  constructor
  · rw [binding_updateBinding_self c (h.size_eq ▸ hlt)]
    exact .inl ⟨Option.some_ne_none _, (h.pending v hnew).2⟩
  · rw [binding_updateBinding_self c (h.size_eq ▸ hlt)]
    exact fun _ => ⟨b, rfl, hfirst⟩

theorem Deciding.list (h : Deciding p d done c) (hnew : v ∉ done.map Prod.snd)
    (hnone : (c.binding v).declared = none) {c' : Compilation} (hscopes : c'.scopes = c.scopes)
    (hbindings : c'.bindings = c.bindings)
    (hperm : c'.declarationSites.Perm (v :: c.declarationSites)) :
    Deciding p d (done ++ [(s, v)]) c' := by
  have hbinding : ∀ w, c'.binding w = c.binding w := by
    intro w
    unfold binding
    rw [hbindings]
  refine h.turn hnew ?_ (by rw [hbindings]) ?_ ⟨.inr ⟨?_, ?_⟩, ?_⟩
  · funext t
    unfold scope
    rw [hscopes]
  · intro w hw
    refine ⟨hbinding w, ?_⟩
    rw [hperm.count_eq, count_cons_of_ne (Ne.symm hw)]
  · rw [hbinding]
    exact hnone
  · rw [hperm.count_eq, count_cons_self, count_eq_zero.mpr (h.pending v hnew).2]
  · rw [hbinding, hnone]
    exact fun hassigned => by cases hassigned

theorem Deciding.markSite (hws : p.workspace.Sound) (hd : Unassigned d) (h : Deciding p d done c)
    (hnew : v ∉ done.map Prod.snd) (hlt : v < d.bindings.size) (s : ScopeId) :
    Deciding p d (done ++ [(s, v)]) (p.markSite s c v) := by
  rcases markSite_effect p s c v with
    ⟨hsome, heq⟩ | ⟨hnone, ⟨b, hb, heq⟩ | ⟨hscopes, hbindings, hperm⟩⟩
  · -- It is the variable's first turn: it is as it was in the beginning, and in no list.
    obtain ⟨hsame, hsites⟩ := h.pending v hnew
    rw [heq]
    refine h.turn hnew rfl rfl (fun _ _ => ⟨rfl, rfl⟩) ⟨.inl ⟨hsome, hsites⟩, ?_⟩
    rw [hsame]
    exact fun hassigned => absurd hassigned (hd v)
  · rw [heq]
    exact h.assign hws hnew hlt hb
  · exact h.list hnew hnone hscopes hbindings hperm

theorem deciding_markAll (hws : p.workspace.Sound) (hd : Unassigned d) (honce : DeclaredOnce d)
    (hsites : d.declarationSites = []) :
    Deciding p d (entriesOf d (List.range d.scopes.size)) (p.markAll d) := by
  refine markAll_induction ?_ (fun _ _ h => h.scope_eq) honce ⟨rfl, rfl, ?_, nofun⟩
  · intro done c s v h hnew hv
    exact h.markSite hws hd hnew (honce.lt_of_mem_values hv) s
  · intro v _
    rw [hsites]
    exact ⟨rfl, not_mem_nil⟩

end Deciding

/-! ## All of tracking -/

theorem OneWay.renamed {statements : List BlockRef} (h : OneWay p statements c v)
    (hd : Renamed c d) : OneWay p statements d v := by
  refine h.congr (hd.field Binding.declared (fun _ _ => rfl) v)
    (hd.field Binding.first (fun _ _ => rfl) v) (hd.field Binding.references (fun _ _ => rfl) v) ?_
  unfold declarationSites
  rw [hd.sites_eq, hd.rootSites_eq]

/-- Every variable of a scope belongs to that scope only. It is either declared by a block, and then
it is not in the lists of declarations, or it is in them once. If its first assignment declares it,
that is a statement of the scope that comes before all other uses, its own value included. -/
theorem track_declares_once {surface : Surface} {specs : List BlockSpec}
    {vars : List VariableModel} (hbuild : Workspace.build surface specs vars = .ok p.workspace)
    (disabled : List BlockRef) (taken : List String) :
    let c := (p.track (fresh disabled taken)).2
    ∀ s v, v ∈ (c.scope s).declared.values →
      (∀ t, v ∈ (c.scope t).declared.values → t = s) ∧
      ((c.binding v).declared ≠ none ∧ v ∉ c.declarationSites ∨
        (c.binding v).declared = none ∧ c.declarationSites.count v = 1) ∧
      ((c.binding v).declared = some .assigned → ∃ b, (c.binding v).first = some b ∧
        AssignsFirst p (c.scope s).statements (c.binding v).references b) := by
  intro c s v hv
  have hws := build_sound hbuild
  have hvisit := visitAll_unmoved (p := p) disabled taken
  have hmoved := moved_narrowAll (hvisit.moved (visitAll_homed hws disabled taken rfl))
  have hunassigned :=
    (visitAll_unassigned (p := p) disabled taken).narrowAll hvisit.tree hvisit.once
  have hc : c = (p.markAll (p.visitAll (fresh disabled taken)).2.narrowAll).nameAll :=
    track_eq p _
  generalize (p.visitAll (fresh disabled taken)).2.narrowAll = d at hmoved hunassigned hc
  -- Up to here no list of declarations has been touched, so marking starts with empty ones.
  have hsites : d.declarationSites = [] := by
    unfold declarationSites
    rw [hmoved.homed.no_site, hmoved.homed.no_rootSite]
    rfl
  have hmark := deciding_markAll hws hunassigned hmoved.once hsites
  -- Neither marking nor naming moves a variable to another scope.
  have hscope : c.scope = d.scope := by
    rw [hc, (notes_nameAll _).sameScopes.scope_eq, hmark.scope_eq]
  rw [hscope] at hv ⊢
  have hentry : (s, v) ∈ entriesOf d (List.range d.scopes.size) :=
    mem_entriesOf.mpr ⟨mem_range.mpr (scope_lt_of_mem_values hv), hv⟩
  have hway : OneWay p (d.scope s).statements c v := by
    rw [hc]
    exact (hmark.settled s v hentry).renamed (renamed_nameAll _)
  exact ⟨fun t ht => hmoved.once.eq_of_mem_values ht hv, hway.once, hway.assigned⟩

/-- With two loops in a loop that both set `x`, it has a declaration of its own; `y`, which the
second one sets alone, is declared by its assignment. -/
theorem track_declares_once_siblings :
    let c := (siblings.track (fresh [] [])).2
    build {} siblingBlocks [] = .ok siblings.workspace ∧
    0 ∈ (c.scope 1).declared.values ∧ (c.binding 0).declared = none ∧
    c.declarationSites.count 0 = 1 ∧ 1 ∈ (c.scope 3).declared.values ∧
    (c.binding 1).declared = some .assigned ∧ 1 ∉ c.declarationSites ∧
    ∃ b, (c.binding 1).first = some b ∧
      AssignsFirst siblings (c.scope 3).statements (c.binding 1).references b := by
  intro c
  have hbuild : build {} siblingBlocks [] = .ok siblings.workspace := by decide +kernel
  have hx : 0 ∈ (c.scope 1).declared.values := by decide +kernel
  have hy : 1 ∈ (c.scope 3).declared.values := by decide +kernel
  have hxnone : (c.binding 0).declared = none := by decide +kernel
  have hyassigned : (c.binding 1).declared = some .assigned := by decide +kernel
  obtain ⟨_, hxonce, _⟩ := track_declares_once hbuild [] [] 1 0 hx
  obtain ⟨_, hyonce, hyfirst⟩ := track_declares_once hbuild [] [] 3 1 hy
  refine ⟨hbuild, hx, hxnone, ?_, hy, hyassigned, ?_, hyfirst hyassigned⟩
  · rcases hxonce with ⟨hsome, _⟩ | ⟨_, hcount⟩
    · exact absurd hxnone hsome
    · exact hcount
  · rcases hyonce with ⟨_, hsites⟩ | ⟨hnone, _⟩
    · exact hsites
    · rw [hyassigned] at hnone
      cases hnone

end BlockProgram
