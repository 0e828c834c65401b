import BlockProgram.Proofs.Scope.Steps
import BlockProgram.Proofs.TypeGraph.Reachable

/-!
# The tree of scopes

Scopes form a tree with the root in it (`ScopeTree`), and no variable is declared in two places
(`DeclaredOnce`). Both hold throughout scope tracking (`Orderly`). What comes after the walk over
the blocks is shown to be a sequence of small steps: variables move from the root to their owners,
and notes are made about them (`Notes`).
-/

namespace BlockProgram

open Compilation List Relation

variable {p : Program} {c c' : Compilation} {q s : ScopeId}

/-! ## The tree -/

/-- Every scope but the root has a parent with a smaller number that lists it as a child. -/
structure ScopeTree (c : Compilation) : Prop where
  root_lt : rootScope < c.scopes.size
  root_parent : (c.scope rootScope).parent = none
  parent : ∀ s, s < c.scopes.size → s ≠ rootScope →
    ∃ q, (c.scope s).parent = some q ∧ q < s ∧ s ∈ (c.scope q).children
  child : ∀ s t, t ∈ (c.scope s).children → t < c.scopes.size ∧ (c.scope t).parent = some s
  nodup : ∀ s, (c.scope s).children.Nodup

theorem ScopeTree.congr (ht : ScopeTree c) (hsize : c'.scopes.size = c.scopes.size)
    (hparent : ∀ s, (c'.scope s).parent = (c.scope s).parent)
    (hchildren : ∀ s, (c'.scope s).children = (c.scope s).children) : ScopeTree c' where
  root_lt := by rw [hsize]; exact ht.root_lt
  root_parent := by rw [hparent]; exact ht.root_parent
  parent s hs hroot := by
    obtain ⟨q, hq, hlt, hmem⟩ := ht.parent s (hsize ▸ hs) hroot
    exact ⟨q, by rw [hparent, hq], hlt, by rw [hchildren]; exact hmem⟩
  child s t h := by
    rw [hchildren] at h
    rw [hsize, hparent]
    exact ht.child s t h
  nodup s := by rw [hchildren]; exact ht.nodup s

theorem parent_newScope (hq : q < c.scopes.size) (first : Option BlockRef) (s : ScopeId) :
    ((newScope (some q) first c).2.scope s).parent =
      if s = c.scopes.size then some q else (c.scope s).parent := by
  rw [scope_newScope c hq first]
  split
  · rfl
  · split
    · next h => rw [h]
    · rfl

theorem mem_children_newScope (hq : q < c.scopes.size) (first : Option BlockRef) (s t : ScopeId) :
    t ∈ ((newScope (some q) first c).2.scope s).children ↔
      t ∈ (c.scope s).children ∨ s = q ∧ t = c.scopes.size := by
  rw [scope_newScope c hq first]
  split
  · next h =>
    subst h
    rw [scope_eq_default c le_rfl]
    constructor
    · intro h
      cases h
    · rintro (h | ⟨h, _⟩)
      · cases h
      · exact absurd h.symm (ne_of_lt hq)
  · split
    · next h =>
      subst h
      rw [mem_append, mem_singleton]
      exact or_congr_right (and_iff_right rfl).symm
    · next h => exact (or_iff_left fun h' => h h'.1).symm

theorem ScopeTree.newScope (ht : ScopeTree c) (hq : q < c.scopes.size) (first : Option BlockRef) :
    ScopeTree (newScope (some q) first c).2 := by
  have hparent := parent_newScope hq first
  have hchildren := mem_children_newScope hq first
  have hsize := size_newScope c q first
  refine ⟨?_, ?_, ?_, ?_, ?_⟩
  · rw [hsize]
    exact Nat.succ_pos _
  · rw [hparent, if_neg (ne_of_lt ht.root_lt)]
    exact ht.root_parent
  · intro s hs hroot
    rw [hsize] at hs
    rcases Nat.lt_succ_iff_lt_or_eq.mp hs with hlt | rfl
    · obtain ⟨r, hr, hrs, hmem⟩ := ht.parent s hlt hroot
      refine ⟨r, ?_, hrs, (hchildren r s).mpr (.inl hmem)⟩
      rw [hparent, if_neg (ne_of_lt hlt), hr]
    · refine ⟨q, ?_, hq, (hchildren q _).mpr (.inr ⟨rfl, rfl⟩)⟩
      rw [hparent, if_pos rfl]
  · intro s t h
    rw [hsize, hparent]
    rcases (hchildren s t).mp h with h | ⟨rfl, rfl⟩
    · obtain ⟨hlt, htparent⟩ := ht.child s t h
      exact ⟨Nat.lt_succ_of_lt hlt, by rw [if_neg (ne_of_lt hlt), htparent]⟩
    · exact ⟨Nat.lt_succ_self _, if_pos rfl⟩
  · intro s
    rw [scope_newScope c hq first]
    split
    · exact nodup_nil
    · split
      · refine nodup_append.mpr ⟨ht.nodup q, nodup_singleton _, ?_⟩
        intro t h u hu htu
        rw [mem_singleton.mp hu] at htu
        exact absurd (ht.child q t h).1 (by rw [htu]; exact lt_irrefl _)
      · exact ht.nodup s

theorem ScopeStep.tree (h : ScopeStep c c') (ht : ScopeTree c) : ScopeTree c' := by
  cases h with
  | newScope q first hq => exact ht.newScope hq first
  | declare s name node hs hn =>
    refine ht.congr (size_declare c s name node) ?_ ?_
    · exact scope_field_declare c Scope.parent (fun _ _ => rfl) s name node
    · exact scope_field_declare c Scope.children (fun _ _ => rfl) s name node
  | scope s f hparent hchildren hdeclared =>
    exact ht.congr (size_updateScope c s f) (scope_field c Scope.parent s f hparent)
      (scope_field c Scope.children s f hchildren)
  | move name v s hs hroot hv hfree =>
    refine ht.congr ?_ ?_ ?_
    · unfold moveTo
      rw [size_updateScope, size_updateScope]
    · exact scope_field_moveTo Scope.parent (fun _ _ => rfl) c name v s
    · exact scope_field_moveTo Scope.children (fun _ _ => rfl) c name v s
  | graph | place | binding | sites => exact ht.congr rfl (fun _ => rfl) (fun _ => rfl)

/-! ## Declared variables -/

/-- No variable is declared in two scopes, or under another name than its own. -/
structure DeclaredOnce (c : Compilation) : Prop where
  distinct : ∀ s, (c.scope s).declared.Distinct
  lt : ∀ s n v, (c.scope s).declared.get? n = some v → v < c.bindings.size
  name_eq : ∀ s n v, (c.scope s).declared.get? n = some v → (c.binding v).name = n
  once : ∀ s s' n n' v, (c.scope s).declared.get? n = some v →
    (c.scope s').declared.get? n' = some v → s = s' ∧ n = n'

theorem DeclaredOnce.congr (hd : DeclaredOnce c) (hsize : c.bindings.size ≤ c'.bindings.size)
    (hname : ∀ v, (c'.binding v).name = (c.binding v).name)
    (hdeclared : ∀ s, (c'.scope s).declared = (c.scope s).declared) : DeclaredOnce c' where
  distinct s := by rw [hdeclared]; exact hd.distinct s
  lt s n v h := by
    rw [hdeclared] at h
    exact lt_of_lt_of_le (hd.lt s n v h) hsize
  name_eq s n v h := by
    rw [hdeclared] at h
    rw [hname, hd.name_eq s n v h]
  once s s' n n' v h h' := by
    rw [hdeclared] at h h'
    exact hd.once s s' n n' v h h'

theorem DeclaredOnce.declare (hd : DeclaredOnce c) (hs : s < c.scopes.size) (name : String)
    (node : NodeId) : DeclaredOnce (declare s name node c).2 := by
  have hscope := scope_declare c hs name node
  have hget : ∀ x n v, ((Compilation.declare s name node c).2.scope x).declared.get? n = some v →
      (x = s ∧ n = name ∧ v = c.bindings.size) ∨ (c.scope x).declared.get? n = some v := by
    intro x n v h
    rw [hscope] at h
    split at h
    · next hx =>
      rw [Table.get?_insert] at h
      split at h
      · next hn => exact .inl ⟨hx, hn, (Option.some.inj h).symm⟩
      · exact .inr (hx ▸ h)
    · exact .inr h
  have hsize := bindings_size_declare c s name node
  refine ⟨?_, ?_, ?_, ?_⟩
  · intro x
    rw [hscope]
    split
    · exact (hd.distinct s).insert name _
    · exact hd.distinct x
  · intro x n v h
    rw [hsize]
    rcases hget x n v h with ⟨_, _, rfl⟩ | h
    · exact Nat.lt_succ_self _
    · exact Nat.lt_succ_of_lt (hd.lt x n v h)
  · intro x n v h
    rw [binding_declare]
    rcases hget x n v h with ⟨_, rfl, rfl⟩ | h
    · rw [if_pos rfl]
    · rw [if_neg (ne_of_lt (hd.lt x n v h)), hd.name_eq x n v h]
  · intro x x' n n' v h h'
    rcases hget x n v h with ⟨rfl, rfl, rfl⟩ | h
    · rcases hget x' n' _ h' with ⟨rfl, rfl, _⟩ | h'
      · exact ⟨rfl, rfl⟩
      · exact absurd (hd.lt x' n' _ h') (lt_irrefl _)
    · rcases hget x' n' v h' with ⟨_, _, rfl⟩ | h'
      · exact absurd (hd.lt x n _ h) (lt_irrefl _)
      · exact hd.once x x' n n' v h h'

theorem DeclaredOnce.moveTo (hd : DeclaredOnce c) {name : String} {v : BindingId}
    (hs : s < c.scopes.size) (hroot : s ≠ rootScope)
    (hv : (c.scope rootScope).declared.get? name = some v) : DeclaredOnce (c.moveTo name v s) := by
  have hscope := scope_moveTo c name v hs hroot
  -- an entry is the moved one, or one that was there before and was not moved
  have hget : ∀ x n w, ((c.moveTo name v s).scope x).declared.get? n = some w →
      (x = s ∧ n = name ∧ w = v) ∨
        ((c.scope x).declared.get? n = some w ∧ ¬ (x = rootScope ∧ n = name)) := by
    intro x n w h
    rw [get?_moveTo c name v hs hroot] at h
    split at h
    · next hx => exact .inl ⟨hx.2, hx.1, (Option.some.inj h).symm⟩
    · split at h
      · cases h
      · next hx => exact .inr ⟨h, fun hc => hx ⟨hc.2, hc.1⟩⟩
  refine ⟨?_, ?_, ?_, ?_⟩
  · intro x
    rw [hscope]
    split
    · exact (hd.distinct s).insert name v
    · split
      · exact (hd.distinct rootScope).erase name
      · exact hd.distinct x
  · intro x n w h
    rcases hget x n w h with ⟨_, _, rfl⟩ | ⟨h, _⟩
    · exact hd.lt rootScope name w hv
    · exact hd.lt x n w h
  · intro x n w h
    rcases hget x n w h with ⟨_, rfl, rfl⟩ | ⟨h, _⟩
    · exact hd.name_eq rootScope n w hv
    · exact hd.name_eq x n w h
  · intro x x' n n' w h h'
    rcases hget x n w h with ⟨rfl, rfl, rfl⟩ | ⟨h, hne⟩
    · rcases hget x' n' _ h' with ⟨rfl, rfl, _⟩ | ⟨h', hne'⟩
      · exact ⟨rfl, rfl⟩
      · obtain ⟨hx, hn⟩ := hd.once _ _ _ _ _ hv h'
        exact absurd ⟨hx.symm, hn.symm⟩ hne'
    · rcases hget x' n' w h' with ⟨_, _, hw⟩ | ⟨h', _⟩
      · obtain ⟨hx, hn⟩ := hd.once _ _ _ _ _ hv (hw ▸ h)
        exact absurd ⟨hx.symm, hn.symm⟩ hne
      · exact hd.once x x' n n' w h h'

theorem ScopeStep.declaredOnce (h : ScopeStep c c') (hd : DeclaredOnce c) : DeclaredOnce c' := by
  cases h with
  | newScope q first hq =>
    refine hd.congr le_rfl (fun _ => rfl) ?_
    intro s
    rw [scope_newScope c hq]
    split
    · next h => rw [scope_eq_default c (le_of_eq h.symm)]
    · split
      · next h => rw [h]
      · rfl
  | declare s name node hs hn => exact hd.declare hs name node
  | binding v f hname hnode =>
    exact hd.congr (le_of_eq (size_updateBinding c v f).symm)
      (binding_field c Binding.name v f hname) fun _ => rfl
  | scope s f hparent hchildren hdeclared =>
    exact hd.congr le_rfl (fun _ => rfl) (scope_field c Scope.declared s f hdeclared)
  | move name v s hs hroot hv hfree => exact hd.moveTo hs hroot hv
  | graph | place | sites => exact hd.congr le_rfl (fun _ => rfl) (fun _ => rfl)

/-- What holds throughout scope tracking. -/
structure Orderly (p : Program) (c : Compilation) : Prop where
  consistent : Consistent p c
  tree : ScopeTree c
  once : DeclaredOnce c

theorem ScopeSteps.orderly (h : ScopeSteps c c') (hc : Orderly p c) : Orderly p c' where
  consistent := h.consistent hc.consistent
  tree := h.invariant (fun _ _ hstep => hstep.tree) hc.tree
  once := h.invariant (fun _ _ hstep => hstep.declaredOnce) hc.once

/-! ## Owners -/

theorem ownerFrom_lt (ht : ScopeTree c) (v : BindingId) (fuel : Nat) (hs : s < c.scopes.size) :
    c.ownerFrom v fuel s < c.scopes.size := by
  induction fuel generalizing s with
  | zero => exact hs
  | succ fuel ih =>
    unfold ownerFrom
    split
    · exact hs
    · split
      · next only honly =>
        have hmem : only ∈ (c.scope s).children :=
          (mem_filter.mp (honly ▸ mem_cons_self : only ∈ (c.scope s).children.filter _)).1
        split
        · exact ih (ht.child s only hmem).1
        · exact hs
      · exact hs

theorem owner_lt (ht : ScopeTree c) (v : BindingId) : c.owner v < c.scopes.size :=
  ownerFrom_lt ht v c.scopes.size ht.root_lt

/-- Narrowing leaves a variable where it is, or moves it to its owner. -/
theorem narrow_cases (c : Compilation) (e : String × BindingId) : c.narrow e = c ∨
      (c.owner e.2 ≠ rootScope ∧ (c.scope (c.owner e.2)).declared.get? e.1 = none ∧
        c.narrow e = c.moveTo e.1 e.2 (c.owner e.2)) := by
  unfold narrow
  dsimp only
  split
  · exact .inl rfl
  · next h =>
    simp only [Bool.or_eq_true, decide_eq_true_eq, not_or] at h
    refine .inr ⟨h.1.2, ?_, rfl⟩
    have hfree := h.2
    unfold Table.contains at hfree
    rwa [Option.not_isSome_iff_eq_none] at hfree

theorem steps_narrow (ht : ScopeTree c) {e : String × BindingId}
    (hv : (c.scope rootScope).declared.get? e.1 = some e.2) : ScopeSteps c (c.narrow e) := by
  rcases narrow_cases c e with h | ⟨hroot, hfree, h⟩
  · rw [h]
    exact .refl
  · rw [h]
    exact (ScopeStep.move c e.1 e.2 _ (owner_lt ht e.2) hroot hv hfree).single

/-- Narrowing one variable takes no other from the root. -/
theorem root_narrow (ht : ScopeTree c) (e : String × BindingId) {k : String} (hk : k ≠ e.1) :
    ((c.narrow e).scope rootScope).declared.get? k = (c.scope rootScope).declared.get? k := by
  rcases narrow_cases c e with h | ⟨hroot, _, h⟩
  · rw [h]
  · rw [h, scope_moveTo c e.1 e.2 (owner_lt ht e.2) hroot, if_neg (Ne.symm hroot), if_pos rfl,
      Table.get?_erase, if_neg hk]

/-- Narrowing of all variables: each is still at the root when its turn comes. -/
theorem narrow_induction {J : Compilation → Prop} (hJ : ∀ d e, J d → ScopeTree d →
      (d.scope rootScope).declared.get? e.1 = some e.2 → J (d.narrow e))
    (l : List (String × BindingId)) (hl : (l.map Prod.fst).Nodup) (ht : ScopeTree c)
    (hroot : ∀ e ∈ l, (c.scope rootScope).declared.get? e.1 = some e.2) (hc : J c) :
    J (l.foldl narrow c) := by
  induction l generalizing c with
  | nil => exact hc
  | cons e r ih =>
    rw [map_cons, nodup_cons] at hl
    have hv := hroot e (.head _)
    have ht' : ScopeTree (c.narrow e) :=
      (steps_narrow ht hv).invariant (fun _ _ hstep => hstep.tree) ht
    refine ih hl.2 ht' ?_ (hJ c e hc ht hv)
    intro e' he'
    rw [root_narrow ht e]
    · exact hroot e' (.tail e he')
    · intro h
      exact hl.1 (h ▸ mem_map_of_mem he')

theorem narrowAll_induction {J : Compilation → Prop} (hJ : ∀ d e, J d → ScopeTree d →
      (d.scope rootScope).declared.get? e.1 = some e.2 → J (d.narrow e))
    (ht : ScopeTree c) (hd : DeclaredOnce c) (hc : J c) : J c.narrowAll := by
  refine narrow_induction hJ _ (hd.distinct rootScope) ht ?_ hc
  intro e he
  exact ((hd.distinct rootScope).mem_entries_iff e.1 e.2).mp he

/-! ## After the walk -/

theorem narrowAll_same (c : Compilation) :
    c.narrowAll.bindings = c.bindings ∧ c.narrowAll.graph = c.graph := by
  refine foldlRecOn (motive := fun d => d.bindings = c.bindings ∧ d.graph = c.graph) _ narrow
    ⟨rfl, rfl⟩ fun d hd e _ => ?_
  rcases narrow_cases d e with h | ⟨_, _, h⟩
  · rwa [h]
  · rw [h]
    exact hd

theorem steps_narrowAll (ht : ScopeTree c) (hd : DeclaredOnce c) : ScopeSteps c c.narrowAll := by
  refine narrowAll_induction ?_ ht hd .refl
  intro d e hsteps htree hv
  exact ReflTransGen.trans hsteps (steps_narrow htree hv)

/-- A step that leaves scopes, uses and parameters as they are: a note about a variable, or new
declaration sites. -/
inductive NoteStep : Compilation → Compilation → Prop where
  | binding (c : Compilation) (v : BindingId) (f : Binding → Binding)
      (hname : ∀ x, (f x).name = x.name) (hnode : ∀ x, (f x).node = x.node)
      (hreferences : ∀ x, (f x).references = x.references)
      (hparameter : ∀ x, (f x).isParameter = x.isParameter) : NoteStep c (c.updateBinding v f)
  | sites (c : Compilation) (atRoot : List BindingId) (before : Table BlockRef (List BindingId)) :
      NoteStep c { c with rootDeclarations := atRoot, blockDeclarations := before }

def Notes : Compilation → Compilation → Prop :=
  Relation.ReflTransGen NoteStep

theorem NoteStep.step (h : NoteStep c c') : ScopeStep c c' := by
  cases h with
  | binding v f hname hnode _ _ => exact ScopeStep.binding c v f hname hnode
  | sites atRoot before => exact ScopeStep.sites c atRoot before

theorem Notes.steps (h : Notes c c') : ScopeSteps c c' :=
  ReflTransGen.mono (fun _ _ => NoteStep.step) c c' h

theorem Notes.same (h : Notes c c') : c'.scopes = c.scopes ∧ c'.blockScope = c.blockScope ∧
    c'.graph = c.graph ∧ c'.bindings.size = c.bindings.size := by
  induction h with
  | refl => exact ⟨rfl, rfl, rfl, rfl⟩
  | tail _ hlast ih =>
    cases hlast with
    | binding v f _ _ _ _ => exact ⟨ih.1, ih.2.1, ih.2.2.1,
      (size_updateBinding _ v f).trans ih.2.2.2⟩
    | sites => exact ih

instance notesRefl : Std.Refl Notes :=
  ⟨fun _ => .refl⟩

instance notesTrans : IsTrans Compilation Notes :=
  ⟨fun _ _ _ => ReflTransGen.trans⟩

section Folds

variable {R : Compilation → Compilation → Prop} [Std.Refl R] [IsTrans Compilation R]

theorem along_foldl {α : Type} {f : Compilation → α → Compilation} (hf : ∀ d a, R d (f d a))
    (l : List α) (c : Compilation) : R c (l.foldl f c) := by
  induction l generalizing c with
  | nil => exact Std.Refl.refl c
  | cons a r ih => exact trans_of R (hf c a) (ih (f c a))

variable (hone : ∀ acc v, R acc.2 (nameOne acc v).2)

include hone

theorem along_nameEach (l : List BindingId) (acc : List String × Compilation) :
    R acc.2 (l.foldl nameOne acc).2 := by
  induction l generalizing acc with
  | nil => exact Std.Refl.refl _
  | cons v r ih => exact trans_of R (hone acc v) (ih _)

/-- Naming goes along whatever naming one variable goes along. -/
theorem along_nameScope (taken : List String) (fuel : Nat) (c : Compilation) (s : ScopeId) :
    R c (nameScope taken fuel c s) := by
  induction fuel generalizing taken c s with
  | zero => exact Std.Refl.refl c
  | succ fuel ih =>
    have hfirst := along_nameEach hone (c.scope s).declared.values (taken, c)
    unfold nameScope
    generalize (c.scope s).declared.values.foldl nameOne (taken, c) = acc at hfirst ⊢
    exact trans_of R hfirst (along_foldl (ih acc.1) _ _)

end Folds

theorem notes_markSite (s : ScopeId) (c : Compilation) (v : BindingId) :
    Notes c (p.markSite s c v) := by
  unfold Program.markSite
  split
  · exact .refl
  · split
    · refine .single (NoteStep.binding c v _ ?_ ?_ ?_ ?_)
      all_goals exact fun _ => rfl
    · split
      · split
        · exact .single (NoteStep.sites c _ _)
        · exact .single (NoteStep.sites c _ _)
      · exact .single (NoteStep.sites c _ _)

theorem notes_markAll (c : Compilation) : Notes c (p.markAll c) :=
  along_foldl (R := Notes) (fun _ _ => along_foldl (notes_markSite _) _ _) _ c

theorem notes_nameOne (acc : List String × Compilation) (v : BindingId) :
    Notes acc.2 (nameOne acc v).2 := by
  refine .single (NoteStep.binding acc.2 v _ ?_ ?_ ?_ ?_)
  all_goals exact fun _ => rfl

theorem notes_nameAll (c : Compilation) : Notes c c.nameAll :=
  along_nameScope notes_nameOne _ _ c rootScope

theorem track_eq (p : Program) (c : Compilation) :
    (p.track c).2 = (p.markAll (p.visitAll c).2.narrowAll).nameAll := by
  unfold Program.track
  -- the four parts as they are: nothing of them is to be evaluated
  generalize p.visitAll = visitAll, narrowAll = narrowAll, p.markAll = markAll, nameAll = nameAll
  rfl

/-! ## Fresh compilations -/

/-- A compilation about to begin, with the blocks that are switched off and the names that are
taken. -/
def Compilation.fresh (disabled : List BlockRef) (taken : List String) : Compilation :=
  { disabled, taken }

section Fresh

variable (disabled : List BlockRef) (taken : List String)

theorem scope_fresh (s : ScopeId) : (fresh disabled taken).scope s = {} := by
  cases s with
  | zero => rfl
  | succ s => exact scope_eq_default _ (Nat.succ_le_succ (Nat.zero_le s))

theorem fresh_consistent (p : Program) : Consistent p (fresh disabled taken) where
  graph := TypeGraph.initial_wellFormed
  primitives := TypeGraph.initial_hasPrimitives
  binding_lt _ := Nat.succ_pos 3
  placeholder_lt _ := Nat.succ_pos 3
  blockNode_lt _ _ h := by cases h
  blockNode_own _ _ h := by cases h
  functionNode_lt _ _ h := by cases h
  functionNode_defined _ _ h := by cases h

theorem fresh_tree : ScopeTree (fresh disabled taken) where
  root_lt := Nat.succ_pos 0
  root_parent := rfl
  parent _ hs hroot := absurd (Nat.lt_one_iff.mp hs) hroot
  child s t h := by
    rw [scope_fresh] at h
    cases h
  nodup s := by
    rw [scope_fresh]
    exact nodup_nil

theorem fresh_declaredOnce : DeclaredOnce (fresh disabled taken) where
  distinct s := by
    rw [scope_fresh]
    exact Table.distinct_empty
  lt s n v h := by
    rw [scope_fresh] at h
    cases h
  name_eq s n v h := by
    rw [scope_fresh] at h
    cases h
  once s _ n _ v h _ := by
    rw [scope_fresh] at h
    cases h

theorem fresh_orderly (p : Program) : Orderly p (fresh disabled taken) :=
  ⟨fresh_consistent disabled taken p, fresh_tree disabled taken, fresh_declaredOnce disabled taken⟩

end Fresh

end BlockProgram
