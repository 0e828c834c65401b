import BlockProgram.Proofs.Scope.Coverage
import BlockProgram.Proofs.Workspace.Liveness

/-!
# Heads of scopes

A scope declares its variables in front of its head: the first live statement in it or, if a block
has opened it for its own inputs, that block. Every block that uses a variable in a scope or inside
it is below the head (`visitAll_homed`), so what is declared there is declared in front of its uses.
-/

namespace BlockProgram

open Compilation Program Workspace List

/-- A block stands in a chain that is plugged into a statement input. -/
def Program.IsStatement (p : Program) (x : BlockRef) : Prop :=
  ∃ b, ∃ i ∈ (p.block b).inputs, i.kind = .statement ∧ ∃ t, i.target = some t ∧
    x ∈ p.workspace.chain (some t)

/-- A live block that declares variables for its own inputs or stands among the statements of an
input. -/
structure Heads (p : Program) (L : BlockRef → Bool) (h : BlockRef) : Prop where
  live : L h = true
  position : p.ownNames (p.block h) ≠ [] ∨ p.IsStatement h

/-- A block is below the heads of a scope and of the scopes around it. -/
def Belongs (p : Program) (L : BlockRef → Bool) (c : Compilation) (s : ScopeId) (x : BlockRef) :
    Prop :=
  s < c.scopes.size ∧ ∀ o, o ≠ rootScope → Inside c o s →
    ∃ h, scopeHead? (c.scope o) = some h ∧ p.workspace.Under h x ∧ Heads p L h

/-- The walk has come so far: every use of a variable is noted in a scope into which the block
belongs that uses it, and nothing is said yet about where variables are declared. -/
structure Homed (p : Program) (L : BlockRef → Bool) (c : Compilation) : Prop
    extends Orderly p c where
  live_eq : p.isLive c = L
  uses : ∀ v r, r ∈ (c.binding v).references →
    r < p.workspace.size ∧ ∃ t, v ∈ (c.scope t).referenced ∧ Belongs p L c t r
  no_site : c.blockDeclarations = {}
  no_rootSite : c.rootDeclarations = []

variable {p : Program} {L : BlockRef → Bool} {c c' : Compilation} {s o : ScopeId} {b x : BlockRef}
  {N : Nat}

/-! ## Outlines of scopes -/

/-- What decides about the head of a scope. -/
def Scope.outline (s : Scope) : Option ScopeId × Option BlockRef × List BlockRef :=
  (s.parent, s.first, s.statements)

theorem parent_of_outline {s t : Scope} (h : s.outline = t.outline) : s.parent = t.parent :=
  congrArg Prod.fst h

theorem head_of_outline {s t : Scope} (h : s.outline = t.outline) :
    scopeHead? s = scopeHead? t := by
  unfold scopeHead?
  rw [show s.statements = t.statements from congrArg (·.2.2) h,
    show s.first = t.first from congrArg (·.2.1) h]

theorem statements_of_outline {s t : Scope} (h : s.outline = t.outline) :
    s.statements = t.statements :=
  congrArg (·.2.2) h

/-- The first `N` scopes but the root keep their outlines. -/
structure Firm (N : Nat) (c c' : Compilation) : Prop where
  size_le : c.scopes.size ≤ c'.scopes.size
  outline_eq : ∀ s, s < N → s ≠ rootScope → (c'.scope s).outline = (c.scope s).outline

instance firmRefl (N : Nat) : Std.Refl (Firm N) :=
  ⟨fun _ => ⟨le_rfl, fun _ _ _ => rfl⟩⟩

instance firmTrans (N : Nat) : IsTrans Compilation (Firm N) :=
  ⟨fun _ _ _ h1 h2 => ⟨le_trans h1.size_le h2.size_le,
    fun s hs hr => (h2.outline_eq s hs hr).trans (h1.outline_eq s hs hr)⟩⟩

theorem Firm.mono {M N : Nat} (h : Firm N c c') (hMN : M ≤ N) : Firm M c c' :=
  ⟨h.size_le, fun s hs => h.outline_eq s (lt_of_lt_of_le hs hMN)⟩

theorem Firm.parent_eq (h : Firm N c c') (ht : ScopeTree c) (ht' : ScopeTree c') (hs : s < N) :
    (c'.scope s).parent = (c.scope s).parent := by
  by_cases hr : s = rootScope
  · rw [hr, ht.root_parent, ht'.root_parent]
  · exact parent_of_outline (h.outline_eq s hs hr)

/-- Where a scope is depends on the parents of smaller scopes only. -/
theorem inside_of_parent_eq (ht : ScopeTree c)
    (hparent : ∀ x, x < N → (c'.scope x).parent = (c.scope x).parent) (h : Inside c o s)
    (hs : s < N) : Inside c' o s := by
  induction h using Relation.ReflTransGen.head_induction_on with
  | refl => exact .refl
  | head hq _ ih =>
    refine .head ?_ (ih (lt_trans (ht.parent_lt hq).1 hs))
    rw [hparent _ hs]
    exact hq

theorem Belongs.congr (hb : Belongs p L c s x) (ht' : ScopeTree c')
    (hsize : c.scopes.size ≤ c'.scopes.size) (hs : s < N)
    (hparent : ∀ x, x < N → (c'.scope x).parent = (c.scope x).parent)
    (hhead : ∀ o, o ≠ rootScope → Inside c o s →
      scopeHead? (c'.scope o) = scopeHead? (c.scope o)) : Belongs p L c' s x := by
  refine ⟨lt_of_lt_of_le hb.1 hsize, fun o ho hos => ?_⟩
  have hinside : Inside c o s := inside_of_parent_eq ht' (fun x hx => (hparent x hx).symm) hos hs
  rw [hhead o ho hinside]
  exact hb.2 o ho hinside

theorem Belongs.firm (hb : Belongs p L c s x) (ht : ScopeTree c) (ht' : ScopeTree c')
    (h : Firm N c c') (hs : s < N) : Belongs p L c' s x := by
  refine hb.congr ht' h.size_le hs (fun _ hx => h.parent_eq ht ht' hx) ?_
  intro o ho hos
  exact head_of_outline (h.outline_eq o (lt_of_le_of_lt (hos.le ht) hs) ho)

/-- What is below a block belongs where the block does. -/
theorem Belongs.under (hb : Belongs p L c s b) (hx : p.workspace.Under b x) :
    Belongs p L c s x := by
  refine ⟨hb.1, fun o ho hos => ?_⟩
  obtain ⟨h, hh, hunder, hheads⟩ := hb.2 o ho hos
  exact ⟨h, hh, hunder.trans hx, hheads⟩

theorem belongs_root (ht : ScopeTree c) (x : BlockRef) : Belongs p L c rootScope x := by
  refine ⟨ht.root_lt, fun o ho hos => ?_⟩
  exact absurd (Nat.le_zero.mp (hos.le ht)) ho

/-! ## Calm steps -/

/-- Scopes keep their outlines, no use is noted or lost, and no declaration gets a place. -/
structure Calm (c c' : Compilation) : Prop where
  size_le : c.scopes.size ≤ c'.scopes.size
  outline_eq : ∀ s, s < c.scopes.size → (c'.scope s).outline = (c.scope s).outline
  references_eq : ∀ v, (c'.binding v).references = (c.binding v).references
  referenced_eq : ∀ s, (c'.scope s).referenced = (c.scope s).referenced
  sites_eq : c'.blockDeclarations = c.blockDeclarations
  rootSites_eq : c'.rootDeclarations = c.rootDeclarations

instance calmRefl : Std.Refl Calm :=
  ⟨fun _ => ⟨le_rfl, fun _ _ => rfl, fun _ => rfl, fun _ => rfl, rfl, rfl⟩⟩

instance calmTrans : IsTrans Compilation Calm where
  trans _ _ _ h1 h2 := {
    size_le := le_trans h1.size_le h2.size_le
    outline_eq := fun s hs =>
      (h2.outline_eq s (lt_of_lt_of_le hs h1.size_le)).trans (h1.outline_eq s hs)
    references_eq := fun v => (h2.references_eq v).trans (h1.references_eq v)
    referenced_eq := fun s => (h2.referenced_eq s).trans (h1.referenced_eq s)
    sites_eq := h2.sites_eq.trans h1.sites_eq
    rootSites_eq := h2.rootSites_eq.trans h1.rootSites_eq }

theorem Calm.firm (h : Calm c c') (hN : N ≤ c.scopes.size) : Firm N c c' :=
  ⟨h.size_le, fun s hs _ => h.outline_eq s (lt_of_lt_of_le hs hN)⟩

theorem calm_declare (s : ScopeId) (name : String) (node : NodeId) :
    Calm c (declare s name node c).2 where
  size_le := le_of_eq (size_declare c s name node).symm
  outline_eq x _ := scope_field_declare c Scope.outline (fun _ _ => rfl) s name node x
  references_eq v := references_declare s name node v
  referenced_eq x := scope_field_declare c Scope.referenced (fun _ _ => rfl) s name node x
  sites_eq := rfl
  rootSites_eq := rfl

theorem calm_newScope (hs : s < c.scopes.size) (first : Option BlockRef) :
    Calm c (newScope (some s) first c).2 := by
  have hscope := scope_newScope c hs first
  refine ⟨by rw [size_newScope]; exact Nat.le_succ _, ?_, fun _ => rfl, ?_, rfl, rfl⟩
  · intro x hx
    rw [hscope, if_neg (ne_of_lt hx)]
    split
    · next h => rw [h]; rfl
    · rfl
  · intro x
    rw [hscope]
    split
    · next h => rw [h, scope_eq_default c le_rfl]
    · split
      · next h => rw [h]
      · rfl

theorem Adds.calm {raw : Prop} (h : Adds p N raw c c') : Calm c c' := by
  have hsame : ∀ {d d' : Compilation}, d'.scopes = d.scopes →
      (∀ v, (d'.binding v).references = (d.binding v).references) →
      d'.blockDeclarations = d.blockDeclarations → d'.rootDeclarations = d.rootDeclarations →
      Calm d d' := by
    intro d d' hscopes hreferences hsites hrootSites
    refine ⟨(congrArg Array.size hscopes).ge, fun x _ => ?_, hreferences, fun x => ?_, hsites,
      hrootSites⟩
    · unfold scope
      rw [hscopes]
    · unfold scope
      rw [hscopes]
  cases h with
  | graph g _ => exact hsame rfl (fun _ => rfl) rfl rfl
  | place b s _ => exact hsame rfl (fun _ => rfl) rfl rfl
  | newScope s first hs _ => exact calm_newScope hs first
  | atRoot name node _ _ _ => exact calm_declare rootScope name node
  | closed s name node f _ _ hf _ =>
    refine trans_of Calm (calm_declare s name node) ?_
    exact hsame rfl (binding_field _ Binding.references _ f hf.references_eq) rfl rfl

/-! ## Steps of the walk -/

/-- From a state in which uses are at home, a step leads to another such state and leaves the first
`N` scopes alone. -/
def Homeward (p : Program) (L : BlockRef → Bool) (N : Nat) (c c' : Compilation) : Prop :=
  Homed p L c → Homed p L c' ∧ Firm N c c'

instance homewardRefl (p : Program) (L : BlockRef → Bool) (N : Nat) : Std.Refl (Homeward p L N) :=
  ⟨fun c hc => ⟨hc, Std.Refl.refl c⟩⟩

instance homewardTrans (p : Program) (L : BlockRef → Bool) (N : Nat) :
    IsTrans Compilation (Homeward p L N) :=
  ⟨fun _ _ _ h1 h2 hc =>
    let ⟨hd, hcd⟩ := h1 hc
    let ⟨he, hde⟩ := h2 hd
    ⟨he, trans_of (Firm N) hcd hde⟩⟩

theorem Homeward.mono {M N : Nat} (h : Homeward p L N c c') (hMN : M ≤ N) : Homeward p L M c c' :=
  fun hc => ⟨(h hc).1, (h hc).2.mono hMN⟩

theorem Homed.of_steps (hc : Homed p L c) (hsteps : ScopeSteps c c')
    (hsites : c'.blockDeclarations = c.blockDeclarations)
    (hrootSites : c'.rootDeclarations = c.rootDeclarations)
    (huses : ∀ v r, r ∈ (c'.binding v).references →
      r < p.workspace.size ∧ ∃ t, v ∈ (c'.scope t).referenced ∧ Belongs p L c' t r) :
    Homed p L c' where
  toOrderly := hsteps.orderly hc.toOrderly
  live_eq := hsteps.isLive_eq.trans hc.live_eq
  uses := huses
  no_site := hsites.trans hc.no_site
  no_rootSite := hrootSites.trans hc.no_rootSite

theorem homeward_of_calm (hsteps : ScopeSteps c c') (hcalm : Calm c c') (hN : N ≤ c.scopes.size) :
    Homeward p L N c c' := by
  intro hc
  have htree : ScopeTree c' := hsteps.invariant (fun _ _ hstep => hstep.tree) hc.tree
  refine ⟨hc.of_steps hsteps hcalm.sites_eq hcalm.rootSites_eq fun v r hr => ?_, hcalm.firm hN⟩
  rw [hcalm.references_eq] at hr
  obtain ⟨hlt, t, hv, hbelongs⟩ := hc.uses v r hr
  refine ⟨hlt, t, by rw [hcalm.referenced_eq]; exact hv, ?_⟩
  exact hbelongs.firm hc.tree htree (hcalm.firm le_rfl) hbelongs.1

theorem Adding.homeward {raw : Prop} (h : Adding p N raw c c') : Homeward p L c.scopes.size c c' :=
  homeward_of_calm h.steps (h.along fun _ _ hstep => hstep.calm) le_rfl

/-- A use is noted where the block belongs. -/
theorem homeward_recordUse (hb : Belongs p L c s b) (hlt : b < p.workspace.size) (assigns : Bool)
    (v : BindingId) : Homeward p L N c (recordUse s b assigns v c) := by
  intro hc
  have houtline : ∀ t, ((recordUse s b assigns v c).scope t).outline = (c.scope t).outline :=
    scope_field_recordUse assigns Scope.outline fun _ _ _ => rfl
  have hfirm : ∀ M, Firm M c (recordUse s b assigns v c) :=
    fun _ => ⟨(size_updateScope _ _ _).ge, fun t _ _ => houtline t⟩
  have hsteps := steps_recordUse (c := c) s b assigns v
  have htree : ScopeTree (recordUse s b assigns v c) :=
    hsteps.invariant (fun _ _ hstep => hstep.tree) hc.tree
  have hreferenced := mem_referenced_recordUse (c := c) (b := b) (v := v) assigns hb.1
  have hold : ∀ {t w r}, w ∈ (c.scope t).referenced → Belongs p L c t r →
      ∃ t, w ∈ ((recordUse s b assigns v c).scope t).referenced ∧
        Belongs p L (recordUse s b assigns v c) t r :=
    fun hw hr => ⟨_, (hreferenced _ _).mpr (.inl hw), hr.firm hc.tree htree (hfirm _) hr.1⟩
  refine ⟨hc.of_steps hsteps rfl rfl fun w r hr => ?_, hfirm N⟩
  rcases lt_or_ge v c.bindings.size with hv | hv
  · rcases (mem_references_recordUse assigns hv r w).mp hr with hr | ⟨rfl, rfl⟩
    · obtain ⟨hlt, t, hw, hbelongs⟩ := hc.uses w r hr
      exact ⟨hlt, hold hw hbelongs⟩
    · exact ⟨hlt, s, (hreferenced _ _).mpr (.inr ⟨rfl, rfl⟩), hb.firm hc.tree htree (hfirm _) hb.1⟩
  · have hsame : ((recordUse s b assigns v c).binding w).references = (c.binding w).references := by
      by_cases hw : w = v
      · rw [hw, binding_eq_default c hv]
        refine congrArg Binding.references (binding_eq_default _ ?_)
        exact (size_updateBinding c v _).trans_le hv
      · exact congrArg Binding.references (binding_updateBinding_ne c hw _)
    rw [hsame] at hr
    obtain ⟨hlt, t, hw, hbelongs⟩ := hc.uses w r hr
    exact ⟨hlt, hold hw hbelongs⟩

theorem Belongs.homeward (hb : Belongs p L c s x) (hc : Homed p L c)
    (h : Homeward p L c.scopes.size c c') : Belongs p L c' s x :=
  hb.firm hc.tree (h hc).1.tree (h hc).2 hb.1

theorem homeward_enter (hc : Homed p L c) (hb : Belongs p L c s b) (hlt : b < p.workspace.size) :
    Runs (Homeward p L c.scopes.size) (p.enter s b) c (fun _ _ => True) := by
  have henter := entered_enter (N := c.scopes.size) hc.toOrderly hb.1 b
  refine ⟨?_, trivial⟩
  generalize (p.enter s b c).2 = d at henter ⊢
  cases henter with
  | uses assigns _ hadd _ _ =>
    have hd := hadd.homeward (L := L)
    exact trans_of (Homeward p L c.scopes.size) hd
      (homeward_recordUse (hb.homeward hc hd) hlt assigns _)
  | apart _ hadd _ _ => exact hadd.homeward

/-- What is below a block belongs into the scope of its inputs. -/
theorem Opened.belongs {inner : ScopeId} (h : Opened p s b c inner c') (hL : L b = true)
    (hx : p.workspace.Under b x) (houter : Belongs p L c' s x) : Belongs p L c' inner x := by
  cases h with
  | same => exact houter
  | new hown hlt hinner _ _ =>
    obtain ⟨declared, hinner⟩ := hinner
    refine ⟨hlt, fun o ho hos => ?_⟩
    rcases Relation.ReflTransGen.cases_head hos with rfl | ⟨q, hq, hoq⟩
    · exact ⟨b, by rw [hinner]; rfl, hx, hL, .inl hown⟩
    · rw [hinner] at hq
      cases hq
      exact houter.2 o ho hoq

theorem homeward_openInputs (hc : Homed p L c) (hb : Belongs p L c s b) (hL : L b = true) :
    Runs (Homeward p L c.scopes.size) (p.openInputs s b) c
      (fun inner d => ∀ x, p.workspace.Under b x → Belongs p L d inner x) := by
  obtain ⟨hadd, hopened⟩ := adding_openInputs False hc.toOrderly hb.1 b
  have hd := hadd.homeward (L := L)
  exact ⟨hd, fun x hx => hopened.belongs hL hx ((hb.homeward hc hd).under hx)⟩

/-! ## Statements of a scope -/

theorem parent_addStatement (c : Compilation) (s : ScopeId) (b : BlockRef) (x : ScopeId) :
    ((c.addStatement s b).scope x).parent = (c.scope x).parent :=
  scope_field c Scope.parent s (fun y => { y with statements := y.statements ++ [b] })
    (fun _ => rfl) x

theorem statements_addStatement (hs : s < c.scopes.size) :
    ((c.addStatement s b).scope s).statements = (c.scope s).statements ++ [b] := by
  unfold addStatement
  rw [scope_updateScope_self c hs]

theorem head_addStatement_ne (c : Compilation) (b : BlockRef) {x : ScopeId} (hx : x ≠ s) :
    scopeHead? ((c.addStatement s b).scope x) = scopeHead? (c.scope x) := by
  unfold addStatement
  rw [scope_updateScope_ne c hx]

/-- The first statement of a scope stays its head. -/
theorem head_addStatement (b : BlockRef) (hs : (c.scope s).statements ≠ []) (x : ScopeId) :
    scopeHead? ((c.addStatement s b).scope x) = scopeHead? (c.scope x) := by
  by_cases hx : x = s
  · subst hx
    by_cases hlt : x < c.scopes.size
    · unfold addStatement scopeHead?
      rw [scope_updateScope_self c hlt]
      dsimp only
      rw [head?_append_of_ne_nil _ hs]
    · exact absurd (by rw [scope_eq_default c (Nat.le_of_not_lt hlt)]) hs
  · exact head_addStatement_ne c b hx

/-- A statement may be added to a scope that has statements, or to one in which no use has been
noted yet. -/
theorem homeward_addStatement (b : BlockRef) (hN : s = rootScope ∨ N ≤ s)
    (hs : s = rootScope ∨ (c.scope s).statements ≠ [] ∨
      ∀ t, s ≤ t → (c.scope t).referenced = []) : Homeward p L N c (c.addStatement s b) := by
  intro hc
  have hsteps := (step_addStatement c s b).single
  have htree : ScopeTree (c.addStatement s b) :=
    hsteps.invariant (fun _ _ hstep => hstep.tree) hc.tree
  have hreferenced : ∀ t, ((c.addStatement s b).scope t).referenced = (c.scope t).referenced :=
    scope_field c Scope.referenced s _ (fun _ => rfl)
  refine ⟨hc.of_steps hsteps rfl rfl ?_, (size_updateScope c s _).ge, ?_⟩
  · intro v r hr
    obtain ⟨hlt, t, hv, hbelongs⟩ := hc.uses v r hr
    refine ⟨hlt, t, by rw [hreferenced]; exact hv, ?_⟩
    refine hbelongs.congr htree (size_updateScope c s _).ge hbelongs.1
      (fun x _ => parent_addStatement c s b x) ?_
    intro o ho hot
    by_cases hos : o = s
    · subst hos
      rcases hs with hs | hs | hs
      · exact absurd hs ho
      · exact head_addStatement b hs o
      · rw [hs t (hot.le hc.tree)] at hv
        cases hv
    · exact head_addStatement_ne c b hos
  · intro x hx hroot
    have hne : x ≠ s := by
      rintro rfl
      rcases hN with hN | hN
      · exact hroot hN
      · exact absurd hx (Nat.not_lt_of_le hN)
    unfold addStatement
    rw [scope_updateScope_ne c hne]

/-- The statement that is added first becomes the head. -/
theorem belongs_addStatement (hc : ScopeTree c) (hs : s < c.scopes.size)
    (hempty : (c.scope s).statements = []) {q : ScopeId} (hq : (c.scope s).parent = some q)
    (hb : Heads p L b) (hx : p.workspace.Under b x) (houter : Belongs p L c q x) :
    Belongs p L (c.addStatement s b) s x := by
  have htree : ScopeTree (c.addStatement s b) := (step_addStatement c s b).tree hc
  refine ⟨hs.trans_le (size_updateScope c s _).ge, fun o ho hos => ?_⟩
  have hinside : Inside c o s :=
    inside_of_parent_eq htree (fun y _ => (parent_addStatement c s b y).symm) hos
      (Nat.lt_succ_self s)
  by_cases hne : o = s
  · subst hne
    refine ⟨b, ?_, hx, hb⟩
    unfold addStatement scopeHead?
    rw [scope_updateScope_self c hs, hempty]
    rfl
  · rw [head_addStatement_ne c b hne]
    rcases Relation.ReflTransGen.cases_head hinside with h | ⟨u, hu, hou⟩
    · exact absurd h.symm hne
    · rw [hq] at hu
      cases hu
      exact houter.2 o ho hou

/-! ## The walk -/

/-- A visit of a block that belongs into the scope. -/
def Strolls (p : Program) (L : BlockRef → Bool) (visit : BlockRef → ScopeId → TrackM Unit) : Prop :=
  ∀ b s c, b < p.workspace.size → Homed p L c → Belongs p L c s b →
    Runs (Homeward p L c.scopes.size) (visit b s) c (fun _ _ => True)

section Walk

variable {visit : BlockRef → ScopeId → TrackM Unit} (hvisit : Strolls p L visit)

theorem homeward_dead (hlive : ¬ p.isLive c b = true) :
    Runs (Homeward p L N) (p.visitStatement visit s b) c (fun _ e => e = c) := by
  unfold visitStatement
  refine .bind_get ?_
  rw [if_neg hlive]
  exact .pure _ rfl

include hvisit

/-- A live statement is added and visited. The scope then has statements, and what belonged into it
still does. -/
theorem homeward_link {l : List BlockRef} (hc : Homed p L c) (hlt : b < p.workspace.size)
    (hs : s < c.scopes.size) (hlive : p.isLive c b = true)
    (hadd : Homeward p L N c (c.addStatement s b)) (hN : N ≤ c.scopes.size)
    (hl : ∀ x ∈ b :: l, Belongs p L (c.addStatement s b) s x) :
    Runs (Homeward p L N) (p.visitStatement visit s b) c (fun _ e => Homed p L e ∧
      N ≤ e.scopes.size ∧ (∀ x ∈ l, Belongs p L e s x) ∧
      (s ≠ rootScope → (e.scope s).statements ≠ [])) := by
  have hsize : (c.addStatement s b).scopes.size = c.scopes.size := size_updateScope c s _
  have hd := (hadd hc).1
  have hrun := hvisit b s _ hlt hd (hl b (.head _))
  rw [hsize] at hrun
  unfold visitStatement
  refine .bind_get ?_
  rw [if_pos hlive]
  refine .bind_modify _ hadd ((hrun.widen fun e he => he.mono hN).imp fun _ e _ h => ?_)
  obtain ⟨he, hfirm⟩ := h.1 hd
  refine ⟨he, le_trans hN (hsize.symm.trans_le hfirm.size_le), fun x hx => ?_, fun hroot => ?_⟩
  · exact (hl x (.tail b hx)).firm hd.tree he.tree hfirm hs
  · rw [statements_of_outline (hfirm.outline_eq s hs hroot), statements_addStatement hs]
    exact append_ne_nil_of_right_ne_nil _ (cons_ne_nil b [])

/-- Statements after the first one of a scope. -/
theorem homeward_links (l : List BlockRef) (hc : Homed p L c) (hN : N ≤ c.scopes.size)
    (hl : ∀ x ∈ l, x < p.workspace.size ∧ Belongs p L c s x)
    (hs : s = rootScope ∨ N ≤ s ∧ (c.scope s).statements ≠ []) :
    Runs (Homeward p L N) (l.forM (p.visitStatement visit s)) c (fun _ _ => True) := by
  induction l generalizing c with
  | nil => exact .pure _ trivial
  | cons b r ih =>
    obtain ⟨hlt, hb⟩ := hl b (.head _)
    have hr : ∀ x ∈ r, x < p.workspace.size ∧ Belongs p L c s x :=
      fun x hx => hl x (.tail b hx)
    show Runs _ (p.visitStatement visit s b >>= fun _ => r.forM (p.visitStatement visit s)) c _
    by_cases hlive : p.isLive c b = true
    · have hadd : Homeward p L N c (c.addStatement s b) :=
        homeward_addStatement b (hs.imp_right And.left) (hs.imp_right fun h => .inl h.2)
      have hbelongs : ∀ x ∈ b :: r, Belongs p L (c.addStatement s b) s x := by
        intro x hx
        have hxb := (hl x hx).2
        refine hxb.congr (hadd hc).1.tree (size_updateScope c s _).ge hxb.1
          (fun y _ => parent_addStatement c s b y) ?_
        intro o ho hos
        by_cases hne : o = s
        · exact head_addStatement b ((hs.resolve_left (hne ▸ ho)).2) o
        · exact head_addStatement_ne c b hne
      refine .bind (homeward_link hvisit hc hlt hb.1 hlive hadd hN hbelongs) ?_
      rintro _ e _ ⟨he, hNe, hre, hne⟩
      refine ih he hNe (fun x hx => ⟨(hr x hx).1, hre x hx⟩) ?_
      by_cases hroot : s = rootScope
      · exact .inl hroot
      · exact .inr ⟨(hs.resolve_left hroot).1, hne hroot⟩
    · refine .bind (homeward_dead hlive) ?_
      rintro _ _ _ rfl
      exact ih hc hN hr hs

/-- The statements of a new scope: with the first live one it gets its head. -/
theorem homeward_body (l : List BlockRef) (hc : Homed p L c) (hN : N ≤ s) (hs : s < c.scopes.size)
    (hempty : (c.scope s).statements = []) (hunused : ∀ t, s ≤ t → (c.scope t).referenced = [])
    {q : ScopeId} (hq : (c.scope s).parent = some q)
    (hl : ∀ x ∈ l, x < p.workspace.size ∧ p.IsStatement x ∧ Belongs p L c q x)
    (hchain : l.Pairwise p.workspace.Under) :
    Runs (Homeward p L N) (l.forM (p.visitStatement visit s)) c (fun _ _ => True) := by
  induction l with
  | nil => exact .pure _ trivial
  | cons b r ih =>
    obtain ⟨hlt, hstatement, _⟩ := hl b (.head _)
    obtain ⟨hbr, hchain⟩ := pairwise_cons.mp hchain
    have hr : ∀ x ∈ r, x < p.workspace.size ∧ p.IsStatement x ∧ Belongs p L c q x :=
      fun x hx => hl x (.tail b hx)
    show Runs _ (p.visitStatement visit s b >>= fun _ => r.forM (p.visitStatement visit s)) c _
    by_cases hlive : p.isLive c b = true
    · have hadd : Homeward p L N c (c.addStatement s b) :=
        homeward_addStatement b (.inr hN) (.inr (.inr hunused))
      have hheads : Heads p L b := ⟨hc.live_eq ▸ hlive, .inr hstatement⟩
      have hbelongs : ∀ x ∈ b :: r, Belongs p L (c.addStatement s b) s x := by
        intro x hx
        refine belongs_addStatement hc.tree hs hempty hq hheads ?_ (hl x hx).2.2
        rcases mem_cons.mp hx with rfl | hx
        · exact .refl
        · exact hbr x hx
      have hle := le_trans hN (le_of_lt hs)
      refine .bind (homeward_link hvisit hc hlt hs hlive hadd hle hbelongs) ?_
      rintro _ e _ ⟨he, hNe, hre, hne⟩
      exact homeward_links hvisit r he hNe (fun x hx => ⟨(hr x hx).1, hre x hx⟩)
        (.inr ⟨hN, hne (hc.tree.ne_root hq)⟩)
    · refine .bind (homeward_dead hlive) ?_
      rintro _ _ _ rfl
      exact ih hr hchain

end Walk

section Forest

variable (hws : p.workspace.Sound)

include hws

/-- Every statement of a chain is below those in front of it. -/
theorem pairwise_chain {t : BlockRef} (ht : t < p.workspace.size) :
    (p.workspace.chain (some t)).Pairwise p.workspace.Under := by
  induction t, ht using children_induction hws with
  | step t ht ih =>
    rw [chain_some hws ht]
    refine pairwise_cons.mpr ⟨fun x hx => under_of_mem_chain hws ht ?_, ?_⟩
    · rw [chain_some hws ht]
      exact .tail t hx
    · cases hnext : (p.workspace.block t).next with
      | none =>
        rw [chain_none]
        exact List.Pairwise.nil
      | some n => exact ih n (next_mem_children hnext)

theorem homeward_visitInput {visit : BlockRef → ScopeId → TrackM Unit} (hvisit : Strolls p L visit)
    (hc : Homed p L c) (hN : N ≤ c.scopes.size) {i : Input} (hi : i ∈ (p.block b).inputs)
    (hs : ∀ x, p.workspace.Under b x → Belongs p L c s x) :
    Runs (Homeward p L N) (p.visitInput visit s i) c (fun _ _ => True) := by
  unfold visitInput
  split
  · exact .pure _ trivial
  · next t ht _ =>
    have hchild : t ∈ p.workspace.children b :=
      mem_append_left _ (mem_targets hi ht)
    have hrun := hvisit t s c (hws.child_lt b t hchild) hc
      (hs t (under_of_child hws.toIsForest hchild))
    exact hrun.mono fun d hd => hd.mono hN
  · next t ht hkind =>
    have hchild : t ∈ p.workspace.children b :=
      mem_append_left _ (mem_targets hi ht)
    have hlt := hws.child_lt b t hchild
    have hb : Belongs p L c s b := hs b .refl
    have hcalm := calm_newScope (c := c) hb.1 (some t)
    have hnew : Runs (Homeward p L N) (newScope (some s) (some t)) c (fun child d =>
        child = c.scopes.size ∧ d = (newScope (some s) (some t) c).2) :=
      ⟨homeward_of_calm (ScopeStep.newScope c s (some t) hb.1).single hcalm hN, rfl, rfl⟩
    refine .bind hnew ?_
    rintro child d hd ⟨rfl, rfl⟩
    have hscope : (newScope (some s) (some t) c).2.scope c.scopes.size =
        { parent := some s, first := some t } := by
      rw [scope_newScope c hb.1, if_pos rfl]
    have hsize := size_newScope c s (some t)
    have hparent : ((newScope (some s) (some t) c).2.scope c.scopes.size).parent =
        some s := by rw [hscope]
    refine homeward_body hvisit (p.workspace.chain (some t)) (hd hc).1 hN ?_ ?_ ?_ hparent ?_
      (pairwise_chain hws hlt)
    · rw [hsize]
      exact Nat.lt_succ_self _
    · rw [hscope]
    · intro u hu
      rw [hcalm.referenced_eq, scope_eq_default c hu]
    · intro x hx
      have hunder := under_of_mem_chain hws hlt hx
      refine ⟨hunder.lt hws hlt, ⟨b, i, hi, hkind, t, ht, hx⟩, ?_⟩
      have hbx := (under_of_child hws.toIsForest hchild).trans hunder
      exact (hs x hbx).firm hc.tree (hd hc).1.tree (hcalm.firm le_rfl) hb.1

theorem homeward_visitLive {visit : BlockRef → ScopeId → TrackM Unit} (hvisit : Strolls p L visit)
    (hlt : b < p.workspace.size) (hc : Homed p L c) (hb : Belongs p L c s b) (hL : L b = true) :
    Runs (Homeward p L c.scopes.size) (p.visitLive visit b s) c (fun _ _ => True) := by
  rw [visitLive_eq]
  refine .bind (homeward_enter hc hb hlt) ?_
  intro _ d hd _
  obtain ⟨hdh, hcd⟩ := hd hc
  have hopen := homeward_openInputs hdh (hb.homeward hc hd) hL
  refine .bind (hopen.mono fun e he => he.mono hcd.size_le) ?_
  intro inner e he hinner
  obtain ⟨heh, hde⟩ := he hdh
  -- the inputs leave the scope they are in alone, which may be new
  have hinputs : Runs (Homeward p L e.scopes.size)
      ((p.block b).inputs.forM (p.visitInput visit inner)) e (fun _ _ => True) := by
    refine Runs.loop (I := fun f => Homed p L f ∧ e.scopes.size ≤ f.scopes.size ∧
      ∀ x, p.workspace.Under b x → Belongs p L f inner x) ?_ _ ?_ ⟨heh, le_rfl, hinner⟩
    · rintro f f' ⟨hf, hsize, hbelongs⟩ h
      obtain ⟨hf', hfirm⟩ := h hf
      refine ⟨hf', le_trans hsize hfirm.size_le, fun x hx => ?_⟩
      exact (hbelongs x hx).firm hf.tree hf'.tree hfirm (hinner x hx).1
    · rintro i hi f ⟨hf, hsize, hbelongs⟩
      exact homeward_visitInput hws hvisit hf hsize hi hbelongs
  exact hinputs.mono fun f hf => hf.mono (le_trans hcd.size_le hde.size_le)

theorem strolls_visitFrom (fuel : Nat) : Strolls p L (p.visitFrom fuel) := by
  induction fuel with
  | zero => exact fun b s c _ _ _ => .pure _ trivial
  | succ n ih =>
    intro b s c hlt hc hb
    unfold visitFrom
    refine .bind_get ?_
    split
    · next hlive => exact homeward_visitLive hws ih hlt hc hb (hc.live_eq ▸ hlive)
    · exact .pure _ trivial

theorem homeward_rootChain {t : BlockRef} (ht : t < p.workspace.size) (hc : Homed p L c) :
    Runs (Homeward p L 0) (p.visitChain p.visit t rootScope) c (fun _ _ => True) := by
  refine homeward_links (strolls_visitFrom hws _) _ hc (Nat.zero_le _) ?_ (.inl rfl)
  intro x hx
  exact ⟨(under_of_mem_chain hws ht hx).lt hws ht, belongs_root hc.tree x⟩

theorem homeward_visitTop (hb : b < p.workspace.size) (hc : Homed p L c) :
    Runs (Homeward p L 0) (p.visitTop b) c (fun _ _ => True) := by
  have hroot := belongs_root (p := p) (L := L) hc.tree b
  unfold visitTop
  split
  · have hadd : Adds p 0 False c { c with blockScope := c.blockScope.insert b rootScope } :=
      .place c b rootScope hroot.1
    have hplace := hadd.adding.homeward (L := L).mono (Nat.zero_le _)
    refine .bind_modify _ hplace ?_
    refine Runs.loop (fun _ _ hd h => (h hd).1) _ ?_ (hplace hc).1
    intro t ht d hd
    obtain ⟨i, hi, hit⟩ := mem_filterMap.mp ht
    have hchild : t ∈ p.workspace.children b :=
      mem_append_left _ (mem_targets (mem_filter.mp hi).1 hit)
    exact homeward_rootChain hws (hws.child_lt b t hchild) hd
  · split
    · exact (strolls_visitFrom hws _ b rootScope c hb hc hroot).mono fun d hd =>
        hd.mono (Nat.zero_le _)
    · exact homeward_rootChain hws hb hc

/-- After the walk, every use of a variable is noted where it belongs. -/
theorem visitAll_homed (disabled : List BlockRef) (taken : List String)
    (hL : p.isLive (fresh disabled taken) = L) :
    Homed p L (p.visitAll (fresh disabled taken)).2 := by
  have hstart : Homed p L (fresh disabled taken) :=
    ⟨fresh_orderly disabled taken p, hL, fun _ _ h => (by cases h), rfl, rfl⟩
  have hvars : Runs (Homeward p L 0) (p.workspace.vars.forM p.declareVariable)
      (fresh disabled taken) (fun _ _ => True) := by
    refine Runs.loop (fun _ _ hd h => (h hd).1) _ ?_ hstart
    intro v hv d hd
    have hadd := (adding_declareVariable d.scopes.size False hv hd.toOrderly).1
    exact ⟨hadd.homeward.mono (Nat.zero_le _), trivial⟩
  have hall : Runs (Homeward p L 0) p.visitAll (fresh disabled taken) (fun _ _ => True) := by
    refine .bind hvars ?_
    intro _ d hd _
    refine .bind_get ?_
    refine Runs.loop (fun _ _ hd h => (h hd).1) _ ?_ (hd hstart).1
    intro b hb e he
    have htop := (mem_visitOrder.mp hb).1
    exact homeward_visitTop hws (mem_range.mp (mem_filter.mp htop).1) he
  exact (hall.1 hstart).1

end Forest

end BlockProgram
