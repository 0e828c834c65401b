import BlockProgram.Proofs.Scope.Additions
import BlockProgram.Proofs.Workspace.Traversal

/-!
# The walk over a program

An invariant of scope tracking holds at the end of the walk over the blocks if each of the few
things that the walk does keeps it (`WalkInvariant`, `visitAll_invariant`). In a forest the walk
comes to no block twice, so what it does to a block may rely on the block being new.

The walk places every live block that it can come to: the live statements of a loose chain, start
blocks and containers, and below a placed block what is plugged into its inputs, a value or the live
statements of a chain (`runs_visitAll`).

With the walk, scope tracking as a whole is a sequence of small steps (`steps_track_fresh`).
-/

namespace BlockProgram

open Compilation Workspace List Program

variable {p : Program} {s : ScopeId} {b x : BlockRef} {A B : Prop} {V W : BlockRef → Prop}
  {L : BlockRef → Bool} {n : Nat} {c c' : Compilation} {visit : BlockRef → ScopeId → TrackM Unit}

/-! ## What the walk does -/

def Compilation.addStatement (c : Compilation) (s : ScopeId) (b : BlockRef) : Compilation :=
  c.updateScope s fun x => { x with statements := x.statements ++ [b] }

/-- What the walk does at one statement of a chain. -/
def Program.visitStatement (p : Program) (visit : BlockRef → ScopeId → TrackM Unit)
    (scope : ScopeId) (b : BlockRef) : TrackM Unit := do
  if p.isLive (← get) b then do
    modify (·.updateScope scope fun s => { s with statements := s.statements ++ [b] })
    visit b scope
  else pure ()

theorem visitLive_eq (p : Program) (visit : BlockRef → ScopeId → TrackM Unit) (b : BlockRef)
    (s : ScopeId) :
    p.visitLive visit b s = (do
      p.enter s b
      let inner ← p.openInputs s b
      (p.block b).inputs.forM (p.visitInput visit inner)) :=
  rfl

theorem step_addStatement (c : Compilation) (s : ScopeId) (b : BlockRef) :
    ScopeStep c (c.addStatement s b) := by
  refine ScopeStep.scope c s _ ?_ ?_ ?_
  all_goals exact fun _ => rfl

theorem ScopeSteps.isLive_eq (h : ScopeSteps c c') : p.isLive c' = p.isLive c := by
  refine funext (p.isLive_congr (h.invariant (J := fun d => d.disabled = c.disabled) ?_ rfl))
  intro d d' hstep hd
  cases hstep <;> exact hd

/-- A property that everything the walk does keeps. In a forest, a block that the walk comes to has
not been placed before. -/
structure WalkInvariant (p : Program) (J : Compilation → Prop) : Prop where
  orderly : ∀ c, J c → Orderly p c
  block : ∀ b s c d inner c', J c → s < c.scopes.size →
    (p.workspace.IsForest → c.blockScope.get? b = none) → Entered p c.scopes.size s b c d →
    Adding p d.scopes.size False d c' → Opened p s b d inner c' → J c'
  addStatement : ∀ b s c, J c → J (c.addStatement s b)
  start : ∀ b c, J c → p.kind b = .onStart → rootScope < c.scopes.size →
    (p.workspace.IsForest → c.blockScope.get? b = none) → J (Program.place b rootScope c).2
  add : ∀ c c', J c → Adding p c.scopes.size False c c' → c'.blockScope = c.blockScope → J c'

/-! ## Placing blocks -/

/-- A start block at the top of a tree, which has statements only. -/
def Program.IsTopStart (p : Program) (b : BlockRef) : Prop :=
  p.kind b = .onStart ∧ p.workspace.parent? b = none

/-- The live blocks plugged into the inputs of a block are placed. -/
def Covered (p : Program) (L : BlockRef → Bool) (c : Compilation) (b : BlockRef) : Prop :=
  ∀ i ∈ (p.block b).inputs, ∀ t, i.target = some t → ∀ x ∈ p.workspace.chain (some t),
    i.kind = .statement ∨ x = t ∧ ¬p.IsTopStart b → L x = true → c.blockScope.contains x = true

theorem Covered.mono (h : Covered p L c b)
    (hplaced : ∀ x, c.blockScope.contains x = true → c'.blockScope.contains x = true) :
    Covered p L c' b :=
  fun i hi t ht x hx hkind hL => hplaced x (h i hi t ht x hx hkind hL)

/-- Scopes and placed blocks stay, and in a forest only the blocks of `V` are placed anew. If the
walk goes deep enough (`A`), they are covered. -/
structure Places (p : Program) (A : Prop) (V : BlockRef → Prop) (c c' : Compilation) : Prop where
  size_le : c.scopes.size ≤ c'.scopes.size
  live_eq : p.isLive c' = p.isLive c
  placed_eq : p.workspace.IsForest → ∀ x, ¬ V x → c'.blockScope.get? x = c.blockScope.get? x
  placed : ∀ x, c.blockScope.contains x = true → c'.blockScope.contains x = true
  covered : A → ∀ x, c'.blockScope.contains x = true →
    c.blockScope.contains x = true ∨ Covered p (p.isLive c') c' x

theorem ScopeSteps.places (h : ScopeSteps c c') (hscope : c'.blockScope = c.blockScope) :
    Places p A V c c' := by
  refine ⟨h.size_le, h.isLive_eq, fun _ x _ => ?_, fun x hx => ?_, fun _ x hx => .inl ?_⟩
  · rw [hscope]
  · rwa [hscope]
  · rwa [hscope] at hx

instance placesRefl (p : Program) (A : Prop) (V : BlockRef → Prop) : Std.Refl (Places p A V) :=
  ⟨fun _ => ScopeSteps.places .refl rfl⟩

instance placesTrans (p : Program) (A : Prop) (V : BlockRef → Prop) :
    IsTrans Compilation (Places p A V) := by
  refine ⟨fun c d e h1 h2 => ⟨le_trans h1.size_le h2.size_le, h2.live_eq.trans h1.live_eq,
    fun hws x hx => (h2.placed_eq hws x hx).trans (h1.placed_eq hws x hx),
    fun x hx => h2.placed x (h1.placed x hx), fun hA x hx => ?_⟩⟩
  rcases h2.covered hA x hx with hx | hx
  · rw [h2.live_eq]
    exact (h1.covered hA x hx).imp_right fun h => h.mono h2.placed
  · exact .inr hx

theorem Places.mono (h : Places p A V c c') (hBA : B → A)
    (hVW : p.workspace.IsForest → ∀ x, V x → W x) : Places p B W c c' :=
  ⟨h.size_le, h.live_eq, fun hws x hx => h.placed_eq hws x (fun hv => hx (hVW hws x hv)), h.placed,
    fun hB => h.covered (hBA hB)⟩

/-- In a forest, no block of `V` is placed. -/
def Unplaced (p : Program) (V : BlockRef → Prop) (c : Compilation) : Prop :=
  p.workspace.IsForest → ∀ x, V x → c.blockScope.get? x = none

theorem Unplaced.mono (h : Unplaced p V c) (hVW : p.workspace.IsForest → ∀ x, W x → V x) :
    Unplaced p W c :=
  fun hws x hx => h hws x (hVW hws x hx)

/-- Blocks that a step does not place stay unplaced. -/
theorem Unplaced.after (h : Unplaced p W c) (hc : Places p A V c c')
    (hVW : p.workspace.IsForest → ∀ x, W x → ¬ V x) : Unplaced p W c' := by
  intro hws x hx
  rw [hc.placed_eq hws x (hVW hws x hx)]
  exact h hws x hx

/-- If the walk goes deep enough and the block is live, it is placed. -/
def Comes (p : Program) (A : Prop) (c : Compilation) (b : BlockRef) : Prop :=
  A → p.isLive c b = true → c.blockScope.contains b = true

theorem Comes.after (h : Comes p A c b) (hc : Places p B V c c') : Comes p A c' b :=
  fun hA hlive => hc.placed b (h hA (hc.live_eq ▸ hlive))

/-- Only the one block is placed anew, and it is. -/
structure Seats (p : Program) (b : BlockRef) (c c' : Compilation) : Prop where
  steps : ScopeSteps c c'
  placed_eq : ∀ x, x ≠ b → c'.blockScope.get? x = c.blockScope.get? x
  placed : c'.blockScope.contains b = true

/-- A block that is placed first is covered if what follows covers it. -/
theorem Runs.seat {α β : Type} {m : TrackM α} {f : α → TrackM β} {Q : α → Compilation → Prop}
    {T : β → Compilation → Prop} (h : Runs (Seats p b) m c Q)
    (hf : ∀ a d, Seats p b c d → Q a d → Runs (Places p A V) (f a) d fun y c' =>
      T y c' ∧ (A → Covered p (p.isLive c') c' b)) :
    Runs (Places p A fun x => x = b ∨ V x) (m >>= f) c fun y c' =>
      T y c' ∧ c'.blockScope.contains b = true := by
  obtain ⟨hseats, hQ⟩ := h
  obtain ⟨hplaces, hT, hb⟩ := hf _ _ hseats hQ
  have hcontains : ∀ x, x ≠ b →
      (m c).2.blockScope.contains x = c.blockScope.contains x := by
    intro x hx
    unfold Table.contains
    rw [hseats.placed_eq x hx]
  refine ⟨⟨le_trans hseats.steps.size_le hplaces.size_le,
    hplaces.live_eq.trans hseats.steps.isLive_eq, fun hws x hx => ?_, fun x hx => ?_,
    fun hA x hx => ?_⟩, hT, hplaces.placed b hseats.placed⟩
  · rw [not_or] at hx
    exact (hplaces.placed_eq hws x hx.2).trans (hseats.placed_eq x hx.1)
  · refine hplaces.placed x ?_
    by_cases hxb : x = b
    · exact hxb ▸ hseats.placed
    · rwa [hcontains x hxb]
  · by_cases hxb : x = b
    · exact .inr (hxb ▸ hb hA)
    · exact (hplaces.covered hA x hx).imp_left fun h => by rwa [hcontains x hxb] at h

/-! ## How deep the walk goes -/

/-- A walk that goes down `n` blocks comes to everything below the block. -/
structure Deep (p : Program) (n : Nat) (b : BlockRef) : Prop where
  sound : p.workspace.Sound
  lt : b < p.workspace.size
  reach_le : p.workspace.reach b ≤ n

theorem Deep.next (h : Deep p n b) (hx : (p.workspace.block b).next = some x) : Deep p n x :=
  have hunder := under_of_next h.sound.toIsForest hx
  ⟨h.sound, hunder.lt h.sound h.lt, le_trans hunder.reach_le h.reach_le⟩

theorem Deep.target (h : Deep p (n + 1) b) (hx : x ∈ (p.block b).targets) : Deep p n x := by
  have hchild : x ∈ p.workspace.children b := mem_append_left _ hx
  have hlt := reach_lt h.sound hchild
  have hle := h.reach_le
  exact ⟨h.sound, h.sound.child_lt b x hchild, by omega⟩

theorem deep_size (hws : p.workspace.Sound) (hb : b < p.workspace.size) :
    Deep p p.workspace.size b :=
  ⟨hws, hb, reach_le b⟩

/-! ## The walk -/

section Walk

variable {J : Compilation → Prop} (hJ : WalkInvariant p J)

/-- A visit of a block: it keeps the invariant, places only what is within the block, and comes to
it. -/
def Visits (p : Program) (J : Compilation → Prop) (n : Nat)
    (visit : BlockRef → ScopeId → TrackM Unit) : Prop :=
  ∀ b s c, J c → s < c.scopes.size → Unplaced p (p.workspace.Within b) c →
    Runs (Places p (Deep p n b) (p.workspace.Within b)) (visit b s) c
      (fun _ c' => J c' ∧ Comes p (Deep p n b) c' b)

include hJ

theorem runs_block (hc : J c) (hs : s < c.scopes.size)
    (hfresh : p.workspace.IsForest → c.blockScope.get? b = none) :
    Runs (Seats p b) (do p.enter s b; p.openInputs s b) c
      (fun inner c' => J c' ∧ inner < c'.scopes.size) := by
  have horderly := hJ.orderly c hc
  have henter := entered_enter (N := c.scopes.size) horderly hs b
  have hs1 := lt_of_lt_of_le hs henter.steps.size_le
  obtain ⟨hadd, hopened⟩ := adding_openInputs False (henter.steps.orderly horderly) hs1 b
  refine ⟨⟨henter.steps.trans hadd.steps, fun x hx => ?_, ?_⟩,
    hJ.block b s c _ _ _ hc hs hfresh henter hadd hopened, hopened.lt hs1 hadd.steps⟩
  · refine (hopened.placed_eq hx).trans ?_
    rw [henter.blockScope_eq, Table.get?_insert_ne _ _ hx]
  · refine hopened.contains ?_
    rw [henter.blockScope_eq, Table.get?_insert_self]

theorem runs_chainFrom (hvisit : Visits p J n visit) (fuel : Nat) (o : Option BlockRef)
    (s : ScopeId) (hc : J c) (hs : s < c.scopes.size)
    (hfresh : Unplaced p (fun x => ∃ b, o = some b ∧ p.workspace.Under b x) c) :
    Runs (Places p (∀ b, o = some b → Deep p n b) fun x => ∃ b, o = some b ∧ p.workspace.Under b x)
      ((p.workspace.chainFrom fuel o).forM (p.visitStatement visit s)) c (fun _ c' => J c' ∧
        ∀ x ∈ p.workspace.chainFrom fuel o, Comes p (∀ b, o = some b → Deep p n b) c' x) := by
  induction fuel generalizing o c with
  | zero => exact .pure _ ⟨hc, nofun⟩
  | succ fuel ih =>
    cases o with
    | none => exact .pure _ ⟨hc, nofun⟩
    | some b =>
      -- the statement itself, then its followers, which are not within it
      have hhead : Runs (Places p (Deep p n b) (p.workspace.Within b)) (p.visitStatement visit s b)
          c (fun _ c' => J c' ∧ Comes p (Deep p n b) c' b) := by
        refine .bind_get ?_
        split
        · refine .bind_modify _ ((step_addStatement c s b).single.places rfl) ?_
          refine hvisit b s (c.addStatement s b) (hJ.addStatement b s c hc) ?_ ?_
          · exact lt_of_lt_of_le hs (step_addStatement c s b).single.size_le
          · exact hfresh.mono fun hws x hx => ⟨b, rfl, hx.under hws⟩
        · next hlive => exact .pure _ ⟨hc, fun _ h => absurd h hlive⟩
      show Runs _
        (_ >>= fun _ => (p.workspace.chainFrom fuel (p.workspace.block b).next).forM _) c _
      refine .bind (hhead.widen fun _ h => h.mono (fun hA => hA b rfl)
        fun hws x hx => ⟨b, rfl, hx.under hws⟩) ?_
      rintro _ c1 _ ⟨hplaces, hc1, hcomes⟩
      have hs1 := lt_of_lt_of_le hs hplaces.size_le
      have hdeep : (∀ a, some b = some a → Deep p n a) →
          ∀ a, (p.workspace.block b).next = some a → Deep p n a := fun hA _ => (hA b rfl).next
      have hnext : p.workspace.IsForest → ∀ x,
          (∃ n, (p.workspace.block b).next = some n ∧ p.workspace.Under n x) →
          p.workspace.Under b x := by
        rintro hws x ⟨n, hn, hx⟩
        exact (under_of_next hws hn).trans hx
      refine ((ih (p.workspace.block b).next hc1 hs1 ?_).imp fun _ c2 hrest h => ⟨h.1, ?_⟩).mono ?_
      · refine Unplaced.after (hfresh.mono fun hws x hx => ⟨b, rfl, hnext hws x hx⟩) hplaces ?_
        rintro hws x ⟨n, hn, hx⟩
        exact not_within_of_next hws hn hx
      · exact fun _ h => h.mono hdeep fun hws x hx => ⟨b, rfl, hnext hws x hx⟩
      · refine forall_mem_cons.mpr ⟨fun hA => hcomes.after hrest (hA b rfl), fun x hx hA => ?_⟩
        exact h.2 x hx (hdeep hA)

theorem runs_visitChain (hvisit : Visits p J n visit) (first : BlockRef) (s : ScopeId)
    (hdeep : A → Deep p n first) (hc : J c) (hs : s < c.scopes.size)
    (hfresh : Unplaced p (p.workspace.Under first) c) :
    Runs (Places p A (p.workspace.Under first)) (p.visitChain visit first s) c (fun _ c' =>
      J c' ∧ ∀ x ∈ p.workspace.chain (some first), Comes p A c' x) := by
  have hdeep' : A → ∀ b, some first = some b → Deep p n b := by
    rintro hA b ⟨⟩
    exact hdeep hA
  have hunder : p.workspace.IsForest → ∀ x, (∃ b, some first = some b ∧ p.workspace.Under b x) →
      p.workspace.Under first x := by
    rintro _ x ⟨b, ⟨⟩, hx⟩
    exact hx
  refine ((runs_chainFrom hJ hvisit p.workspace.size (some first) s hc hs
    (hfresh.mono hunder)).imp fun _ _ _ h => ⟨h.1, ?_⟩).mono fun _ h => h.mono hdeep' hunder
  exact fun x hx hA => h.2 x hx (hdeep' hA)

omit hJ in
/-- A loop whose rounds place different blocks. -/
theorem runs_rounds {α : Type} {f : α → TrackM Unit} {V T : α → BlockRef → Prop} (l : List α)
    (hf : ∀ a ∈ l, ∀ d, J d → s < d.scopes.size → Unplaced p (V a) d →
      Runs (Places p A (V a)) (f a) d (fun _ d' => J d' ∧ ∀ x, T a x → Comes p A d' x))
    (hapart : p.workspace.IsForest → l.Pairwise fun a a' => ∀ x, V a x → ¬ V a' x) (hc : J c)
    (hs : s < c.scopes.size) (hfresh : Unplaced p (fun x => ∃ a ∈ l, V a x) c) :
    Runs (Places p A fun x => ∃ a ∈ l, V a x) (l.forM f) c (fun _ c' =>
      J c' ∧ ∀ a ∈ l, ∀ x, T a x → Comes p A c' x) := by
  induction l generalizing c with
  | nil => exact .pure _ ⟨hc, nofun⟩
  | cons a r ih =>
    have hhead : ∀ x, V a x → ∃ a' ∈ a :: r, V a' x := fun x hx => ⟨a, .head _, hx⟩
    have htail : ∀ x, (∃ a' ∈ r, V a' x) → ∃ a' ∈ a :: r, V a' x := by
      rintro x ⟨a', ha', hx⟩
      exact ⟨a', .tail a ha', hx⟩
    show Runs _ (f a >>= fun _ => r.forM f) c _
    have hfirst := hf a (.head _) c hc hs (hfresh.mono fun _ => hhead)
    refine .bind (hfirst.widen fun _ h => h.mono id fun _ => hhead) ?_
    rintro _ c1 _ ⟨hplaces, hc1, hcomes⟩
    refine ((ih (fun x hx => hf x (.tail a hx))
      (fun hws => (pairwise_cons.mp (hapart hws)).2) hc1
      (lt_of_lt_of_le hs hplaces.size_le) ?_).imp fun _ _ hrest h => ⟨h.1, ?_⟩).mono
        fun _ h => h.mono id fun _ => htail
    · refine Unplaced.after (hfresh.mono fun _ => htail) hplaces ?_
      rintro hws x ⟨a', ha', hx'⟩ hx
      exact (pairwise_cons.mp (hapart hws)).1 a' ha' x hx hx'
    · exact forall_mem_cons.mpr ⟨fun x hx => (hcomes x hx).after hrest, h.2⟩

/-- The blocks of an input are its value or the statements of its chain. -/
def Program.Plugged (p : Program) (i : Input) (x : BlockRef) : Prop :=
  ∃ t, i.target = some t ∧ x ∈ p.workspace.chain (some t) ∧ (i.kind = .statement ∨ x = t)

theorem runs_visitInput (hvisit : Visits p J n visit) (s : ScopeId) (i : Input)
    (hdeep : A → ∀ t, i.target = some t → Deep p n t) (hc : J c) (hs : s < c.scopes.size)
    (hfresh : Unplaced p (fun x => ∃ t, i.target = some t ∧ p.workspace.Under t x) c) :
    Runs (Places p A fun x => ∃ t, i.target = some t ∧ p.workspace.Under t x)
      (p.visitInput visit s i) c (fun _ c' => J c' ∧ ∀ x, p.Plugged i x → Comes p A c' x) := by
  unfold visitInput
  split
  · next hnone =>
    refine .pure _ ⟨hc, ?_⟩
    rintro x ⟨t, ht, _⟩
    cases hnone.symm.trans ht
  · next t ht hkind =>
    have hwithin : p.workspace.IsForest → ∀ x, p.workspace.Within t x →
        ∃ t, i.target = some t ∧ p.workspace.Under t x := fun hws x hx => ⟨t, ht, hx.under hws⟩
    refine ((hvisit t s c hc hs (hfresh.mono hwithin)).imp fun _ _ _ h => ⟨h.1, ?_⟩).mono
      fun _ h => h.mono (fun hA => hdeep hA t ht) hwithin
    rintro x ⟨u, hu, _, hx⟩ hA
    cases ht.symm.trans hu
    rcases hx with hx | rfl
    · cases hkind.symm.trans hx
    · exact h.2 (hdeep hA x ht)
  · next t ht _ =>
    have hadd : Adds p c.scopes.size False c (newScope (some s) (some t) c).2 :=
      .newScope c s (some t) hs le_rfl
    have hnew : Runs (Places p A fun x => ∃ t, i.target = some t ∧ p.workspace.Under t x)
        (newScope (some s) (some t)) c
        (fun child c' => child < c'.scopes.size ∧ c'.blockScope = c.blockScope ∧ J c') := by
      refine ⟨hadd.steps.places rfl, ?_, rfl, hJ.add c _ hc hadd.adding rfl⟩
      rw [size_newScope]
      exact Nat.lt_succ_self _
    refine .bind hnew ?_
    rintro child c1 _ ⟨hchild, hscope, hc1⟩
    refine ((runs_visitChain hJ hvisit t child (fun hA => hdeep hA t ht) hc1 hchild ?_).imp
      fun _ _ _ h => ⟨h.1, ?_⟩).mono fun _ h => h.mono id fun _ x hx => ⟨t, ht, hx⟩
    · intro hws x hx
      rw [hscope]
      exact hfresh hws x ⟨t, ht, hx⟩
    · rintro x ⟨u, hu, hx, _⟩
      cases ht.symm.trans hu
      exact h.2 x hx

theorem runs_visitLive (hvisit : Visits p J n visit) : Visits p J (n + 1) (p.visitLive visit) := by
  intro b s c hc hs hfresh
  have htarget : ∀ i ∈ (p.block b).inputs, ∀ t, i.target = some t → t ∈ (p.block b).targets :=
    fun i hi t ht => mem_filterMap.mpr ⟨i, hi, ht⟩
  have hbelow : ∀ x, (∃ i ∈ (p.block b).inputs, ∃ t, i.target = some t ∧ p.workspace.Under t x) →
      p.workspace.Within b x := by
    rintro x ⟨i, hi, t, ht, hx⟩
    exact .inr ⟨t, htarget i hi t ht, hx⟩
  have hwithin : ∀ x, (x = b ∨ ∃ i ∈ (p.block b).inputs, ∃ t, i.target = some t ∧
      p.workspace.Under t x) → p.workspace.Within b x := fun x hx => hx.elim .inl (hbelow x)
  have hblock := runs_block hJ hc hs (fun hws => hfresh hws b (.inl rfl))
  show Runs _ ((do p.enter s b; p.openInputs s b) >>= fun inner =>
    (p.block b).inputs.forM (p.visitInput visit inner)) c _
  refine ((hblock.seat (A := Deep p (n + 1) b) (T := fun _ c' => J c')
    fun inner d hseats hd => ?_).imp fun _ _ _ h => ⟨h.1, fun _ _ => h.2⟩).mono
      fun _ h => h.mono id fun _ => hwithin
  refine (runs_rounds (p.block b).inputs (T := p.Plugged) (fun i hi e he hinner hu =>
    runs_visitInput hJ hvisit inner i (fun hA t ht => hA.target (htarget i hi t ht)) he hinner hu)
    ?_ hd.1 hd.2 ?_).imp fun _ _ _ h => ⟨h.1, fun hA i hi t ht x hx hkind => ?_⟩
  · intro hws
    refine (pairwise_filterMap.mp (pairwise_targets hws b)).imp ?_
    rintro i i' hii' x ⟨t, ht, hx⟩ ⟨t', ht', hx'⟩
    exact hii' t ht t' ht' x hx hx'
  · -- the block itself is not below its inputs
    intro hws x hx
    rw [hseats.placed_eq x ?_]
    · exact hfresh hws x (hbelow x hx)
    · rintro rfl
      obtain ⟨i, hi, t, ht, hx⟩ := hx
      have hparent := hws.parent_eq x t (mem_append_left _ (htarget i hi t ht))
      exact not_under_of_parent hws hparent hx
  · exact h.2 i hi x ⟨t, ht, hx, hkind.imp_right And.left⟩ hA

theorem visits_visitFrom (fuel : Nat) : Visits p J fuel (p.visitFrom fuel) := by
  induction fuel with
  | zero =>
    intro b s c hc _ _
    refine .pure _ ⟨hc, fun hA => ?_⟩
    exact absurd (reach_pos hA.lt) (Nat.not_lt_of_le hA.reach_le)
  | succ fuel ih =>
    intro b s c hc hs hfresh
    unfold visitFrom
    refine .bind_get ?_
    split
    · exact runs_visitLive hJ ih b s c hc hs hfresh
    · next hlive => exact .pure _ ⟨hc, fun _ h => absurd h hlive⟩

/-- The walk starts from the start blocks and containers at the top, and from the statements of any
other chain there. -/
def Program.Loose (p : Program) (b x : BlockRef) : Prop :=
  if p.kind b = .onStart ∨ p.isContainer b = true then x = b else x ∈ p.workspace.chain (some b)

theorem runs_start (hvisit : Visits p J n visit) (hdeep : A → Deep p (n + 1) b)
    (hk : p.kind b = .onStart) (htop : p.workspace.parent? b = none) (hc : J c)
    (hs : rootScope < c.scopes.size) (hfresh : Unplaced p (p.workspace.Under b) c) :
    Runs (Places p A (p.workspace.Under b)) (do
      place b rootScope
      ((p.block b).statementInputs.filterMap (·.target)).forM fun first =>
        p.visitChain visit first rootScope) c
      (fun _ c' => J c' ∧ c'.blockScope.contains b = true) := by
  have htargets : ∀ t ∈ (p.block b).statementInputs.filterMap (·.target),
      t ∈ (p.block b).targets :=
    fun t ht => List.Sublist.subset (List.Sublist.filterMap _ filter_sublist) ht
  have hunder : p.workspace.IsForest → ∀ x,
      (x = b ∨ ∃ t ∈ (p.block b).statementInputs.filterMap (·.target), p.workspace.Under t x) →
      p.workspace.Under b x := by
    rintro hws x (rfl | ⟨t, ht, hx⟩)
    · exact .refl
    · exact (under_of_child hws (mem_append_left _ (htargets t ht))).trans hx
  have hplace : Runs (Seats p b) (place b rootScope) c (fun _ c' => J c') := by
    have hadd : Adds p 0 True c (place b rootScope c).2 := .place c b rootScope hs
    refine ⟨⟨hadd.steps, fun x hx => Table.get?_insert_ne _ _ hx, ?_⟩,
      hJ.start b c hc hk hs (fun hws => hfresh hws b .refl)⟩
    exact Option.isSome_iff_exists.mpr ⟨_, Table.get?_insert_self _ _ _⟩
  refine (hplace.seat (A := A) (T := fun _ c' => J c') fun _ d hseats hd => ?_).mono
    fun _ h => h.mono id hunder
  refine (runs_rounds _ (T := fun t x => x ∈ p.workspace.chain (some t)) (fun t ht e he hroot hu =>
    runs_visitChain hJ hvisit t rootScope (fun hA => (hdeep hA).target (htargets t ht)) he hroot hu)
    ?_ hd (lt_of_lt_of_le hs hseats.steps.size_le) ?_).imp
      fun _ _ _ h => ⟨h.1, fun hA i hi t ht x hx hkind => ?_⟩
  · intro hws
    exact (pairwise_targets hws b).sublist (List.Sublist.filterMap _ filter_sublist)
  · intro hws x hx
    rw [hseats.placed_eq x ?_]
    · exact hfresh hws x (hunder hws x (.inr hx))
    · rintro rfl
      obtain ⟨t, ht, hx⟩ := hx
      have hparent := hws.parent_eq x t (mem_append_left _ (htargets t ht))
      exact not_under_of_parent hws hparent hx
  · rcases hkind with hkind | ⟨_, hnot⟩
    · refine h.2 t (mem_filterMap.mpr ⟨i, mem_filter.mpr ⟨hi, ?_⟩, ht⟩) x hx hA
      rw [hkind]
      rfl
    · exact absurd ⟨hk, htop⟩ hnot

theorem runs_visitTop (hlt : b < p.workspace.size) (htop : p.workspace.parent? b = none) (hc : J c)
    (hs : rootScope < c.scopes.size) (hfresh : Unplaced p (p.workspace.Under b) c) :
    Runs (Places p p.workspace.Sound (p.workspace.Under b)) (p.visitTop b) c (fun _ c' =>
      J c' ∧ ∀ x, p.Loose b x → Comes p p.workspace.Sound c' x) := by
  have hvisit : Visits p J p.workspace.size p.visit := visits_visitFrom hJ p.workspace.size
  have hdeep : p.workspace.Sound → Deep p p.workspace.size b := fun hws => deep_size hws hlt
  unfold visitTop Loose
  by_cases hk : p.kind b = .onStart
  · rw [if_pos hk]
    have hdeeper : p.workspace.Sound → Deep p (p.workspace.size + 1) b :=
      fun hws => ⟨hws, hlt, Nat.le_succ_of_le (reach_le b)⟩
    refine (runs_start hJ hvisit hdeeper hk htop hc hs hfresh).imp fun _ _ _ h => ⟨h.1, ?_⟩
    intro x hx _ _
    rw [if_pos (.inl hk)] at hx
    exact hx ▸ h.2
  · rw [if_neg hk]
    split
    · next hcontainer =>
      refine ((hvisit b rootScope c hc hs (hfresh.mono fun hws x hx => hx.under hws)).imp
        fun _ _ _ h => ⟨h.1, ?_⟩).mono fun _ h => h.mono hdeep fun hws x hx => hx.under hws
      intro x hx hws
      rw [if_pos (.inr hcontainer)] at hx
      exact hx ▸ h.2 (hdeep hws)
    · next hcontainer =>
      refine (runs_visitChain hJ hvisit b rootScope hdeep hc hs hfresh).imp
        fun _ _ _ h => ⟨h.1, fun x hx => h.2 x ?_⟩
      rwa [if_neg (not_or.mpr ⟨hk, hcontainer⟩)] at hx

omit hJ in
theorem nodup_visitOrder (p : Program) (c : Compilation) : (p.visitOrder c).Nodup := by
  have htops : (p.workspace.topBlocks.filter (p.isLive c)).Nodup :=
    (nodup_range.filter _).filter _
  unfold visitOrder
  extract_lets tops others
  have hothers : others.Nodup := htops.filter _
  have hsplit : (others.filter p.isContainer ++ others.filter fun b => !p.isContainer b).Nodup := by
    refine (hothers.filter _).append (hothers.filter _) ?_
    intro b hb hb'
    have h1 := (mem_filter.mp hb).2
    have h2 := (mem_filter.mp hb').2
    simp [h1] at h2
  rw [append_assoc]
  refine (htops.filter _).append hsplit ?_
  intro b hb hb'
  have hstart := (mem_filter.mp hb).2
  have hother : b ∈ others := by
    rcases mem_append.mp hb' with h | h
    · exact (mem_filter.mp h).1
    · exact (mem_filter.mp h).1
  have hnot := (mem_filter.mp hother).2
  simp only [decide_eq_true_eq] at hstart hnot
  exact hnot hstart

omit hJ in
theorem mem_visitOrder : b ∈ p.visitOrder c ↔ b ∈ p.workspace.topBlocks ∧ p.isLive c b = true := by
  unfold visitOrder
  simp only [mem_append, mem_filter, decide_eq_true_eq, Bool.not_eq_true']
  cases p.isContainer b <;> by_cases hk : p.kind b = .onStart <;> simp [hk]

omit hJ in
theorem parent_of_mem_visitOrder (hb : b ∈ p.visitOrder c) : p.workspace.parent? b = none :=
  Option.isNone_iff_eq_none.mp (mem_filter.mp (mem_visitOrder.mp hb).1).2

theorem runs_visitAll (hc : J c) (hs : rootScope < c.scopes.size)
    (hfresh : ∀ x, c.blockScope.get? x = none) :
    Runs (Places p p.workspace.Sound fun _ => True) p.visitAll c (fun _ c' => J c' ∧
      ∀ b ∈ p.workspace.topBlocks, p.isLive c' b = true → ∀ x, p.Loose b x →
        Comes p p.workspace.Sound c' x) := by
  have hvars := runs_rounds (p := p) (A := p.workspace.Sound) (V := fun _ _ => False)
    (T := fun _ _ => False) p.workspace.vars (f := p.declareVariable) (fun v hv d hd _ _ => ?_)
    (fun _ => pairwise_of_forall fun _ _ _ h _ => h) hc hs (fun _ _ _ => hfresh _)
  · refine .bind (hvars.widen fun _ h => h.mono id fun _ _ _ => trivial) ?_
    rintro _ c1 _ ⟨hplaces, hc1, _⟩
    refine .bind_get ?_
    refine ((runs_rounds (p.visitOrder c1) (V := p.workspace.Under) (T := p.Loose)
      (fun b hb d hd hroot hu => runs_visitTop hJ ?_ (parent_of_mem_visitOrder hb) hd hroot hu) ?_
      hc1 (lt_of_lt_of_le hs hplaces.size_le) ?_).imp fun _ _ hrest h => ⟨h.1, ?_⟩).mono
        fun _ h => h.mono id fun _ _ _ => trivial
    · exact mem_range.mp (mem_filter.mp (mem_visitOrder.mp hb).1).1
    · intro _
      refine List.Pairwise.imp_of_mem ?_ (nodup_visitOrder p c1)
      intro b b' hb hb' hne x hx hx'
      exact hne (eq_of_under_of_top (parent_of_mem_visitOrder hb)
        (parent_of_mem_visitOrder hb') hx hx')
    · intro hws x _
      rw [hplaces.placed_eq hws x (by rintro ⟨_, _, h⟩; exact h)]
      exact hfresh x
    · rw [hrest.live_eq]
      exact fun b hb hlive => h.2 b (mem_visitOrder.mpr ⟨hb, hlive⟩)
  · obtain ⟨hadd, hscope⟩ := adding_declareVariable d.scopes.size False hv (hJ.orderly d hd)
    exact ⟨hadd.steps.places hscope, hJ.add d _ hd hadd hscope, nofun⟩

/-- An invariant of the walk holds after it. -/
theorem visitAll_invariant (hc : J c) (hs : rootScope < c.scopes.size)
    (hfresh : ∀ x, c.blockScope.get? x = none) : J (p.visitAll c).2 :=
  (runs_visitAll hJ hc hs hfresh).2.1

end Walk

/-- What holds of orderly states throughout additions, uses and new statements is an invariant of
the walk. -/
theorem WalkInvariant.of_adds {J : Compilation → Prop}
    (hadd : ∀ c c', Orderly p c → Adds p 0 True c c' → J c → J c')
    (huse : ∀ s b assigns v c, Orderly p c → J c → J (recordUse s b assigns v c))
    (hstatement : ∀ b s c, Orderly p c → J c → J (c.addStatement s b)) :
    WalkInvariant p fun c => Orderly p c ∧ J c := by
  have hadding : ∀ {N raw c c'}, Orderly p c ∧ J c → Adding p N raw c c' →
      Orderly p c' ∧ J c' := fun hc h =>
    ⟨h.steps.orderly hc.1, (h.mono (Nat.zero_le _) fun _ => trivial).invariant hadd hc.1 hc.2⟩
  refine ⟨fun _ hc => hc.1, ?_, ?_, ?_, fun _ _ hc h _ => hadding hc h⟩
  · intro b s c d inner c' hc _ _ h hopen _
    refine hadding (c := d) ?_ hopen
    cases h with
    | uses assigns _ h _ _ =>
      obtain ⟨hd, hJd⟩ := hadding hc h
      exact ⟨(steps_recordUse s b assigns _).orderly hd, huse s b assigns _ _ hd hJd⟩
    | apart _ h _ _ => exact hadding hc h
  · intro b s c hc
    exact ⟨(step_addStatement c s b).single.orderly hc.1, hstatement b s c hc.1 hc.2⟩
  · intro b c hc _ hs _
    have hplace : Adds p 0 True c (place b rootScope c).2 := .place c b rootScope hs
    exact hadding hc hplace.adding

/-- The states of a walk are orderly, and such an invariant holds in them. -/
theorem WalkInvariant.visitAll_fresh {J : Compilation → Prop}
    (hJ : WalkInvariant p fun c => Orderly p c ∧ J c) (disabled : List BlockRef)
    (taken : List String) (hfresh : J (fresh disabled taken)) :
    J (p.visitAll (fresh disabled taken)).2 :=
  (visitAll_invariant hJ ⟨fresh_orderly disabled taken p, hfresh⟩
    (fresh_tree disabled taken).root_lt fun _ => rfl).2

/-! ## All of tracking -/

variable {p : Program} {c : Compilation}

theorem steps_visitAll (hc : Orderly p c) (hfresh : ∀ x, c.blockScope.get? x = none) :
    ScopeSteps c (p.visitAll c).2 := by
  have hwalk : WalkInvariant p fun d => Orderly p d ∧ ScopeSteps c d :=
    .of_adds (fun _ _ _ h hd => hd.trans h.steps)
      (fun s b assigns v _ _ hd => hd.trans (steps_recordUse s b assigns v))
      fun b s d _ hd => hd.tail (step_addStatement d s b)
  exact (visitAll_invariant hwalk ⟨hc, .refl⟩ hc.tree.root_lt hfresh).2

theorem steps_markAll (hc : Consistent p c) (ht : ScopeTree c) (hd : DeclaredOnce c)
    (hfresh : ∀ x, c.blockScope.get? x = none) :
    ScopeSteps c (p.markAll (p.visitAll c).2.narrowAll) := by
  have hvisit := steps_visitAll ⟨hc, ht, hd⟩ hfresh
  have horderly := hvisit.orderly ⟨hc, ht, hd⟩
  have hmark := notes_markAll (p := p) (p.visitAll c).2.narrowAll
  exact (hvisit.trans (steps_narrowAll horderly.tree horderly.once)).trans hmark.steps

theorem steps_track_fresh (disabled : List BlockRef) (taken : List String) (p : Program) :
    ScopeSteps (fresh disabled taken) (p.track (fresh disabled taken)).2 := by
  rw [track_eq]
  exact (steps_markAll (fresh_consistent disabled taken p) (fresh_tree disabled taken)
    (fresh_declaredOnce disabled taken) fun _ => rfl).trans (notes_nameAll _).steps

end BlockProgram
