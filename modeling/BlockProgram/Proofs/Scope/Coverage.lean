import BlockProgram.Proofs.Scope.Anchored

/-!
# What tracking leaves

After the walk, a placed block finds every name that it looks up later on (`namesAt`), and
with what the walk places (`runs_visitAll`) that is what tracking leaves (`Tracked`).
-/

namespace BlockProgram

open Compilation Program

/-- The names that a block looks up: of the variable that it reads or writes, and of those that it
declares for its own inputs. -/
def Program.namesAt (p : Program) (b : BlockRef) : List String :=
  (p.block b).usedName?.toList ++ p.ownNames (p.block b)

variable {p : Program} {L : BlockRef → Bool} {c c' : Compilation} {s : ScopeId} {b : BlockRef}

/-- What holds of every placed block: that is an invariant of the walk if it lasts and the blocks
that the walk comes to have it. -/
theorem walkInvariant_placed {K : Compilation → BlockRef → ScopeId → Prop}
    (hgrows : ∀ c c' b s, Grows c c' → K c b s → K c' b s)
    (hblock : ∀ b s c d inner c' t, s < c.scopes.size → Entered p c.scopes.size s b c d →
      Grows d c' → Opened p s b d inner c' → c'.blockScope.get? b = some t → K c' b t)
    (hstart : ∀ b c, p.kind b = .onStart → rootScope < c.scopes.size → K c b rootScope) :
    WalkInvariant p fun c => Orderly p c ∧ ∀ b s, c.blockScope.get? b = some s → K c b s := by
  have hkeep : ∀ {c c'}, (Orderly p c ∧ ∀ b s, c.blockScope.get? b = some s → K c b s) →
      ScopeSteps c c' → Grows c c' → (∀ b s, c'.blockScope.get? b = some s →
        c.blockScope.get? b = some s ∨ K c' b s) →
      Orderly p c' ∧ ∀ b s, c'.blockScope.get? b = some s → K c' b s := by
    intro c c' hc hsteps hg hplaced
    refine ⟨hsteps.orderly hc.1, fun b s hb => ?_⟩
    exact (hplaced b s hb).elim (fun h => hgrows c c' b s hg (hc.2 b s h)) id
  constructor
  case orderly => exact fun _ hc => hc.1
  case block =>
    intro b s c d inner c' hc hs _ henter hadd hopened
    have hg := trans_of Grows (anchors_enter henter).1 hadd.keeps.grows
    refine hkeep hc (henter.steps.trans hadd.steps) hg fun x u hx => ?_
    by_cases hxb : x = b
    · subst hxb
      exact .inr (hblock x s c d inner c' u hs henter hadd.keeps.grows hopened hx)
    · rw [hopened.placed_eq hxb, henter.blockScope_eq, Table.get?_insert_ne _ _ hxb] at hx
      exact .inl hx
  case addStatement =>
    intro b s c hc
    have hkeeps : Keeps c.scopes.size False c (c.addStatement s b) := keeps_addStatement s b
    exact hkeep hc (step_addStatement c s b).single hkeeps.grows fun _ _ => .inl
  case start =>
    intro b c hc hk hs _
    have hplace : Adds p c.scopes.size False c (place b rootScope c).2 :=
      .place c b rootScope hs
    refine hkeep hc hplace.steps hplace.keeps.grows fun x u hx => ?_
    by_cases hxb : x = b
    · subst hxb
      cases (Table.get?_insert_self _ _ _).symm.trans hx
      exact .inr (hstart x _ hk hs)
    · exact .inl ((Table.get?_insert_ne _ _ hxb).symm.trans hx)
  case add =>
    exact fun c c' hc hadd hscope =>
      hkeep hc hadd.steps hadd.keeps.grows fun _ _ hx => .inl (hscope ▸ hx)

/-- Placed blocks find the names that they look up. -/
theorem walkInvariant_named : WalkInvariant p fun c => Orderly p c ∧
    ∀ b s, c.blockScope.get? b = some s → s < c.scopes.size ∧
      (p.kind b ≠ .onStart → ∀ n ∈ p.namesAt b, Anchored c n s) := by
  refine walkInvariant_placed ?_ ?_ fun b c hk hs => ⟨hs, fun hne => absurd hk hne⟩
  · rintro c c' b s hg ⟨hs, hnames⟩
    exact ⟨lt_of_lt_of_le hs hg.size_le, fun hk n hn => hg.anchored (hnames hk n hn)⟩
  · intro b s c d inner c' u hs henter hg hopened hb
    obtain ⟨hg1, hused⟩ := anchors_enter henter
    have hb1 : d.blockScope.get? b = some s := by
      rw [henter.blockScope_eq, Table.get?_insert_self]
    obtain ⟨t, hbt, ht, hst, hown⟩ :=
      anchors_openInputs hopened hg (lt_of_lt_of_le hs hg1.size_le) hb1
    cases hbt.symm.trans hb
    refine ⟨ht, fun _ n hn => ?_⟩
    rcases List.mem_append.mp hn with hn | hn
    · exact (hg.anchored (hused n (Option.mem_toList.mp hn))).inward hst
    · exact hown n hn

/-- A start block or container is placed, and of any other top block the live statements of its
chain. -/
structure TopPlaced (p : Program) (L : BlockRef → Bool) (c : Compilation) (b : BlockRef) :
    Prop where
  self : p.kind b = .onStart ∨ p.isContainer b = true → c.blockScope.contains b = true
  chain : p.kind b ≠ .onStart → p.isContainer b = false →
    ∀ x ∈ p.workspace.chain (some b), L x = true → c.blockScope.contains x = true

theorem topPlaced_of_loose (hb : L b = true)
    (h : ∀ x, p.Loose b x → L x = true → c.blockScope.contains x = true) : TopPlaced p L c b := by
  unfold Loose at h
  refine ⟨fun hk => h b (by rw [if_pos hk]) hb, fun hs hc x hx => h x ?_⟩
  rwa [if_neg (by simp [hs, hc])]

/-! ## After the walk -/

/-- What tracking leaves: placed blocks find the names that they look up and are covered, and so are
the live top blocks. -/
structure Tracked (p : Program) (L : BlockRef → Bool) (c : Compilation) : Prop where
  live_eq : p.isLive c = L
  finds : ∀ b, c.blockScope.contains b = true → p.kind b ≠ .onStart → ∀ n ∈ p.namesAt b,
    ∃ v, c.variableAt? b n = some v
  covered : ∀ b, c.blockScope.contains b = true → Covered p L c b
  tops : ∀ b ∈ p.workspace.topBlocks, L b = true → TopPlaced p L c b

/-- Moving variables to their owners leaves blocks in place and names anchored. -/
theorem anchored_narrowAll (ht : ScopeTree c) (hd : DeclaredOnce c) :
    c.narrowAll.blockScope = c.blockScope ∧ ∀ n s, Anchored c n s → Anchored c.narrowAll n s := by
  refine narrowAll_induction (J := fun d => d.blockScope = c.blockScope ∧
    ∀ n s, Anchored c n s → Anchored d n s) ?_ ht hd ⟨rfl, fun _ _ h => h⟩
  rintro d e ⟨hscope, hanchored⟩ htree hv
  refine ⟨(blockScope_narrow d e).trans hscope, fun n s h => ?_⟩
  exact anchored_narrow htree hv (hanchored n s h)

theorem track_tracked (hws : p.workspace.Sound) (disabled : List BlockRef) (taken : List String)
    (hL : p.isLive (fresh disabled taken) = L) :
    Tracked p L (p.track (fresh disabled taken)).2 := by
  obtain ⟨hplaces, ⟨horderly, hknown⟩, hloose⟩ := runs_visitAll (walkInvariant_named (p := p))
    ⟨fresh_orderly disabled taken p, nofun⟩ (fresh_tree disabled taken).root_lt fun _ => rfl
  have hlive' := hplaces.live_eq.trans hL
  have hsteps := steps_track_fresh disabled taken p
  have htree := hsteps.invariant (fun _ _ hstep => hstep.tree) (fresh_tree disabled taken)
  have hlive : p.isLive (p.track (fresh disabled taken)).2 = L := hsteps.isLive_eq.trans hL
  rw [track_eq] at htree hlive ⊢
  generalize (p.visitAll (fresh disabled taken)).2 = d at *
  obtain ⟨hnarrowed, hanchored⟩ := anchored_narrowAll horderly.tree horderly.once
  have hnotes : Notes d.narrowAll (p.markAll d.narrowAll).nameAll :=
    Relation.ReflTransGen.trans (notes_markAll _) (notes_nameAll _)
  obtain ⟨hscopes, hplaced, _⟩ := hnotes.same
  generalize (p.markAll d.narrowAll).nameAll = e at *
  have hplaced : e.blockScope = d.blockScope := hplaced.trans hnarrowed
  have hcontains : ∀ x, d.blockScope.contains x = true → e.blockScope.contains x = true := by
    intro x hx
    rw [hplaced]
    exact hx
  have hscope : ∀ s, e.scope s = d.narrowAll.scope s := by
    intro s
    unfold scope
    rw [hscopes]
  refine ⟨hlive, ?_, ?_, fun b hb hLb => topPlaced_of_loose hLb fun x hx hLx => hcontains x ?_⟩
  · intro b hb hk n hn
    obtain ⟨s, hs⟩ := Option.isSome_iff_exists.mp hb
    rw [hplaced] at hs
    obtain ⟨hlt, hnames⟩ := hknown b s hs
    have hsize : d.scopes.size ≤ e.scopes.size := by
      rw [hscopes]
      exact (steps_narrowAll horderly.tree horderly.once).size_le
    have hmeans : Anchored e n s := by
      refine Anchored.congr ?_ ?_ ?_ (hanchored n s (hnames hk n hn))
      all_goals intro t; rw [hscope]
    obtain ⟨v, hv⟩ := hmeans.finds htree (lt_of_lt_of_le hlt hsize)
    refine ⟨v, Option.bind_eq_some_iff.mpr ⟨s, by rw [hplaced]; exact hs, ?_⟩⟩
    exact (find?_eq_some_iff htree).mpr hv
  · intro b hb
    rw [hplaced] at hb
    have hcovered := (hplaces.covered hws b hb).resolve_left nofun
    rw [hlive'] at hcovered
    exact hcovered.mono hcontains
  · rw [← hlive'] at hLb hLx
    exact hloose b hb hLb x hx hws hLx

end BlockProgram
