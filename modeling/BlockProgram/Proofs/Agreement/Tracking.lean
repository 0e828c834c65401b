import BlockProgram.Proofs.Agreement.Walk

/-!
# The same scopes

Once their scopes are opened, programs that agree where they are enabled give their variables the
same owners, the same places of declaration and the same names: a scope that only the larger program
has is blank, so it owns nothing, declares nothing and names nothing. So scope tracking as a whole
keeps the runs parallel (`parallel_track`).
-/

namespace BlockProgram

open Compilation Program List Workspace

/-! ## Lists side by side -/

namespace Woven

variable {α β σ τ : Type} {f : β → α} {skip : α → Prop} {skip' keep : β → Prop} {l : List α}
  {k : List β}

theorem filter_eq {F : α → Bool} {G : β → Bool} (h : Woven f skip skip' keep l k)
    (hskip : ∀ x, skip x → F x = false) (hskip' : ∀ y, skip' y → G y = false)
    (hboth : ∀ y ∈ k, F (f y) = G y) : l.filter F = (k.filter G).map f := by
  induction h with
  | nil => rfl
  | left hx _ ih =>
    rw [filter_cons_of_neg (by simp [hskip _ hx])]
    exact ih hboth
  | right hy _ ih =>
    rw [filter_cons_of_neg (by simp [hskip' _ hy])]
    exact ih fun z hz => hboth z (.tail _ hz)
  | @both y _ _ _ _ ih =>
    have hy := hboth y (.head _)
    have hrest := ih fun z hz => hboth z (.tail _ hz)
    rw [filter_cons, filter_cons, hy, hrest]
    split <;> rfl

theorem any_eq {F : α → Bool} {G : β → Bool} (h : Woven f skip skip' keep l k)
    (hskip : ∀ x, skip x → F x = false) (hskip' : ∀ y, skip' y → G y = false)
    (hboth : ∀ y ∈ k, F (f y) = G y) : l.any F = k.any G := by
  have hany : ∀ {γ : Type} (m : List γ) (H : γ → Bool),
      m.any H = (m.filter H).any fun _ => true := by
    simp
  rw [hany, h.filter_eq hskip hskip' hboth, any_map, hany k]
  rfl

/-- Two folds that keep states related, where skipped items of the first list do nothing. -/
theorem foldl {R : σ → τ → Prop} {F : σ → α → σ} {G : τ → β → τ}
    (h : Woven f skip (fun _ => False) keep l k) (hskip : ∀ x c d, skip x → R c d → R (F c x) d)
    (hboth : ∀ y ∈ k, ∀ c d, R c d → R (F c (f y)) (G d y)) {c : σ} {d : τ} (hR : R c d) :
    R (l.foldl F c) (k.foldl G d) := by
  induction h generalizing c d with
  | nil => exact hR
  | left hx _ ih => exact ih hboth (hskip _ c d hx hR)
  | right hy _ _ => exact hy.elim
  | both _ _ ih =>
    exact ih (fun z hz => hboth z (.tail _ hz)) (hboth _ (.head _) c d hR)

end Woven

variable {e : BlockRef → BlockRef} {p q : Program} {off : List BlockRef} {w : ScopeMap}
  {c d : Compilation} {s : Nat} {v : BindingId}

namespace Parallel

variable (hS : Parallel e q off w c d)
include hS

/-! ## Owners -/

theorem usedBelowFrom_extra {t : Nat} (ht : ∀ s, w.image s ≠ t) (assigned : Bool) (v : BindingId)
    (m : Nat) : c.usedBelowFrom assigned v m t = false := by
  have hblank := hS.blank t ht
  cases m with
  | zero => rfl
  | succ m =>
    unfold usedBelowFrom usesIn
    rw [hblank.children, hblank.referenced, hblank.assigned]
    cases assigned <;> rfl

theorem usedBelow_eq (hs : s < d.scopes.size) (assigned : Bool) (v : BindingId) :
    c.usedBelow assigned v (w.image s) = d.usedBelow assigned v s := by
  have hfrom : ∀ n m s, s < d.scopes.size → d.scopes.size ≤ n + s → c.scopes.size ≤ m + w.image s →
        c.usedBelowFrom assigned v m (w.image s) = d.usedBelowFrom assigned v n s := by
    intro n
    induction n with
    | zero => intro m s hs hn; omega
    | succ n ih =>
      intro m s hs hn hm
      have himage := hS.image_lt hs
      cases m with
      | zero => omega
      | succ m =>
        have halike := hS.scopes s hs
        have huses : c.usesIn assigned (w.image s) = d.usesIn assigned s := by
          unfold usesIn
          rw [halike.referenced, halike.assigned]
        unfold usedBelowFrom
        rw [huses]
        congr 1
        refine halike.children.any_eq ?_ (fun _ hno => hno.elim) ?_
        · exact fun t ht => hS.usedBelowFrom_extra ht assigned v m
        · intro t ht
          have hchild := halike.child_lt t ht
          have hmono := hS.mono hchild.1
          exact ih m t hchild.2 (by omega) (by omega)
  exact hfrom _ _ s hs (Nat.le_add_right _ _) (Nat.le_add_right _ _)

theorem users_eq (hs : s < d.scopes.size) (v : BindingId) :
    (c.scope (w.image s)).children.filter (c.usedBelow false v) =
      ((d.scope s).children.filter (d.usedBelow false v)).map w.image := by
  refine (hS.scopes s hs).children.filter_eq ?_ (fun _ hno => hno.elim) ?_
  · exact fun t ht => hS.usedBelowFrom_extra ht false v _
  · exact fun t ht => hS.usedBelow_eq ((hS.scopes s hs).child_lt t ht).2 false v

theorem ownerFrom_eq (n m : Nat) (hs : s < d.scopes.size) (hn : d.scopes.size ≤ n + s)
    (hm : c.scopes.size ≤ m + w.image s) :
    c.ownerFrom v m (w.image s) = w.image (d.ownerFrom v n s) ∧ d.ownerFrom v n s < d.scopes.size ∧
      (d.ownerFrom v n s = s ∨ d.usedBelow true v (d.ownerFrom v n s) = true) := by
  induction n generalizing m s with
  | zero => omega
  | succ n ih =>
    have himage := hS.image_lt hs
    cases m with
    | zero => omega
    | succ m =>
      have halike := hS.scopes s hs
      unfold ownerFrom
      rw [halike.referenced, hS.users_eq hs v]
      split
      · exact ⟨rfl, hs, .inl rfl⟩
      · have hmem : ∀ t : Nat, t ∈ (d.scope s).children.filter (d.usedBelow false v) →
            s < t ∧ t < d.scopes.size :=
          fun t ht => halike.child_lt t (mem_of_mem_filter ht)
        revert hmem
        generalize (d.scope s).children.filter (d.usedBelow false v) = users
        intro hmem
        rcases users with _ | ⟨only, _ | ⟨_, _⟩⟩
        · exact ⟨rfl, hs, .inl rfl⟩
        · have honly := hmem only (.head _)
          have hmono := hS.mono honly.1
          rw [map_cons, map_nil]
          dsimp only
          rw [hS.usedBelow_eq honly.2]
          split
          · next hused =>
            obtain ⟨howner, hlt, hmoved⟩ := ih m honly.2 (by omega) (by omega)
            refine ⟨howner, hlt, .inr ?_⟩
            rcases hmoved with hsame | hmoved
            · rw [hsame]
              exact hused
            · exact hmoved
          · exact ⟨rfl, hs, .inl rfl⟩
        · exact ⟨rfl, hs, .inl rfl⟩

/-- A variable has the same owner in both runs, and something is in it unless it is the root. -/
theorem owner_eq (v : BindingId) : c.owner v = w.image (d.owner v) ∧ d.owner v < d.scopes.size ∧
      (d.owner v = rootScope ∨ ¬(d.scope (d.owner v)).IsBlank) := by
  have howner := hS.ownerFrom_eq (v := v) d.scopes.size c.scopes.size hS.root_lt
    (Nat.le_add_right _ _) (Nat.le_add_right _ _)
  rw [hS.root] at howner
  refine ⟨howner.1, howner.2.1, howner.2.2.imp_right fun hused hblank => ?_⟩
  have hunused : ∀ n, d.usedBelowFrom true v n (d.owner v) = false := by
    intro n
    cases n with
    | zero => rfl
    | succ n =>
      unfold usedBelowFrom usesIn
      rw [hblank.children, if_pos rfl, hblank.assigned]
      rfl
  have hused : d.usedBelow true v (d.owner v) = true := hused
  rw [show d.usedBelow true v (d.owner v) = false from hunused _] at hused
  cases hused

theorem head_of_not_blank (hs : s < d.scopes.size) (hblank : ¬(d.scope s).IsBlank) :
    scopeHead? (c.scope (w.image s)) = (scopeHead? (d.scope s)).map e :=
  (hS.scopes s hs).head.resolve_right fun h => hblank h.2

/-- What the scopes declare changes in the same way. -/
theorem updateDeclared (hs : s < d.scopes.size) (hblank : s = rootScope ∨ ¬(d.scope s).IsBlank)
    (f : Table String BindingId → Table String BindingId) :
    Parallel e q off w (c.updateScope (w.image s) fun x => { x with declared := f x.declared })
      (d.updateScope s fun x => { x with declared := f x.declared }) := by
  have halike := hS.scopes s hs
  refine hS.updateScope hs { halike with declared := congrArg f halike.declared, head := .inl ?_ }
  rcases hblank with rfl | hblank
  · exact hS.head_eq hs hS.root_headed
  · exact hS.head_of_not_blank hs hblank

theorem narrow (x : String × BindingId) : Parallel e q off w (c.narrow x) (d.narrow x) := by
  obtain ⟨howner, hlt, hblank⟩ := hS.owner_eq x.2
  have hroot : w.image (d.owner x.2) = rootScope ↔ d.owner x.2 = rootScope := by
    constructor
    · exact fun h => hS.mono.injective (h.trans hS.root.symm)
    · exact fun h => (congrArg w.image h).trans hS.root
  unfold Compilation.narrow
  dsimp only
  rw [howner, hS.binding_eq, (hS.scopes _ hlt).declared]
  simp only [hroot]
  show Parallel e q off w (if (d.binding x.2).declared.isSome || _ || _ then _ else _) _
  split
  · exact hS
  · have herase := hS.updateDeclared hS.root_lt (.inl rfl) (Table.erase · x.1)
    rw [hS.root] at herase
    refine herase.updateDeclared ?_ ?_ (Table.insert · x.1 x.2)
    · rw [size_updateScope]
      exact hlt
    · by_cases howner : d.owner x.2 = rootScope
      · exact .inl howner
      · rw [scope_updateScope_ne d howner]
        exact hblank

theorem narrowAll : Parallel e q off w c.narrowAll d.narrowAll := by
  have hfold : ∀ (l : List (String × BindingId)) c d, Parallel e q off w c d →
      Parallel e q off w (l.foldl Compilation.narrow c) (l.foldl Compilation.narrow d) := by
    intro l
    induction l with
    | nil => exact fun _ _ hS => hS
    | cons x r ih => exact fun c d hS => ih _ _ (hS.narrow x)
  have hdeclared := (hS.scopes rootScope hS.root_lt).declared
  rw [hS.root] at hdeclared
  unfold Compilation.narrowAll
  rw [hdeclared]
  exact hfold _ c d hS

/-! ## All scopes -/

open Classical in
/-- The scopes of the two runs, one beside the other. -/
theorem woven_range : Children w.image (List.range c.scopes.size) (List.range d.scopes.size) := by
  have hleft : ((List.range c.scopes.size).filter fun t => decide (∃ s, w.image s = t)).Pairwise
      (· < ·) := pairwise_lt_range.filter _
  have hright : ((List.range d.scopes.size).map w.image).Pairwise (· < ·) :=
    List.Pairwise.map _ (fun _ _ hst => hS.mono hst) pairwise_lt_range
  have hfilter : ((List.range c.scopes.size).filter fun t => decide (∃ s, w.image s = t)) =
      ((List.range d.scopes.size).filter fun _ => true).map w.image := by
    rw [filter_true]
    refine hleft.eq_of_mem_iff hright fun t => ?_
    simp only [mem_filter, mem_range, mem_map, decide_eq_true_eq]
    constructor
    · rintro ⟨ht, s, rfl⟩
      refine ⟨s, ?_, rfl⟩
      by_contra hge
      have hle := hS.mono.monotone (Nat.le_of_not_lt hge)
      rw [hS.image_size] at hle
      omega
    · rintro ⟨s, hs, rfl⟩
      exact ⟨hS.image_lt hs, s, rfl⟩
  have hwoven := Woven.of_filter hfilter
  have hskip : Woven w.image (fun t => ∀ s, w.image s ≠ t) (fun _ => true = false)
      (fun _ => true = true) (List.range c.scopes.size) (List.range d.scopes.size) :=
    hwoven.imp (fun t ht => by simpa using ht) fun _ _ => rfl
  unfold Children
  simpa using hskip

end Parallel

/-! ## Declaration sites -/

section Agreeing

variable (h : Agrees e p q)
include h

omit h in
/-- The same blocks of a list refer to a variable. -/
theorem any_references {l k : List BlockRef} (hlk : ∀ x, e x ∈ l ↔ x ∈ k)
    (references : List BlockRef) :
    l.any (references.map e).contains = k.any references.contains := by
  rw [Bool.eq_iff_iff]
  simp only [any_eq_true, contains_iff_mem, mem_map]
  constructor
  · rintro ⟨_, hx, x, hmem, rfl⟩
    exact ⟨x, (hlk x).mp hx, hmem⟩
  · rintro ⟨x, hx, hmem⟩
    exact ⟨e x, (hlk x).mpr hx, x, hmem, rfl⟩

theorem declaresInline_eq {b : BlockRef} (hb : AgreesBlock e p q b) (references : List BlockRef) :
    p.declaresInline (references.map e) (e b) = q.declaresInline references b := by
  have hcontains : (references.map e).contains (e b) = references.contains b := by
    rw [Bool.eq_iff_iff, contains_iff_mem, contains_iff_mem]
    exact mem_map_of_injective h.injective
  unfold declaresInline
  dsimp only
  rw [show (p.block (e b)).kind = (q.block b).kind from hb.kind, hcontains]
  cases hkind : (q.block b).kind == BlockKind.variableSet with
  | false => rfl
  | true =>
    have hoperand : "VALUE" ∈ q.operands (q.block b) :=
      mem_operands (eq_of_beq hkind) (.head _)
    rw [hb.inputTarget? hoperand]
    cases hvalue : (q.block b).inputTarget? "VALUE" with
    | none => rfl
    | some t =>
      obtain ⟨i, hi, _, hit⟩ := Pairing.exists_input_of_target hvalue
      have ht := h.right_sound.child_lt b t (Pairing.mem_children_of_input hi hit)
      have hbelow : ∀ x, e x ∈ p.workspace.descendants (e t) ↔ x ∈ q.workspace.descendants t := by
        intro x
        rw [mem_descendants h.left_sound ((h.lt t).mpr ht),
          mem_descendants h.right_sound ht, h.under]
      rw [Option.map_some, Option.any_some, Option.any_some, any_references hbelow]

theorem inlineSite?_eq (hS : Parallel e q off w c d) (hs : s < d.scopes.size) (v : BindingId) :
    p.inlineSite? c (w.image s) v = (q.inlineSite? d s v).map e := by
  have halike := hS.scopes s hs
  have hsubtree : ∀ references b, (p.workspace.subtree (e b)).any (List.map e references).contains =
      (q.workspace.subtree b).any references.contains := by
    intro references b
    refine any_references (fun x => ?_) references
    rw [mem_subtree h.left_sound, mem_subtree h.right_sound, h.within]
  unfold inlineSite?
  dsimp only
  rw [hS.binding_eq, halike.statements, find?_map]
  show Option.filter (p.declaresInline ((d.binding v).references.map e)) (Option.map e
    (List.find? (fun b => (p.workspace.subtree (e b)).any
      ((d.binding v).references.map e).contains) _)) = _
  simp only [hsubtree]
  cases hfind : (d.scope s).statements.find? fun b =>
      (q.workspace.subtree b).any (d.binding v).references.contains with
  | none => rfl
  | some b =>
    obtain ⟨hb, henabled⟩ := halike.enabled b (mem_of_find?_eq_some hfind)
    rw [Option.map_some, Option.filter_some, Option.filter_some,
      declaresInline_eq h (h.blockAt hb henabled)]
    split <;> rfl

theorem parallel_markSite (hS : Parallel e q off w c d) (hs : s < d.scopes.size)
    (hblank : ¬(d.scope s).IsBlank) (v : BindingId) :
    Parallel e q off w (p.markSite (w.image s) c v) (q.markSite s d v) := by
  have hhead := hS.head_of_not_blank hs hblank
  have hroot : w.image s = rootScope ↔ s = rootScope := by
    constructor
    · exact fun hs => hS.mono.injective (hs.trans hS.root.symm)
    · exact fun hs => (congrArg w.image hs).trans hS.root
  have hatRoot : Parallel e q off w { c with rootDeclarations := c.rootDeclarations ++ [v] }
      { d with rootDeclarations := d.rootDeclarations ++ [v] } :=
    { hS with rootDeclarations := by rw [hS.rootDeclarations] }
  unfold markSite
  rw [hS.binding_eq, inlineSite?_eq h hS hs, hhead]
  simp only [hroot]
  show Parallel e q off w (if (d.binding v).declared.isSome then _ else _) _
  split
  · exact hS
  · cases q.inlineSite? d s v with
    | some b => exact hS.updateBinding v fun x => rfl
    | none =>
      cases scopeHead? (d.scope s) with
      | none => exact hatRoot
      | some b =>
        dsimp only [Option.map_none, Option.map_some]
        split
        · exact hatRoot
        · refine { hS with declarations := ?_ }
          intro x
          unfold declareBefore
          dsimp only
          rw [Table.get?_insert, Table.get?_insert, hS.declarations, hS.declarations]
          simp only [h.injective.eq_iff]

theorem parallel_markAll (hS : Parallel e q off w c d) :
    Parallel e q off w (p.markAll c) (q.markAll d) := by
  have hscopes : ∀ (p : Program) s c (l : List BindingId),
      (l.foldl (p.markSite s) c).scopes = c.scopes := by
    intro p s c l
    exact (along_foldl (fun c v => notes_markSite s c v) l c).same.1
  have hfold : ∀ s < d.scopes.size, ¬(d.scope s).IsBlank → ∀ (l : List BindingId) c' d',
      Parallel e q off w c' d' → d'.scopes = d.scopes →
        Parallel e q off w (l.foldl (p.markSite (w.image s)) c') (l.foldl (q.markSite s) d') := by
    intro s hs hblank l
    induction l with
    | nil => exact fun _ _ hS _ => hS
    | cons v r ih =>
      intro c' d' hS' hsame
      refine ih _ _ (parallel_markSite h hS' (by rw [hsame]; exact hs) ?_ v) ?_
      · unfold scope at hblank ⊢
        rw [hsame]
        exact hblank
      · exact (notes_markSite s d' v).same.1.trans hsame
  unfold markAll
  refine (hS.woven_range.foldl (R := fun c' d' => Parallel e q off w c' d' ∧
    d'.scopes = d.scopes) ?_ ?_ ⟨hS, rfl⟩).1
  · rintro t c' d' ht ⟨hS', hsame⟩
    refine ⟨?_, hsame⟩
    unfold markScope
    rw [(hS'.blank t ht).declared]
    exact hS'
  · rintro s hs c' d' ⟨hS', hsame⟩
    have hs : s < d'.scopes.size := by
      rw [hsame]
      exact mem_range.mp hs
    refine ⟨?_, (hscopes q s d' _).trans hsame⟩
    unfold markScope
    rw [(hS'.scopes s hs).declared]
    by_cases hvalues : (d'.scope s).declared.values = []
    · rw [hvalues]
      exact hS'
    · refine hfold s (by rw [← hsame]; exact hs) ?_ _ c' d' hS' hsame
      intro hblank
      unfold scope at hblank hvalues
      rw [hsame] at hvalues
      exact hvalues (by rw [hblank.declared]; rfl)

end Agreeing

/-! ## Names -/

theorem parallel_nameEach (l : List BindingId) (taken : List String) (hS : Parallel e q off w c d) :
    (l.foldl nameOne (taken, c)).1 = (l.foldl nameOne (taken, d)).1 ∧
      Parallel e q off w (l.foldl nameOne (taken, c)).2 (l.foldl nameOne (taken, d)).2 := by
  induction l generalizing taken c d with
  | nil => exact ⟨rfl, hS⟩
  | cons v r ih =>
    have hname : (c.binding v).name = (d.binding v).name := by
      rw [hS.binding_eq]
      rfl
    rw [foldl_cons, foldl_cons]
    unfold nameOne
    dsimp only
    rw [hname]
    exact ih _ (hS.updateBinding v fun x => rfl)

/-- The scopes below a scope get the same names. -/
theorem parallel_nameScope (n m : Nat) (taken : List String) (hS : Parallel e q off w c d)
    (hs : s < d.scopes.size) (hn : d.scopes.size ≤ n + s) (hm : c.scopes.size ≤ m + w.image s) :
    Parallel e q off w (nameScope taken m c (w.image s)) (nameScope taken n d s) := by
  induction n generalizing m taken c d s with
  | zero => omega
  | succ n ih =>
    have himage := hS.image_lt hs
    cases m with
    | zero => omega
    | succ m =>
      have halike := hS.scopes s hs
      obtain ⟨htaken, hnamed⟩ := parallel_nameEach (d.scope s).declared.values taken hS
      have hleft : ((d.scope s).declared.values.foldl nameOne (taken, c)).2.scopes = c.scopes :=
        (along_nameEach notes_nameOne _ _).same.1
      have hright : ((d.scope s).declared.values.foldl nameOne (taken, d)).2.scopes = d.scopes :=
        (along_nameEach notes_nameOne _ _).same.1
      unfold nameScope
      dsimp only
      rw [halike.declared, htaken]
      generalize (d.scope s).declared.values.foldl nameOne (taken, c) = x at hnamed hleft
      generalize (d.scope s).declared.values.foldl nameOne (taken, d) = y at hnamed hright
      have hsy : s < y.2.scopes.size := by
        rw [hright]
        exact hs
      have halike' := hnamed.scopes s hsy
      refine (halike'.children.foldl (R := fun c' d' => Parallel e q off w c' d' ∧
        c'.scopes = x.2.scopes ∧ d'.scopes = y.2.scopes) ?_ ?_ ⟨hnamed, rfl, rfl⟩).1
      · rintro t c' d' ht ⟨hS', hc', hd'⟩
        have hblank := hS'.blank t ht
        have hsame : nameScope y.1 m c' t = c' := by
          cases m with
          | zero => rfl
          | succ m =>
            unfold nameScope
            dsimp only
            rw [hblank.declared]
            show (c'.scope t).children.foldl _ c' = c'
            rw [hblank.children]
            rfl
        rw [hsame]
        exact ⟨hS', hc', hd'⟩
      · rintro t ht c' d' ⟨hS', hc', hd'⟩
        have hchild := halike'.child_lt t ht
        have hmono := hnamed.mono hchild.1
        rw [hright] at hchild
        refine ⟨ih m y.1 hS' ?_ ?_ ?_, ?_, ?_⟩
        · rw [hd', hright]
          exact hchild.2
        · rw [hd', hright]
          omega
        · rw [hc', hleft]
          omega
        · exact (along_nameScope notes_nameOne _ _ _ _).same.1.trans hc'
        · exact (along_nameScope notes_nameOne _ _ _ _).same.1.trans hd'

theorem parallel_nameAll (hS : Parallel e q off w c d) :
    Parallel e q off w c.nameAll d.nameAll := by
  have hscope := parallel_nameScope d.scopes.size c.scopes.size (Text.reservedWords ++ d.taken) hS
    hS.root_lt (Nat.le_add_right _ _) (Nat.le_add_right _ _)
  rw [hS.root] at hscope
  unfold nameAll
  rw [hS.taken]
  exact hscope

/-- The runs are parallel once their scopes are found. -/
theorem parallel_track (h : Agrees e p q) :
    ∃ w, Parallel e q q.selectTops.disabled w p.tracked q.tracked := by
  obtain ⟨w, hS⟩ := parallel_visitAll h
  refine ⟨w, ?_⟩
  unfold tracked
  rw [track_eq, track_eq]
  exact parallel_nameAll (parallel_markAll h hS.narrowAll)

end BlockProgram
