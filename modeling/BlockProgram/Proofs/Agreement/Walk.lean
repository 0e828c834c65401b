import BlockProgram.Proofs.Agreement.Scopes
import BlockProgram.Proofs.Scope.Coverage

/-!
# The same walk

Two programs that agree where they are enabled are walked over alike. `Walks` says of two steps in
corresponding scopes that they keep the runs parallel; the scope map may go on. The steps of the
walk are compared one by one, and the whole walk by induction on how deep it goes
(`walks_visitFrom`).
-/

namespace BlockProgram

open Compilation Program Workspace List

variable {e : BlockRef → BlockRef} {p q : Program} {off : List BlockRef} {w : ScopeMap}
  {c d : Compilation} {s s' k : Nat} {b : BlockRef} {scope : ScopeId}

/-! ## Steps that open no scope -/

/-- Parallel states in which something happens in scope `s`, with at least `k` scopes. -/
structure At (e : BlockRef → BlockRef) (q : Program) (off : List BlockRef) (w : ScopeMap)
    (s k : Nat)
    (c d : Compilation) : Prop extends Parallel e q off w c d where
  headed : w.headed s
  lt : s < k
  le : k ≤ d.scopes.size

theorem At.scope_lt (h : At e q off w s k c d) : s < d.scopes.size :=
  lt_of_lt_of_le h.lt h.le

theorem At.of_size (h : At e q off w s k c d) {c' d' : Compilation} (h' : Parallel e q off w c' d')
    (hsize : d'.scopes.size = d.scopes.size) : At e q off w s k c' d' :=
  { h' with headed := h.headed, lt := h.lt, le := by rw [hsize]; exact h.le }

theorem at_graph {α : Type} (m : GraphM α) :
    Pairs (At e q off w s k) Eq (liftM m : TrackM α) (liftM m) := by
  intro c d h
  refine ⟨congrArg (fun g => (m g).1) h.graph, { h with graph := ?_ }⟩
  exact congrArg (fun g => (m g).2) h.graph

theorem at_declare (name : String) (node : NodeId) :
    Pairs (At e q off w s k) Eq (declare (w.image s) name node) (declare s name node) := by
  intro c d h
  obtain ⟨hid, hd⟩ := h.toParallel.declare h.scope_lt h.headed name node
  exact ⟨hid, h.of_size hd (size_declare d s name node)⟩

theorem at_declare_root (name : String) (node : NodeId) :
    Pairs (At e q off w s k) Eq (declare rootScope name node) (declare rootScope name node) := by
  intro c d h
  obtain ⟨hid, hd⟩ := h.toParallel.declare h.root_lt h.root_headed name node
  rw [h.root] at hid hd
  exact ⟨hid, h.of_size hd (size_declare d rootScope name node)⟩

theorem at_updateBinding {f g : Binding → Binding} (v : BindingId)
    (hfg : ∀ x, f (x.rename e) = (g x).rename e) :
    Pairs (At e q off w s k) Eq (modify (·.updateBinding v f) : TrackM PUnit)
      (modify (·.updateBinding v g)) :=
  Pairs.of_modify fun _ _ h => h.of_size (h.toParallel.updateBinding v hfg) rfl

theorem at_findOrDeclare (name : String) :
    Pairs (At e q off w s k) Eq (findOrDeclare (w.image s) name) (findOrDeclare s name) := by
  unfold findOrDeclare
  refine Pairs.bind_get fun c d h => ?_
  rw [h.toParallel.find?_eq h.scope_lt]
  split
  · exact Pairs.pure rfl
  · refine Pairs.bind (at_graph _) ?_
    rintro node _ rfl
    exact at_declare_root name node

theorem at_recordUse (b : BlockRef) (assigns : Bool) (v : BindingId) : Pairs (At e q off w s k) Eq
      (modify (recordUse (w.image s) (e b) assigns v) : TrackM PUnit)
      (modify (recordUse s b assigns v)) := by
  refine Pairs.of_modify fun c d h => ?_
  unfold recordUse
  have hbinding := h.toParallel.updateBinding v (f := fun x => { x with
      references := x.references ++ [e b], first := x.first.or (some (e b))
      isAssigned := x.isAssigned || assigns })
    (g := fun x => { x with
      references := x.references ++ [b], first := x.first.or (some b)
      isAssigned := x.isAssigned || assigns }) fun x => by
        cases hx : x.first <;> simp [Binding.rename, hx]
  have halike := hbinding.scopes s h.scope_lt
  have hhead := hbinding.head_eq h.scope_lt h.headed
  refine h.of_size (hbinding.updateScope h.scope_lt ?_) (size_updateScope _ _ _)
  refine { halike with referenced := ?_, assigned := ?_, head := .inl hhead }
  · show addOnce _ v = addOnce _ v
    rw [halike.referenced]
  · show (if assigns then addOnce _ v else _) = if assigns then addOnce _ v else _
    rw [halike.assigned]

theorem at_reference (b : BlockRef) (assigns : Bool) (name : Option String) :
    Pairs (At e q off w s k) Eq (reference (w.image s) (e b) assigns name)
      (reference s b assigns name) := by
  cases name with
  | none => exact Pairs.pure rfl
  | some name =>
    refine Pairs.bind (at_findOrDeclare name) ?_
    rintro v _ rfl
    exact at_recordUse b assigns v

theorem at_declareRaw (name : String) : Pairs (At e q off w s k) Eq (declareRaw (w.image s) name)
      (declareRaw s name) := by
  unfold declareRaw
  refine Pairs.bind_get fun c d h => ?_
  rw [(h.scopes s h.scope_lt).declared]
  split
  · exact Pairs.pure rfl
  · refine Pairs.bind (at_graph _) ?_
    rintro node _ rfl
    refine Pairs.bind (at_declare name node) ?_
    rintro v _ rfl
    exact at_updateBinding v fun x => rfl

theorem at_declareOwn (b : BlockRef) (own : OwnDeclaration) :
    Pairs (At e q off w s k) Eq (declareOwn (w.image s) (e b) own) (declareOwn s b own) := by
  unfold declareOwn
  refine Pairs.bind (at_declare own.name own.node) ?_
  rintro v _ rfl
  exact at_updateBinding v fun x => rfl

section Blocks

variable (h : Agrees e p q)
include h

theorem at_place (b : BlockRef) :
    Pairs (At e q off w s k) Eq (place (e b) (w.image s)) (place b s) := by
  refine Pairs.of_modify fun c d hS => ?_
  refine { hS with blockScope := ?_, placed_lt := ?_ }
  · intro x
    show (c.blockScope.insert (e b) (w.image s)).get? (e x) =
      ((d.blockScope.insert b s).get? x).map _
    rw [Table.get?_insert, Table.get?_insert]
    by_cases hx : x = b
    · rw [if_pos hx, if_pos (congrArg e hx)]
      rfl
    · rw [if_neg hx, if_neg fun hex => hx (h.injective hex)]
      exact hS.blockScope x
  · intro x t hx
    have hx : (d.blockScope.insert b s).get? x = some t := hx
    rw [Table.get?_insert] at hx
    split at hx
    · cases hx
      exact hS.scope_lt
    · exact hS.placed_lt x t hx

omit h in
theorem at_visitSelf (hb : AgreesBlock e p q b) :
    Pairs (At e q off w s k) Eq (p.visitSelf (w.image s) (e b)) (q.visitSelf s b) := by
  have hvariable : (p.block (e b)).variableField? = (q.block b).variableField? :=
    hb.read Block.variableField? fun _ => rfl
  have hvalue : (p.block (e b)).field? "VALUE" = (q.block b).field? "VALUE" :=
    hb.read (Block.field? · "VALUE") fun _ => rfl
  have hraw : rawNames (p.block (e b)) = rawNames (q.block b) :=
    hb.read rawNames fun _ => rfl
  unfold visitSelf
  dsimp only
  rw [show (p.block (e b)).kind = (q.block b).kind from hb.kind, hvariable, hvalue, hraw]
  split
  · exact at_reference b false _
  · exact at_reference b false _
  · exact at_reference b true _
  · exact at_reference b true _
  · exact Pairs.forM (forall₂_same.mpr fun name _ => at_declareRaw name)
  · exact Pairs.pure rfl

theorem ownDeclarations_eq (hb : AgreesBlock e p q b) :
    p.ownDeclarations (p.block (e b)) = q.ownDeclarations (q.block b) := by
  have hmutation : mutationDeclarations (p.block (e b)) =
      mutationDeclarations (q.block b) := hb.read _ fun _ => rfl
  have hkind : p.kindDeclarations (p.block (e b)) = q.kindDeclarations (q.block b) := by
    rw [← hb.read q.kindDeclarations fun _ => rfl]
    unfold kindDeclarations handlerOf
    rw [h.surface]
  unfold ownDeclarations
  rw [hmutation, hkind]

end Blocks

/-! ## Steps that may open scopes -/

/-- Two steps in corresponding scopes that keep the runs parallel. -/
def Walks (e : BlockRef → BlockRef) (q : Program) (off : List BlockRef) (s' s : Nat)
    (m n : TrackM Unit) : Prop :=
  ∀ w c d, Parallel e q off w c d → s < d.scopes.size → w.headed s → w.image s = s' →
    ∃ w', w.Extends w' d.scopes.size ∧ d.scopes.size ≤ (n d).2.scopes.size ∧
      Parallel e q off w' (m c).2 (n d).2

namespace Walks

variable {m n m' n' : TrackM Unit}

theorem pure : Walks e q off s' s (Pure.pure ()) (Pure.pure ()) :=
  fun w _ _ h _ _ _ => ⟨w, .refl w _, le_rfl, h⟩

theorem of_at (h : ∀ w k, w.image s = s' → Pairs (At e q off w s k) Eq m n) :
    Walks e q off s' s m n := by
  intro w c d hS hs hheaded himage
  obtain ⟨_, hS'⟩ := h w d.scopes.size himage c d
    { hS with headed := hheaded, lt := hs, le := Nat.le_refl _ }
  exact ⟨w, .refl w _, hS'.le, hS'.toParallel⟩

theorem bind (h : Walks e q off s' s m n) (h' : Walks e q off s' s m' n') :
    Walks e q off s' s (m >>= fun _ => m') (n >>= fun _ => n') := by
  intro w c d hS hs hheaded himage
  obtain ⟨w₁, hext₁, hsize₁, hS₁⟩ := h w c d hS hs hheaded himage
  obtain ⟨w₂, hext₂, hsize₂, hS₂⟩ := h' w₁ _ _ hS₁ (lt_of_lt_of_le hs hsize₁)
    (hext₁.headed s hs hheaded) ((hext₁.image s hs).trans himage)
  exact ⟨w₂, hext₁.trans hext₂ hsize₁, le_trans hsize₁ hsize₂, hS₂⟩

/-- A step that opens no scope, followed by steps that may. -/
theorem bind_at {α β : Type} {V : α → β → Prop} {m : TrackM α} {n : TrackM β} {f : α → TrackM Unit}
    {g : β → TrackM Unit} (h : ∀ w k, w.image s = s' → Pairs (At e q off w s k) V m n)
    (hf : ∀ a b, V a b → Walks e q off s' s (f a) (g b)) :
    Walks e q off s' s (m >>= f) (n >>= g) := by
  intro w c d hS hs hheaded himage
  obtain ⟨hV, hS'⟩ := h w d.scopes.size himage c d
    { hS with headed := hheaded, lt := hs, le := Nat.le_refl _ }
  obtain ⟨w', hext, hsize, hS''⟩ := hf _ _ hV w _ _ hS'.toParallel hS'.scope_lt hheaded himage
  exact ⟨w', (ScopeMap.Extends.refl w _).trans hext hS'.le, le_trans hS'.le hsize, hS''⟩

theorem forM {α β : Type} {f : α → TrackM Unit} {g : β → TrackM Unit} {l : List α} {k : List β}
    (h : List.Forall₂ (fun a b => Walks e q off s' s (f a) (g b)) l k) :
    Walks e q off s' s (l.forM f) (k.forM g) := by
  induction h with
  | nil => exact pure
  | cons hab _ ih => exact bind hab ih

/-- Something happens to a block if it is live. -/
theorem live (h : Agrees e p q) (hlive : q.isLive { disabled := off } b = true →
    Walks e q off s' s m n) :
    Walks e q off s' s (do if p.isLive (← get) (e b) then m else Pure.pure ())
      (do if q.isLive (← get) b then n else Pure.pure ()) := by
  intro w c d hS hs hheaded himage
  have hright : q.isLive d b = q.isLive { disabled := off } b := q.isLive_congr hS.rightOff b
  have hleft : p.isLive c (e b) = q.isLive d b :=
    h.isLive (by rw [hS.leftOff, hS.rightOff]) b
  show ∃ w', _ ∧ _ ≤ ((if q.isLive d b then n else Pure.pure ()) d).2.scopes.size ∧
    Parallel e q off w' ((if p.isLive c (e b) then m else Pure.pure ()) c).2
      ((if q.isLive d b then n else Pure.pure ()) d).2
  rw [hleft]
  split
  · next hlv => exact hlive (hright.symm.trans hlv) w c d hS hs hheaded himage
  · exact pure w c d hS hs hheaded himage

theorem newScope (h : Agrees e p q) {f g : Nat → TrackM Unit} (b : BlockRef)
    (hf : ∀ r' r, Walks e q off r' r (f r') (g r)) :
    Walks e q off s' s (newScope (some s') (some (e b)) >>= f)
      (newScope (some s) (some b) >>= g) := by
  intro w c d hS hs hheaded himage
  have hfirst : ∀ f, q.kind f = .functionDefinition → (e b = e f ↔ b = f) :=
    fun f _ => h.injective.eq_iff
  have hnew := hS.newScope hs hheaded hfirst
  have hsize := size_newScope d s (some b)
  have hhead : scopeHead? ((Compilation.newScope (some (w.image s)) (some (e b)) c).2.scope
      (w.image d.scopes.size)) =
      (scopeHead? ((Compilation.newScope (some s) (some b) d).2.scope d.scopes.size)).map
        e := by
    rw [scope_newScope c (hS.image_lt hs), scope_newScope d hs, hS.image_size, if_pos rfl,
      if_pos rfl]
    rfl
  obtain ⟨w', hext, hle, hS'⟩ := hf c.scopes.size d.scopes.size _ _ _ (hnew.setHeaded hhead)
    (by rw [hsize]; exact Nat.lt_succ_self _) (.inr rfl) hS.image_size
  rw [hsize] at hext hle
  subst himage
  refine ⟨w', ⟨?_, ?_⟩, Nat.le_of_succ_le hle, hS'⟩
  · exact fun x hx => hext.image x (Nat.lt_succ_of_lt hx)
  · exact fun x hx hw => hext.headed x (Nat.lt_succ_of_lt hx) (.inl ⟨hw, ne_of_lt hx⟩)

end Walks

/-! ## Chains of statements -/

theorem head_append {x y : Scope} (h : x.statements = y.statements.map e) (b : BlockRef) :
    scopeHead? { x with statements := x.statements ++ [e b] } =
      (scopeHead? { y with statements := y.statements ++ [b] }).map e := by
  unfold scopeHead?
  dsimp only
  rw [h]
  cases y.statements with
  | nil => rfl
  | cons a r => rfl

/-- The first statement that is found live heads its scope. -/
theorem Parallel.addStatement (hS : Parallel e q off w c d) (hs : s < d.scopes.size)
    (hb : b < q.workspace.size) (henabled : q.workspace.isEnabled b = true) :
    Parallel e q off { w with headed := fun t => w.headed t ∨ t = s }
      (c.updateScope (w.image s) fun x => { x with statements := x.statements ++ [e b] })
      (d.updateScope s fun x => { x with statements := x.statements ++ [b] }) := by
  have halike := hS.scopes s hs
  have hhead := head_append halike.statements b
  refine (hS.updateScope hs ?_).setHeaded ?_
  · refine { halike with statements := ?_, enabled := ?_, head := .inl hhead }
    · show _ ++ [e b] = List.map e (_ ++ [b])
      rw [halike.statements, map_append]
      rfl
    · intro x hx
      rcases mem_append.mp hx with hx | hx
      · exact halike.enabled x hx
      · rw [mem_singleton.mp hx]
        exact ⟨hb, henabled⟩
  · rw [scope_updateScope_self c (hS.image_lt hs), scope_updateScope_self d hs]
    exact hhead

section Agreeing

variable (h : Agrees e p q) {visit visit' : BlockRef → ScopeId → TrackM Unit}

theorem visitStatement_dead (hb : p.isLive c b = false) :
    p.visitStatement visit scope b c = ((), c) := by
  show (if p.isLive c b = true then _ else (pure () : TrackM Unit)) c = _
  rw [hb]
  rfl

theorem visitStatement_live (hb : p.isLive c b = true) :
    p.visitStatement visit scope b c = visit b scope (c.updateScope scope
      fun x => { x with statements := x.statements ++ [b] }) := by
  show (if p.isLive c b = true then _ else (pure () : TrackM Unit)) c = _
  rw [hb]
  rfl

/-- The rest of a list is walked from where its head leads. -/
theorem forM_cons_run {α : Type} (f : α → TrackM Unit) (a : α) (r : List α) (c : Compilation) :
    (a :: r).forM f c = r.forM f (f a c).2 :=
  rfl

theorem visitChain_dead {l : List BlockRef} (hl : ∀ b ∈ l, p.isLive c b = false) :
    l.forM (p.visitStatement visit scope) c = ((), c) := by
  induction l with
  | nil => rfl
  | cons b r ih =>
    rw [forM_cons_run, visitStatement_dead (hl b (.head _))]
    exact ih fun x hx => hl x (.tail b hx)

include h

/-- The statements of two chains, from the moment on at which their scope is opened. -/
theorem walks_chain {l k : List BlockRef}
    (hlk : Woven e (p.isLive { disabled := off.map e } · = false)
      (q.isLive { disabled := off } · = false) (q.isLive { disabled := off } · = true) l k)
    (hk : ∀ b ∈ k, b < q.workspace.size)
    (hvisit : ∀ b ∈ k, q.isLive { disabled := off } b = true →
      Walks e q off s' s (visit (e b) s') (visit' b s))
    (hS : Parallel e q off w c d) (hs : s < d.scopes.size) (himage : w.image s = s') :
    ∃ w', w.Extends w' d.scopes.size ∧
      d.scopes.size ≤ (k.forM (q.visitStatement visit' s) d).2.scopes.size ∧
      Parallel e q off w' (l.forM (p.visitStatement visit s') c).2
        (k.forM (q.visitStatement visit' s) d).2 := by
  induction hlk generalizing w c d with
  | nil => exact ⟨w, .refl w _, le_rfl, hS⟩
  | @left x l k hx _ ih =>
    rw [forM_cons_run, visitStatement_dead ((p.isLive_congr hS.leftOff x).trans hx)]
    exact ih hk hvisit hS hs himage
  | @right y l k hy _ ih =>
    rw [forM_cons_run, visitStatement_dead ((q.isLive_congr hS.rightOff y).trans hy)]
    exact ih (fun b hb => hk b (.tail y hb)) (fun b hb => hvisit b (.tail y hb)) hS hs himage
  | @both y l k hy _ ih =>
    have henabled := ((isLive_iff h.right_sound).mp hy).1
    have hadd := hS.addStatement hs (hk y (.head _)) henabled
    obtain ⟨w₁, hext₁, hsize₁, hS₁⟩ := hvisit y (.head _) hy _ _ _ hadd
      (by rw [size_updateScope]; exact hs) (.inr rfl) himage
    rw [size_updateScope] at hext₁ hsize₁
    obtain ⟨w₂, hext₂, hsize₂, hS₂⟩ := ih (fun b hb => hk b (.tail y hb))
      (fun b hb => hvisit b (.tail y hb)) hS₁ (lt_of_lt_of_le hs hsize₁)
      ((hext₁.image s hs).trans himage)
    have hleft : p.visitStatement visit s' (e y) c = visit (e y) s' (c.updateScope (w.image s)
        fun x => { x with statements := x.statements ++ [e y] }) := by
      rw [himage]
      refine visitStatement_live ?_
      exact (h.isLive (d := { disabled := off }) hS.leftOff y).trans hy
    have hright : q.visitStatement visit' s y d = visit' y s (d.updateScope s
        fun x => { x with statements := x.statements ++ [y] }) :=
      visitStatement_live ((q.isLive_congr hS.rightOff y).trans hy)
    refine ⟨w₂, ⟨?_, ?_⟩, ?_, ?_⟩
    · exact fun x hx => (hext₂.image x (lt_of_lt_of_le hx hsize₁)).trans (hext₁.image x hx)
    · exact fun x hx hw => hext₂.headed x (lt_of_lt_of_le hx hsize₁) (hext₁.headed x hx (.inl hw))
    · rw [forM_cons_run, hright]
      exact le_trans hsize₁ hsize₂
    · rw [forM_cons_run, forM_cons_run, hleft, hright]
      exact hS₂

/-! ## Blocks -/

theorem walks_dead (hb : q.isLive { disabled := off } b = false) (m n : Nat) :
    Walks e q off s' s (p.visitFrom m (e b) s') (q.visitFrom n b s) := by
  have hdead : ∀ (p : Program) c b m s, p.isLive c b = false → p.visitFrom m b s c = ((), c) := by
    intro p c b m s hb
    cases m with
    | zero => rfl
    | succ m =>
      show (if p.isLive c b = true then _ else (pure () : TrackM Unit)) c = _
      rw [hb]
      rfl
  intro w c d hS hs hheaded himage
  have hright : q.isLive d b = false := (q.isLive_congr hS.rightOff b).trans hb
  have hleft : p.isLive c (e b) = false := (h.isLive (d := { disabled := off }) hS.leftOff b).trans hb
  rw [hdead p c (e b) m s' hleft, hdead q d b n s hright]
  exact ⟨w, .refl w _, le_rfl, hS⟩

/-- The live statements of chains whose enabled statements are the same. -/
theorem woven_chain {first first' : Option BlockRef} (hchain : SameEnabled e p q first first') :
    Woven e (p.isLive { disabled := off.map e } · = false)
      (q.isLive { disabled := off } · = false) (q.isLive { disabled := off } · = true)
      (p.workspace.chain first) (q.workspace.chain first') :=
  .of_filter (h.filter_live_of_enabled rfl hchain)

theorem walks_visitInput {operands : List String} {i j : Input}
    (hij : AgreesInput e p q operands i j) (hlt : ∀ t, j.target = some t → t < q.workspace.size)
    (hvisit : ∀ x ∈ q.workspace.chain j.target, ∀ r' r,
      Walks e q off r' r (visit (e x) r') (visit' x r)) :
    Walks e q off s' s (p.visitInput visit s' i) (q.visitInput visit' s j) := by
  unfold visitInput
  rw [hij.kind]
  cases hkind : j.kind with
  | value =>
    rw [hij.target (.inl hkind)]
    cases ht : j.target with
    | none => exact Walks.pure
    | some t =>
      rw [ht] at hvisit
      exact hvisit t (mem_chain_self h.right_sound (hlt t ht)) s' s
  | statement =>
    have hchain := hij.chain
    cases ht : j.target with
    | none =>
      rw [ht] at hchain
      cases hi : i.target with
      | none => exact Walks.pure
      | some t =>
        -- a body of which nothing is left: only the larger program opens a scope
        rw [hi] at hchain
        unfold SameEnabled at hchain
        rw [chain_none, filter_nil, map_nil, filter_eq_nil_iff] at hchain
        have hdead : ∀ c b, b ∈ p.workspace.chain (some t) → p.isLive c b = false := by
          intro c b hb
          unfold isLive
          rw [Bool.eq_false_iff.mpr (hchain b hb), Bool.false_and]
        intro w c d hS hs hheaded himage
        subst himage
        refine ⟨w.skip d.scopes.size, ⟨?_, fun _ _ hw => hw⟩, le_rfl, ?_⟩
        · exact fun x hx => ScopeMap.skip_of_lt w hx
        · show Parallel e q off _ ((p.workspace.chain (some t)).forM
            (p.visitStatement visit c.scopes.size)
            (newScope (some (w.image s)) (some t) c).2).2 d
          rw [visitChain_dead (hdead _)]
          exact hS.openBlank hs t
    | some t' =>
      obtain ⟨t, hi, hfirst⟩ := hij.opens t' ht
      rw [ht] at hchain hvisit
      rw [hi] at hchain ⊢
      intro w c d hS hs hheaded himage
      subst himage
      have hnew := hS.newScope hs hheaded hfirst
      have hsize := size_newScope d s (some t')
      have hmem : ∀ x ∈ q.workspace.chain (some t'), x < q.workspace.size := fun x hx =>
        (under_of_mem_chain h.right_sound (hlt t' ht) hx).lt h.right_sound (hlt t' ht)
      obtain ⟨w', hext, hle, hS'⟩ := walks_chain h (woven_chain h hchain) hmem
        (fun x hx _ => hvisit x hx c.scopes.size d.scopes.size) hnew
        (by rw [hsize]; exact Nat.lt_succ_self _) hS.image_size
      rw [hsize] at hext hle
      refine ⟨w', ⟨?_, ?_⟩, Nat.le_of_succ_le hle, hS'⟩
      · exact fun x hx => hext.image x (Nat.lt_succ_of_lt hx)
      · exact fun x hx hw => hext.headed x (Nat.lt_succ_of_lt hx) ⟨hw, ne_of_lt hx⟩

theorem walks_visitLive (hb : AgreesBlock e p q b) (hvisit : List.Forall₂ (fun i j => ∀ r' r,
      Walks e q off r' r (p.visitInput visit r' i) (q.visitInput visit' r j))
      (p.block (e b)).inputs (q.block b).inputs) :
    Walks e q off s' s (p.visitLive visit (e b) s') (q.visitLive visit' b s) := by
  have hinputs : ∀ r' r, Walks e q off r' r ((p.block (e b)).inputs.forM (p.visitInput visit r'))
      ((q.block b).inputs.forM (q.visitInput visit' r)) :=
    fun r' r => Walks.forM (hvisit.imp fun _ _ hij => hij r' r)
  have hplace : ∀ r' r, Walks e q off r' r (place (e b) r') (place b r) := by
    intro r' r
    refine Walks.of_at ?_
    rintro w k rfl
    exact at_place h b
  unfold visitLive
  refine Walks.bind (hplace s' s) (Walks.bind (Walks.of_at ?_) ?_)
  · rintro w k rfl
    exact at_visitSelf hb
  rw [ownDeclarations_eq h hb]
  refine Walks.bind_at (fun _ _ _ => at_graph _) ?_
  rintro declared _ rfl
  unfold inputScope
  split
  · rw [pure_bind, pure_bind]
    exact hinputs s' s
  · simp only [bind_assoc, pure_bind]
    refine Walks.newScope h b fun r' r => ?_
    refine Walks.bind (Walks.forM (forall₂_same.mpr fun own _ => Walks.of_at ?_))
      (Walks.bind (hplace r' r) (hinputs r' r))
    rintro w k rfl
    exact at_declareOwn b own

/-- The walk takes the same course below a block if it may go as many levels deep as there are
blocks. -/
theorem walks_visitFrom (n m : Nat) (hb : b < q.workspace.size) (hn : q.workspace.reach b ≤ n)
    (hm : p.workspace.reach (e b) ≤ m) (s' s : Nat) :
    Walks e q off s' s (p.visitFrom m (e b) s') (q.visitFrom n b s) := by
  induction n generalizing m b s' s with
  | zero =>
    have := reach_pos hb
    omega
  | succ n ih =>
    cases m with
    | zero =>
      have := reach_pos ((h.lt b).mpr hb)
      omega
    | succ m =>
      refine Walks.live h fun hlive => ?_
      have hblock := h.blockAt hb ((isLive_iff h.right_sound).mp hlive).1
      refine walks_visitLive h hblock ((forall₂_mem hblock.inputs).imp ?_)
      rintro i j ⟨hij, hi, hj⟩ r' r
      have hlt : ∀ t, j.target = some t → t < q.workspace.size := fun t ht =>
        h.right_sound.child_lt b t (mem_append_left _ (mem_targets hj ht))
      refine walks_visitInput h hij hlt fun x hx r' r => ?_
      cases hlivex : q.isLive { disabled := off } x with
      | false => exact walks_dead h hlivex m n
      | true =>
        have hmem : e x ∈ p.workspace.chain i.target := by
          have hfilter := h.filter_live_of_enabled (c := { disabled := off.map e })
            (d := { disabled := off }) rfl hij.chain
          refine mem_of_mem_filter (hfilter ▸ mem_map_of_mem ?_)
          exact mem_filter.mpr ⟨hx, hlivex⟩
        have hxq := Pairing.reach_lt_of_mem_chain h.right_sound hj hx
        have hxp := Pairing.reach_lt_of_mem_chain h.left_sound hi hmem
        have hxlt : x < q.workspace.size := by
          cases ht : j.target with
          | none =>
            rw [ht, chain_none] at hx
            cases hx
          | some t =>
            rw [ht] at hx
            exact (under_of_mem_chain h.right_sound (hlt t ht) hx).lt h.right_sound (hlt t ht)
        exact ih m hxlt (by omega) (by omega) r' r

theorem walks_visit (hb : b < q.workspace.size) (s' s : Nat) :
    Walks e q off s' s (p.visit (e b) s') (q.visit b s) :=
  walks_visitFrom h _ _ hb (reach_le b) (reach_le (e b)) s' s

/-! ## Top blocks -/

theorem walks_chainOf {first first' : Option BlockRef} (hchain : SameEnabled e p q first first')
    (hlt : ∀ t, first' = some t → t < q.workspace.size) :
    Walks e q off s' s ((p.workspace.chain first).forM (p.visitStatement p.visit s'))
      ((q.workspace.chain first').forM (q.visitStatement q.visit s)) := by
  have hmem : ∀ x ∈ q.workspace.chain first', x < q.workspace.size := by
    intro x hx
    cases first' with
    | none =>
      rw [chain_none] at hx
      cases hx
    | some t =>
      have ht := hlt t rfl
      exact (under_of_mem_chain h.right_sound ht hx).lt h.right_sound ht
  intro w c d hS hs _ himage
  exact walks_chain h (woven_chain h hchain) hmem (fun x hx _ => walks_visit h (hmem x hx) s' s) hS
    hs himage

omit h in
theorem forM_filterMap {α β : Type} (f : α → Option β) (g : β → TrackM Unit) (l : List α) :
    (l.filterMap f).forM g = l.forM fun a => (f a).elim (pure ()) g := by
  induction l with
  | nil => rfl
  | cons a r ih =>
    show _ = ((f a).elim (pure ()) g >>= fun _ => r.forM fun a => (f a).elim (pure ()) g)
    rw [filterMap_cons, ← ih]
    cases f a with
    | none => rw [Option.elim_none, pure_bind]
    | some x => rfl

omit h in
theorem visitChain_elim (visit : BlockRef → ScopeId → TrackM Unit) (scope : ScopeId)
    (first : Option BlockRef) :
    (first.elim (pure ()) fun t => p.visitChain visit t scope) =
      (p.workspace.chain first).forM (p.visitStatement visit scope) := by
  cases first with
  | none =>
    rw [chain_none]
    rfl
  | some t => rfl

theorem walks_visitTop (hb : b < q.workspace.size) (henabled : q.workspace.isEnabled b = true) :
    Walks e q off rootScope rootScope (p.visitTop (e b)) (q.visitTop b) := by
  have hblock := h.blockAt hb henabled
  unfold visitTop
  rw [hblock.kind, h.isContainer_eq hblock]
  split
  · refine Walks.bind (Walks.of_at fun w k himage => ?_) ?_
    · have hplace : Pairs (At e q off w rootScope k) Eq
          (place (e b) (w.image rootScope)) (place b rootScope) := at_place h b
      rw [himage] at hplace
      exact hplace
    · rw [forM_filterMap, forM_filterMap]
      refine Walks.forM ((forall₂_mem hblock.statementInputs).imp ?_)
      rintro i j ⟨hij, _, hj⟩
      rw [visitChain_elim, visitChain_elim]
      refine walks_chainOf h hij.chain fun t ht => ?_
      have htarget := mem_targets (mem_of_mem_filter hj) ht
      exact h.right_sound.child_lt b t (mem_append_left _ htarget)
  · split
    · exact walks_visit h hb rootScope rootScope
    · refine walks_chainOf h (h.chain b hb henabled) ?_
      intro t ht
      cases ht
      exact hb

theorem at_declareVariable (v : VariableModel) :
    Pairs (At e q off w s k) Eq (p.declareVariable v) (q.declareVariable v) := by
  unfold declareVariable
  rw [h.surface]
  extract_lets isMember
  refine Pairs.bind_get fun c d hS => ?_
  have hdeclared := (hS.scopes rootScope hS.root_lt).declared
  rw [hS.root] at hdeclared
  rw [hdeclared]
  split
  · exact Pairs.pure rfl
  · refine Pairs.bind (at_graph _) ?_
    rintro node _ rfl
    exact Pairs.bind (at_declare_root v.name node) fun _ _ _ => Pairs.pure rfl

theorem visitOrder_eq (hdisabled : c.disabled = d.disabled.map e) :
    p.visitOrder c = (q.visitOrder d).map e := by
  have htops := h.filter_live_of_enabled hdisabled h.tops_enabled
  have hblock : ∀ b ∈ q.workspace.topBlocks.filter (q.isLive d), AgreesBlock e p q b := by
    intro b hb
    obtain ⟨htop, hlive⟩ := mem_filter.mp hb
    exact h.blockAt (mem_range.mp (mem_of_mem_filter htop)) ((isLive_iff h.right_sound).mp hlive).1
  have hfilter : ∀ (l : List BlockRef) (f g : BlockRef → Bool), (∀ b ∈ l, f (e b) = g b) →
      (l.map e).filter f = (l.filter g).map e := by
    intro l f g hfg
    rw [filter_map]
    exact congrArg _ (filter_congr hfg)
  have hothers : ∀ b ∈ (q.workspace.topBlocks.filter (q.isLive d)).filter (q.kind · ≠ .onStart),
      p.isContainer (e b) = q.isContainer b :=
    fun b hb => h.isContainer_eq (hblock b (mem_of_mem_filter hb))
  unfold visitOrder
  dsimp only
  rw [htops, hfilter _ (p.kind · ≠ .onStart) (q.kind · ≠ .onStart)
      fun b hb => by rw [(hblock b hb).kind],
    hfilter _ (p.kind · = .onStart) (q.kind · = .onStart) fun b hb => by rw [(hblock b hb).kind],
    hfilter _ p.isContainer q.isContainer hothers,
    hfilter _ (fun b => !p.isContainer b) (fun b => !q.isContainer b)
      fun b hb => by rw [hothers b hb],
    map_append, map_append]

/-- Opening all scopes of the programs keeps the runs parallel. -/
theorem walks_visitAll : Walks e q off rootScope rootScope p.visitAll q.visitAll := by
  unfold visitAll
  rw [h.vars]
  refine Walks.bind (Walks.forM (forall₂_same.mpr fun v _ => ?_)) ?_
  · exact Walks.of_at fun w k _ => at_declareVariable h v
  · intro w c d hS hs hheaded himage
    have horder := visitOrder_eq h (c := c) (d := d) (by rw [hS.leftOff, hS.rightOff])
    have htops : ∀ b ∈ q.visitOrder d,
        Walks e q off rootScope rootScope (p.visitTop (e b)) (q.visitTop b) := by
      intro b hb
      obtain ⟨htop, hlive⟩ := mem_visitOrder.mp hb
      exact walks_visitTop h (mem_range.mp (mem_of_mem_filter htop))
        ((isLive_iff h.right_sound).mp hlive).1
    have hforM := Walks.forM (forall₂_map_left e htops) w c d hS hs hheaded himage
    rw [← horder] at hforM
    exact hforM

omit h in
/-- Before the walk, both runs have a root scope that nothing is in. -/
theorem parallel_fresh (off : List BlockRef) (taken : List String) :
    Parallel e q off ⟨id, fun _ => True⟩ { disabled := off.map e, taken }
      { disabled := off, taken } := by
  refine ⟨strictMono_id, rfl, Nat.one_pos, trivial, fun _ => rfl, ?_, fun t ht => absurd rfl (ht t),
    rfl, Array.map_empty.symm, fun _ => rfl, ?_, fun _ => rfl, rfl, rfl, rfl, rfl⟩
  · intro s hs
    obtain rfl : s = 0 := Nat.lt_one_iff.mp hs
    refine ⟨rfl, ?_, .nil, ?_, rfl, rfl, rfl, rfl, ?_, .inl rfl, ?_⟩
    · intro t ht
      cases ht
    · intro t ht
      cases ht
    · intro b hb
      cases hb
    · intro f _
      exact ⟨fun hf => (by cases hf), fun hf => (by cases hf)⟩
  · intro b s hs
    cases hs

theorem parallel_visitAll : ∃ w, Parallel e q q.selectTops.disabled w
    (p.visitAll (p.start p.selectTops)).2 (q.visitAll (q.start q.selectTops)).2 := by
  have htaken : p.takenNames = q.takenNames := by
    unfold takenNames
    rw [h.identifiers, h.surface]
  have hoff : p.selectTops.disabled = q.selectTops.disabled.map e := by
    rw [h.selectTops_eq]
    rfl
  have hfresh := parallel_fresh (e := e) (q := q) q.selectTops.disabled q.takenNames
  obtain ⟨w, _, _, hS⟩ := walks_visitAll h _ _ _ hfresh Nat.one_pos trivial rfl
  refine ⟨w, ?_⟩
  unfold start
  rw [hoff, htaken]
  exact hS

end Agreeing

end BlockProgram
