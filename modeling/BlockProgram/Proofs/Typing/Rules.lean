import BlockProgram.Proofs.TypeGraph.Check
import BlockProgram.Proofs.Typing.Result
import BlockProgram.Typing.Rules

/-!
# Typing rules pin types down

Every typing rule proceeds. One that expects a number, a text or a truth value of an input and
succeeds has found a node for the input that has the expected type or the dynamic one, and the input
keeps it from then on (`Pinned`).
-/

namespace BlockProgram

open TypeGraph Program List

variable {n : NodeId} {input : String} {t : TypeName} {b : BlockRef} {c' : Compilation}

variable {p : Program} {c : Compilation}

/-! ## Expected types -/

section Graph

variable {g : TypeGraph}

theorem runs_isDynamic (hg : g.WellFormed) (n : NodeId) : Runs Changes (isDynamic n) g
      (fun r h => (r = true ↔ g.typeAt n = some .any) ∧ SameClasses g h) := by
  unfold isDynamic
  refine .bind ((runs_typeOf hg n).mono fun _ hc => hc.changes) ?_
  rintro t h _ ⟨rfl, hs⟩
  exact .pure _ ⟨beq_iff_eq, hs⟩

/-- Two classes that have been united are one, unless one of them is dynamic. -/
theorem moves_unite (hg : g.WellFormed) {a b : NodeId} (ha : a < g.size) (hb : b < g.size) :
    Moves Changes (unite a b) g (fun _ h => g.typeAt a = some .any ∨ g.typeAt b = some .any ∨
        h.typeAt a = h.typeAt b ∧ ∃ t, TypeName.unify (g.typeAt a) (g.typeAt b) = .ok t) := by
  unfold unite
  refine .bind (.lift (runs_isDynamic hg a)) ?_
  rintro da g1 h1 ⟨hda, hs1⟩
  have hg1 := h1.wellFormed hg
  split
  · next hd => exact .pure _ (.inl (hda.mp hd))
  · refine .bind (.lift (runs_isDynamic hg1 b)) ?_
    rintro db g2 h2 ⟨hdb, hs2⟩
    have hg2 := h2.wellFormed hg1
    split
    · next hd =>
      rw [hs1.typeAt_eq] at hdb
      exact .pure _ (.inr (.inl (hdb.mp hd)))
    · have hsize : g.size ≤ g2.size := Changes.size_le (h1.trans h2) hg
      have ha2 := lt_of_lt_of_le ha hsize
      have hb2 := lt_of_lt_of_le hb hsize
      have hok : Ensures (union a b) g2
          (fun _ _ => ∃ t, TypeName.unify (g2.typeAt a) (g2.typeAt b) = .ok t)
          (fun _ _ => True) :=
        Ensures.intro (fun _ _ hm => union_unifies hg2 ha2 hb2 hm) (fun _ _ _ => trivial)
      refine (Ensures.and (moves_union hg2 a b ha2 hb2) hok).imp ?_ (fun _ _ h => h.1)
      rintro _ h ⟨⟨hc, hroot⟩, hunify⟩
      rw [hs2.typeAt_eq, hs2.typeAt_eq, hs1.typeAt_eq, hs1.typeAt_eq] at hunify
      exact ⟨hc, .inr (.inr ⟨typeAt_congr hroot, hunify⟩)⟩

theorem runs_expectedNode (hp : g.HasPrimitives) (t : TypeName) :
    Runs Changes (expectedNode t) g (fun e h => ∀ n, e = some n → n < h.size) := by
  have hnode : ∀ (m : GraphM NodeId) (u : Option TypeName),
      Runs Changes m g (fun n h => n < h.size ∧ h.typeAt n = u) →
      Runs Changes (some <$> m) g (fun e h => ∀ n, e = some n → n < h.size) := by
    rintro m u ⟨hc, hn, _⟩
    refine ⟨hc, ?_⟩
    rintro n hsome
    cases hsome
    exact hn
  unfold expectedNode
  split
  · refine .pure _ ?_
    intro n hn
    cases hn
  · split
    · exact hnode _ _ (runs_addNode _ _)
    · exact hnode _ _ (runs_ground hp t)

theorem moves_expect (hg : g.WellFormed) (hp : g.HasPrimitives) (hn : n < g.size) (t : TypeName) :
    Moves Changes (expect n t) g (fun _ _ => True) := by
  unfold expect
  refine .bind (.lift (runs_expectedNode hp t)) ?_
  intro e g1 h1 he
  split
  · next m =>
    have hn1 := lt_of_lt_of_le hn (h1.size_le hg)
    exact (moves_unite (h1.wellFormed hg) hn1 (he m rfl)).imp (fun _ _ _ _ => trivial)
  · exact .pure _ trivial

/-- The types that rules expect of operands: each has a shared node, and none is a list. -/
def operandTypes : List TypeName :=
  [.number, .text, .boolean]

theorem runs_expectedNode_operand (hp : g.HasPrimitives) (ht : t ∈ operandTypes) :
    Runs Changes (expectedNode t) g (fun e h => h = g ∧ ∃ m, e = some m ∧ g.typeAt m = some t) := by
  simp only [operandTypes, mem_cons, not_mem_nil, or_false] at ht
  rcases ht with rfl | rfl | rfl
  · exact ⟨Std.Refl.refl g, rfl, numberNode, rfl, hp.number⟩
  · exact ⟨Std.Refl.refl g, rfl, textNode, rfl, hp.text⟩
  · exact ⟨Std.Refl.refl g, rfl, booleanNode, rfl, hp.boolean⟩

theorem not_unify_array (ht : t ∈ operandTypes) (u : Option TypeName) :
    TypeName.unify (some .array) (some t) ≠ .ok u := by
  simp only [operandTypes, mem_cons, not_mem_nil, or_false] at ht
  intro h
  rcases ht with rfl | rfl | rfl <;> cases h

theorem operand_ne (ht : t ∈ operandTypes) : t ≠ .array ∧ t ≠ .any := by
  simp only [operandTypes, mem_cons, not_mem_nil, or_false] at ht
  rcases ht with rfl | rfl | rfl <;> decide

theorem ne_array_of_operand {u : TypeName} (ht : t ∈ operandTypes) (h : u = t ∨ u = .any) :
    u ≠ .array := by
  rcases h with rfl | rfl
  · exact (operand_ne ht).1
  · decide

/-- A class that is expected to have an operand type, and may, has it or is dynamic. It was no bare
list before. -/
theorem moves_expect_operand (hg : g.WellFormed) (hp : g.HasPrimitives) (hn : n < g.size)
    (ht : t ∈ operandTypes) :
    Moves Changes (expect n t) g (fun _ h => (h.typeAt n = some t ∨ h.typeAt n = some .any) ∧
        g.typeAt n ≠ some .array) := by
  unfold expect
  refine .bind (.lift (runs_expectedNode_operand hp ht)) ?_
  rintro e g1 _ ⟨rfl, m, rfl, hm⟩
  refine (moves_unite hg hn (lt_size_of_typeAt hm)).imp ?_
  intro _ h hc hcases
  have hext := hc.extends hg
  rcases hcases with hdyn | hdyn | ⟨hsame, u, hu⟩
  · refine ⟨.inr (hext.type_eq n _ hdyn (by decide)), ?_⟩
    rw [hdyn]
    decide
  · rw [hm] at hdyn
    exact absurd (Option.some.inj hdyn) (operand_ne ht).2
  · refine ⟨.inl (hsame.trans (hext.type_eq m t hm (operand_ne ht).1)), ?_⟩
    intro harray
    rw [harray, hm] at hu
    exact not_unify_array ht u hu

end Graph

/-! ## Inputs -/

theorem placeholder_lt_of_attached {i : PlaceholderId}
    (h : p.attached? c b input = some (.placeholder i)) : i < c.placeholders.size := by
  unfold attached? at h
  split at h
  · cases h
  · obtain ⟨j, hj, hij⟩ := Option.map_eq_some_iff.mp h
    cases hij
    unfold Compilation.placeholderOf? at hj
    exact (Array.findIdx?_eq_some_iff_getElem.mp hj).1

theorem Advances.placeholder_eq {c c' : Compilation} (h : Advances c c') {i : PlaceholderId}
    (hi : i < c.placeholders.size) : c'.placeholder i = c.placeholder i := by
  obtain ⟨l, hl⟩ := h.placeholders
  unfold Compilation.placeholder
  rw [← Array.getElem?_toList, ← Array.getElem?_toList, ← hl, getElem?_append_left]
  exact hi

/-- What answers for the target of an input keeps doing so. -/
theorem AnswersTarget.advance {t : Target} (h : AnswersTarget p c n t)
    (ht : p.attached? c b input = some t) (hadv : Advances c c')
    (hlist : c.graph.typeAt n ≠ some .array) : AnswersTarget p c' n t := by
  cases t with
  | block x =>
    refine Answers.advance h hadv ?_
    intro hs
    apply hlist
    have hx : Answers p c x n := h
    unfold Answers at hx
    rw [hs] at hx
    exact hx
  | placeholder i =>
    show n = (c'.placeholder i).node
    rw [hadv.placeholder_eq (placeholder_lt_of_attached ht)]
    exact h

/-- An input is known, and its node has type `t` or the dynamic one. -/
def Pinned (p : Program) (c : Compilation) (b : BlockRef) (input : String) (t : TypeName) : Prop :=
  ∃ target n u, p.attached? c b input = some target ∧ AnswersTarget p c n target ∧
    c.graph.typeAt n = some u ∧ (u = t ∨ u = .any)

theorem Pinned.advance (h : Pinned p c b input t) (hadv : Advances c c') (ht : t ∈ operandTypes) :
    Pinned p c' b input t := by
  obtain ⟨target, n, u, htarget, hanswers, hu, hor⟩ := h
  have hne := ne_array_of_operand ht hor
  refine ⟨target, n, u, hadv.attached?_eq htarget, ?_, hadv.graph.type_eq n u hu hne, hor⟩
  refine hanswers.advance htarget hadv ?_
  rw [hu]
  exact fun harray => hne (Option.some.inj harray)

/-- The state between two blocks: consistent, and no function in progress. -/
structure Idle (p : Program) (c : Compilation) : Prop where
  consistent : Consistent p c
  inProgress : c.inProgress = []

section

variable (hc : Idle p c)
include hc

theorem Idle.proceed (h : Proceeds p c c') : Idle p c' := by
  obtain ⟨hcons, hadv⟩ := h hc.consistent
  exact ⟨hcons, by rw [hadv.inProgress, hc.inProgress]⟩

theorem moves_expectInput (b : BlockRef) (input : String) (t : TypeName) :
    Moves (Proceeds p) (p.expectInput b input t) c
      (fun n c' => n < c'.graph.size ∧ (t ∈ operandTypes → Pinned p c' b input t)) := by
  unfold expectInput
  refine .bind (.lift (runs_attach hc.consistent b input (some t))) ?_
  intro target c1 h1 htarget
  have hc1 := hc.proceed h1
  refine .bind (moves_typeOfTarget hc1.consistent target) ?_
  rintro n c2 h2 ⟨hn, hanswers⟩
  have hc2 := hc1.proceed h2
  have htarget2 := (h2 hc1.consistent).2.attached?_eq htarget
  have hexpect : Moves (Proceeds p) (liftM (expect n t) : TypingM Unit) c2
      (fun _ c' => t ∈ operandTypes → (c'.graph.typeAt n = some t ∨ c'.graph.typeAt n = some .any) ∧
          c2.graph.typeAt n ≠ some .array) := by
    by_cases ht : t ∈ operandTypes
    · refine (moves_unify (moves_expect_operand hc2.consistent.graph hc2.consistent.primitives hn
        ht)).imp ?_
      rintro _ c3 _ ⟨_, h3⟩ _
      exact h3
    · refine (moves_unify (moves_expect hc2.consistent.graph hc2.consistent.primitives hn t)).imp ?_
      intro _ c3 _ _ ht'
      exact absurd ht' ht
  refine .bind hexpect ?_
  intro _ c3 h3 hfits
  obtain ⟨_, hadv3⟩ := h3 hc2.consistent
  refine .pure n ⟨hadv3.lt hn, fun ht => ?_⟩
  obtain ⟨htype, hlist⟩ := hfits ht
  have hanswers3 := (hanswers hc1.inProgress).advance htarget2 hadv3 hlist
  rcases htype with htype | htype
  · exact ⟨target, n, t, hadv3.attached?_eq htarget2, hanswers3, htype, .inl rfl⟩
  · exact ⟨target, n, _, hadv3.attached?_eq htarget2, hanswers3, htype, .inr rfl⟩

theorem moves_expectInputs (b : BlockRef) (t : TypeName) (inputs : List String) :
    Moves (Proceeds p) (p.expectInputs b t inputs) c
      (fun _ c' => ∀ i ∈ inputs, t ∈ operandTypes → Pinned p c' b i t) := by
  unfold expectInputs
  refine Moves.forM (I := Idle p) (fun _ _ => Idle.proceed) ?_ inputs ?_ hc
  · intro i d d' hd hpinned h ht
    exact (hpinned ht).advance (h hd.consistent).2 ht
  · intro i _ d hd
    refine .bind (moves_expectInput hd b i t) ?_
    rintro n d' _ ⟨_, hpinned⟩
    exact .pure _ hpinned

/-! ## The other rules proceed -/

/-- A step between blocks, with the state and the facts that it leaves. -/
theorem Moves.bind_idle {α β : Type} {m : TypingM α} {f : α → TypingM β}
    {Q : α → Compilation → Prop} {T : β → Compilation → Prop} (h : Moves (Proceeds p) m c Q)
    (hf : ∀ a c', Idle p c' → Advances c c' → Q a c' → Moves (Proceeds p) (f a) c' T) :
    Moves (Proceeds p) (m >>= f) c T :=
  .bind h (fun a c' hp hq => hf a c' (hc.proceed hp) (hp hc.consistent).2 hq)

theorem moves_inputType (b : BlockRef) (input : String) :
    Moves (Proceeds p) (p.inputType b input) c (fun n c' => n < c'.graph.size) :=
  moves_attachedType (typer_blockType p) hc.consistent input b

theorem moves_unite_typing {a b : NodeId} (ha : a < c.graph.size) (hb : b < c.graph.size) :
    Moves (Proceeds p) (liftM (unite a b) : TypingM Unit) c (fun _ _ => True) :=
  (moves_unify (moves_unite hc.consistent.graph ha hb)).imp (fun _ _ _ _ => trivial)

theorem moves_expect_typing (hn : n < c.graph.size) (t : TypeName) :
    Moves (Proceeds p) (liftM (expect n t) : TypingM Unit) c (fun _ _ => True) :=
  (moves_unify (moves_expect hc.consistent.graph hc.consistent.primitives hn t)).imp
    (fun _ _ _ _ => trivial)

theorem moves_link {l e : NodeId} (hl : l < c.graph.size) (he : e < c.graph.size) :
    Moves (Proceeds p) (liftM (linkElement l e) : TypingM Unit) c (fun _ _ => True) :=
  (moves_linkElement_typing hc.consistent hl he).imp (fun _ _ _ _ => trivial)

theorem moves_resolvedType (n : NodeId) :
    Moves (Proceeds p) (liftM (resolvedType n) : TypingM (Option TypeName)) c (fun _ _ => True) :=
  (moves_graph ((runs_resolvedType hc.consistent.graph n).mono fun _ h => h.changes)).imp
    (fun _ _ _ _ => trivial)

theorem moves_typesOfTarget (t : Target) :
    Moves (Proceeds p) (p.typesOfTarget t) c (fun ns c' => ∀ n ∈ ns, n < c'.graph.size) := by
  unfold typesOfTarget
  extract_lets declared
  split
  · refine moves_nodes _ _ ?_ hc.consistent
    intro t d hd
    exact Moves.lift ((runs_ground_tracking hd t).imp (fun _ _ _ h => h.1))
  · refine Moves.bind_idle hc (moves_typeOfTarget hc.consistent t) ?_
    rintro n c1 _ _ ⟨hn, _⟩
    refine Moves.pure _ ?_
    intro m hm
    rw [mem_singleton.mp hm]
    exact hn

theorem moves_assign (hn : n < c.graph.size) (value : Target) :
    Moves (Proceeds p) (p.assign n value) c (fun _ _ => True) := by
  unfold assign
  refine Moves.bind_idle hc (moves_typesOfTarget hc value) ?_
  intro ns c1 hc1 h1 hns
  split
  · exact Moves.pure _ trivial
  · next narrowest rest =>
    refine .bind_idle hc1 (moves_resolvedType hc1 n) ?_
    intro current c2 hc2 h2 _
    refine .bind_idle hc2 (moves_resolvedType hc2 narrowest) ?_
    intro assigned c3 hc3 h3 _
    split
    · exact .pure _ trivial
    · have hnarrow := hns narrowest (.head _)
      exact moves_unite_typing hc3 (h3.lt (h2.lt (h1.lt hn))) (h3.lt (h2.lt hnarrow))

theorem moves_typeItems (list : NodeId) (items : List BlockRef) :
    Moves (Proceeds p) (p.typeItems list items) c (fun _ _ => True) := by
  unfold typeItems
  have hfind := (runs_find hc.consistent.graph list).mono fun _ h => h.changes
  refine Moves.bind_idle hc (moves_graph hfind) ?_
  intro r c1 hc1 _ _
  refine Moves.bind_get ?_
  split
  · exact .pure _ trivial
  · next element he =>
    have helement := hc1.consistent.graph.element_lt r element he
    refine Moves.loop (I := fun d => Idle p d ∧ element < d.graph.size) ?_ items ?_ ⟨hc1, helement⟩
    · rintro d d' ⟨hd, hlt⟩ h
      exact ⟨hd.proceed h, (h hd.consistent).2.lt hlt⟩
    · rintro i _ d ⟨hd, hlt⟩
      refine .bind_idle hd (moves_blockType hd.consistent i) ?_
      rintro n d1 hd1 h1 ⟨hn, _⟩
      exact moves_unite_typing hd1 (h1.lt hlt) hn

theorem moves_typeArgument (b : BlockRef) (scope : Option ScopeId) (a : FunctionArg) :
    Moves (Proceeds p) (p.typeArgument b scope a) c (fun _ _ => True) := by
  unfold typeArgument
  refine Moves.bind_idle hc (moves_inputType hc b a.id) ?_
  intro n c1 hc1 _ hn
  refine Moves.bind_get ?_
  split
  · next v _ => exact moves_unite_typing hc1 hn (hc1.consistent.binding_lt v)
  · exact moves_expect_typing hc1 hn a.type

theorem moves_typeFunctionCall (b : BlockRef) :
    Moves (Proceeds p) (p.typeFunctionCall b) c (fun _ _ => True) := by
  unfold typeFunctionCall
  split
  · exact .pure _ trivial
  · next s _ =>
    refine .bind_get ?_
    refine Moves.loop (I := Idle p) (fun _ _ => Idle.proceed) s.args ?_ hc
    exact fun a _ d hd => moves_typeArgument hd b _ a

end

/-! ## Host calls -/

theorem runs_acceptFirst (types : List TypeName) (hc : Consistent p c) (hn : n < c.graph.size) :
    Runs (Proceeds p) (acceptFirst n types) c (fun _ _ => True) := by
  induction types generalizing c with
  | nil => exact .pure _ trivial
  | cons t r ih =>
    unfold acceptFirst
    refine .bind (runs_graph (runs_expectedNode hc.primitives t)) ?_
    rintro e c1 h1 ⟨_, he⟩
    obtain ⟨hc1, hadv1⟩ := h1 hc
    split
    · exact .pure _ trivial
    · next m =>
      have hattempt : Runs (Proceeds p) (uniteSucceeds n m) c1 (fun _ _ => True) :=
        ⟨proceeds_attempt (moves_unite hc1.graph (hadv1.lt hn) (he m rfl)), trivial⟩
      refine .bind hattempt ?_
      intro ok c2 h2 _
      obtain ⟨hc2, hadv2⟩ := h2 hc1
      split
      · exact .pure _ trivial
      · exact ih hc2 (hadv2.lt (hadv1.lt hn))

theorem moves_typeGeneric (hc : Idle p c) (q : Parameter) {receiver : Option NodeId}
    (hr : ∀ r, receiver = some r → r < c.graph.size) (hn : n < c.graph.size) :
    Moves (Proceeds p) (typeGeneric q receiver n) c (fun _ _ => True) := by
  unfold typeGeneric
  split
  · exact Moves.pure _ trivial
  · next r hsome =>
    have hlt := hr r (Option.filter_eq_some_iff.mp hsome).1
    have hread := (runs_isArrayNode hc.consistent.graph r).mono fun _ h => h.changes
    refine Moves.bind_idle hc (moves_graph hread) ?_
    intro isArray c1 hc1 h1 _
    split
    · exact moves_link hc1 (h1.lt hlt) (h1.lt hn)
    · exact Moves.pure _ trivial

theorem moves_typeParameter (hc : Idle p c) (b : BlockRef) {receiver : Option NodeId}
    (hr : ∀ r, receiver = some r → r < c.graph.size) (q : Parameter) :
    Moves (Proceeds p) (p.typeParameter b receiver q) c
      (fun o c' => ∀ r, o = some r → r < c'.graph.size) := by
  unfold typeParameter
  extract_lets block input
  split
  · refine Moves.bind_idle hc (Moves.lift (runs_attach hc.consistent b input _)) ?_
    intro target c1 hc1 h1 _
    refine Moves.bind_idle hc1 (moves_typeOfTarget hc1.consistent target) ?_
    rintro n c2 hc2 h2 ⟨hn, _⟩
    have hr2 : ∀ r, receiver = some r → r < c2.graph.size :=
      fun r hsome => h2.lt (h1.lt (hr r hsome))
    refine .bind_idle hc2 (moves_typeGeneric hc2 q hr2 hn) ?_
    intro _ c3 hc3 h3 _
    have haccept := runs_acceptFirst q.checks hc3.consistent (h3.lt hn)
    refine .bind_idle hc3 (.lift haccept) ?_
    intro _ c4 _ h4 _
    refine .pure _ ?_
    intro r hsome
    split at hsome
    · cases hsome
      exact h4.lt (h3.lt hn)
    · exact h4.lt (h3.lt (hr2 r hsome))
  · exact .pure _ hr

theorem moves_typeHostCall (hc : Idle p c) (b : BlockRef) (name : String) :
    Moves (Proceeds p) (p.typeHostCall b name) c (fun _ _ => True) := by
  have hloop : ∀ (l : List Parameter) (receiver : Option NodeId) (d : Compilation), Idle p d →
      (∀ r, receiver = some r → r < d.graph.size) →
      Moves (Proceeds p) (l.foldlM (p.typeParameter b) receiver) d (fun _ _ => True) := by
    intro l
    induction l with
    | nil =>
      intro receiver d _ _
      rw [foldlM_nil]
      exact Moves.pure _ trivial
    | cons q r ih =>
      intro receiver d hd hr
      rw [foldlM_cons]
      refine Moves.bind_idle hd (moves_typeParameter hd b hr q) ?_
      intro receiver' d1 hd1 _ hr1
      exact ih receiver' d1 hd1 hr1
  unfold typeHostCall
  split
  · exact Proceeds.refl p c
  · next symbol _ =>
    refine Moves.bind_idle hc (hloop symbol.parameters none c hc ?_) ?_
    · intro r hr
      cases hr
    · intro _ _ _ _ _
      exact Moves.pure _ trivial

/-- What comes after the target of an input is known. -/
theorem moves_expectTarget (hc : Idle p c) (target : Target) (t : TypeName) :
    Moves (Proceeds p) (p.typeOfTarget target >>= fun n => liftM (expect n t)) c
      (fun _ _ => True) := by
  refine Moves.bind_idle hc (moves_typeOfTarget hc.consistent target) ?_
  exact fun n c1 hc1 _ hn => moves_expect_typing hc1 hn.1 t

/-! ## Rules one after another -/

/-- Applies the rules of some blocks, those that are live and visited. -/
def Program.checkEach (p : Program) (l : List BlockRef) : CompileM Unit :=
  l.forM fun b => do
    if p.isChecked (← get) b then p.checkBlock b else pure ()

/-- Types a program from some of its blocks on. -/
def Program.inferFrom (p : Program) (l : List BlockRef) : CompileM Unit := do
  p.checkEach l
  (List.range (← get).bindings.size).forM fun v => settleVariable v

theorem inferFrom_append (p : Program) (l r : List BlockRef) :
    p.inferFrom (l ++ r) = p.checkEach l >>= fun _ => p.inferFrom r := by
  have happend : p.checkEach (l ++ r) = p.checkEach l >>= fun _ => p.checkEach r :=
    forM_append
  unfold inferFrom
  rw [happend, bind_assoc]

end BlockProgram
