import BlockProgram.Proofs.Pairing.Compile
import BlockProgram.Proofs.TypeGraph.Resolution
import BlockProgram.Proofs.Typing.Final
import BlockProgram.Proofs.Typing.Vocabulary

/-!
# What stands in the holes of operators

An operator expects one type of all its operands. A hole among them gets a placeholder of that type
when its turn comes, and code for a hole is the default literal of the type of its placeholder
(`emitInput_hole`). But the rule of a block ends with the first operand that it refuses. The holes
after that are left without a type, and their code is `null` (`hole_default`).
-/

namespace BlockProgram

open Program List Workspace Compilation

variable {t : TypeName} {taken : List String} {disabled : List BlockRef}

namespace TypeGraph

variable {g h : TypeGraph} {n : NodeId}

/-- Nothing is known about the class of a node, and nothing is recorded that could tell. -/
structure Blank (g : TypeGraph) (n : NodeId) : Prop where
  type : g.typeAt n = none
  record : ∀ s, g.record s (g.root n) = none

/-- Resolving a class finds out nothing about those. -/
theorem Blank.inform (hn : g.Blank n) (hf : Informed g h) : h.Blank n := by
  have hrecord : ∀ s, h.record s (h.root n) = none := by
    intro s
    rw [hf.root_eq, hf.record_eq, hn.record]
  refine ⟨?_, hrecord⟩
  by_contra hne
  obtain ⟨t, _, ht⟩ := hf.tells_of_ne (i := n) (by rw [hn.type]; exact hne)
  obtain ⟨s, x, hx, _⟩ := tells_iff.mp ht
  rw [hrecord] at hx
  cases hx

/-- A new node of unknown type is like one that does not exist. -/
theorem Blank.addNode (hg : g.WellFormed) (hn : g.Blank n) : (addNode none false g).2.Blank n := by
  have hnode : ∀ i, (g.push {}).node i = g.node i := by
    intro i
    rw [node_push]
    split
    · next hi => rw [node_eq_default g i (Nat.le_of_eq hi.symm)]
    · rfl
  have hend : (g.push {}).node ((g.push {}).root n) = g.node (g.root n) := by
    rw [root_push hg none false n, hnode]
  exact ⟨(congrArg Node.type hend).trans hn.type,
    fun s => (congrArg s.read hend).trans (hn.record s)⟩

theorem blank_of_size_le (hn : g.size ≤ n) : g.Blank n := by
  have hnode : g.node (g.root n) = {} := by rw [root_of_size_le g n hn, node_eq_default g n hn]
  refine ⟨congrArg Node.type hnode, fun s => (congrArg s.read hnode).trans ?_⟩
  cases s <;> rfl

theorem resolvedType_informed (hg : g.WellFormed) (n : NodeId) :
    Informed g (resolvedType n g).2 ∧ (resolvedType n g).1 = (resolvedType n g).2.typeAt n :=
  ⟨(runs_resolve_informs hg n).1 hg, (runs_resolvedType hg n).2⟩

end TypeGraph

open TypeGraph

variable {p : Program} {c c' : Compilation} {b : BlockRef} {input : String}

/-! ## Placeholders -/

/-- The type of what stands in for an input, if that is known. -/
def Compilation.holeType (c : Compilation) (b : BlockRef) (input : String) : Option TypeName :=
  (c.placeholderOf? b input).bind fun i => c.graph.typeAt (c.placeholder i).node

theorem Advances.holeType_eq (h : Advances c c') (ht : c.holeType b input = some t)
    (hne : t ≠ .array) : c'.holeType b input = some t := by
  obtain ⟨i, hi, ht⟩ := Option.bind_eq_some_iff.mp ht
  have hlt : i < c.placeholders.size := (Array.findIdx?_eq_some_iff_getElem.mp hi).1
  unfold holeType
  rw [h.placeholderOf?_eq hi, Option.bind_some, h.placeholder_eq hlt]
  exact h.graph.type_eq _ t ht hne

theorem Advances.liveTarget?_eq (h : Advances c c') :
    p.liveTarget? c' b input = p.liveTarget? c b input := by
  unfold liveTarget?
  rw [h.isLive_eq]

theorem placeholderOf?_eq_none (h : ∀ x ∈ c.placeholders, ¬ (x.owner = b ∧ x.input = input)) :
    c.placeholderOf? b input = none := by
  unfold placeholderOf?
  rw [Array.findIdx?_eq_none_iff]
  intro x hx
  rw [Bool.and_eq_false_iff, beq_eq_false_iff_ne, beq_eq_false_iff_ne]
  exact Classical.not_and_iff_not_or_not.mp (h x hx)

/-- A hole that has no placeholder yet gets a new one. -/
theorem attach_new (hhole : p.liveTarget? c b input = none)
    (hnone : c.placeholderOf? b input = none) (type : Option TypeName) :
    ∃ d, p.attach b input type c = (.placeholder c.placeholders.size, d) ∧
      d.graph = (placeholderNode type c.graph).2 ∧
      d.placeholders = c.placeholders.push ⟨b, input, (placeholderNode type c.graph).1⟩ ∧
      d.placeholderOf? b input = some c.placeholders.size ∧
      (d.placeholder c.placeholders.size).node = (placeholderNode type c.graph).1 := by
  let h : Placeholder := ⟨b, input, (placeholderNode type c.graph).1⟩
  let d : Compilation := { c with
    graph := (placeholderNode type c.graph).2, placeholders := c.placeholders.push h }
  refine ⟨d, ?_, rfl, rfl, ?_, ?_⟩
  · rw [attach_of_hole hhole, placeholderFor_of_none hnone]
  · show (c.placeholders.push h).findIdx? _ = _
    unfold placeholderOf? at hnone
    rw [Array.findIdx?_push, hnone]
    simp [h]
  · show (((c.placeholders.push h)[c.placeholders.size]?).getD default).node = h.node
    simp

/-- A hole that is asked for with a type has that type from then on. -/
theorem holeType_attach (hc : Consistent p c) (hhole : p.liveTarget? c b input = none)
    (hnone : c.placeholderOf? b input = none) :
    (p.attach b input (some t) c).2.holeType b input = some t := by
  obtain ⟨d, hattach, hgraph, _, hindex, hnode⟩ := attach_new hhole hnone (some t)
  rw [hattach]
  unfold holeType
  rw [hindex, Option.bind_some, hnode, hgraph]
  exact (runs_ground hc.primitives t).2.2

/-! ## Code for holes -/

/-- What a step has added to `c` are placeholders about which nothing is known or told. -/
structure Quiet (c c' : Compilation) : Prop where
  graph : ∀ n, c.graph.Blank n → c'.graph.Blank n
  placeholders : ∀ h ∈ c'.placeholders, h ∈ c.placeholders ∨ c'.graph.Blank h.node

theorem Quiet.refl (c : Compilation) : Quiet c c :=
  ⟨fun _ h => h, fun _ h => .inl h⟩

theorem Quiet.trans {d : Compilation} (h1 : Quiet c d) (h2 : Quiet d c') : Quiet c c' where
  graph n hn := h2.graph n (h1.graph n hn)
  placeholders h hh := by
    rcases h2.placeholders h hh with hd | hnew
    · exact (h1.placeholders h hd).imp_right (h2.graph _)
    · exact .inr hnew

/-- The placeholder of an input, if there is one, has a definite type, or nothing tells its type. -/
def Compilation.HoleKnown (c : Compilation) (b : BlockRef) (input : String) : Prop :=
  ∀ i, c.placeholderOf? b input = some i →
    (∃ t, c.graph.typeAt (c.placeholder i).node = some t ∧ t ≠ TypeName.array) ∨
      c.graph.Blank (c.placeholder i).node

theorem attach_hole (hc : Consistent p c) (hhole : p.liveTarget? c b input = none)
    (hknown : c.HoleKnown b input) :
    ∃ i d, p.attach b input none c = (.placeholder i, d) ∧ Quiet c d ∧
      d.placeholderOf? b input = some i ∧ d.holeType b input = c.holeType b input ∧
      d.HoleKnown b input := by
  cases hi : c.placeholderOf? b input with
  | some i =>
    have hattached : p.attached? c b input = some (.placeholder i) := by
      unfold attached?
      rw [hhole, hi]
      rfl
    exact ⟨i, c, attach_of_attached none hattached, .refl c, hi, rfl, hknown⟩
  | none =>
    obtain ⟨d, hattach, hgraph, hplaceholders, hindex, hnode⟩ := attach_new hhole hi none
    have hblank : d.graph.Blank (d.placeholder c.placeholders.size).node := by
      rw [hnode, hgraph]
      exact (blank_of_size_le (Nat.le_refl _)).addNode hc.graph
    refine ⟨_, d, hattach, ⟨?_, ?_⟩, hindex, ?_, ?_⟩
    · intro n hn
      rw [hgraph]
      exact hn.addNode hc.graph
    · intro x hx
      rw [hplaceholders] at hx
      rcases Array.mem_push.mp hx with hx | rfl
      · exact .inl hx
      · rw [hnode] at hblank
        exact .inr hblank
    · unfold holeType
      rw [hindex, hi, Option.bind_some, hblank.type]
      rfl
    · intro i hi
      rw [hindex] at hi
      cases hi
      exact .inr hblank

/-- The code of a hole is the default literal of its type. -/
theorem emitInput_hole (hc : Consistent p c) (hhole : p.liveTarget? c b input = none)
    (hknown : c.HoleKnown b input) (e : Emitter) :
    ∃ c', p.emitInput e b input c =
        .ok (.ofText (TypeName.defaultLiteral (c.holeType b input))) c' ∧ Quiet c c' := by
  obtain ⟨i, d, hattach, hquiet, hindex, htype, hknown⟩ := attach_hole hc hhole hknown
  have hd : Consistent p d := by
    have hproceeds := (runs_attach hc b input none).1
    rw [hattach] at hproceeds
    exact (hproceeds hc).1
  obtain ⟨hinformed, hvalue⟩ := resolvedType_informed hd.graph (d.placeholder i).node
  have hsame : (resolvedType (d.placeholder i).node d.graph).1 = c.holeType b input := by
    rw [← htype, hvalue]
    unfold holeType
    rw [hindex, Option.bind_some]
    rcases hknown i hindex with ⟨t, ht, hne⟩ | hblank
    · rw [ht]
      unfold typeAt at ht ⊢
      rw [hinformed.root_eq]
      exact hinformed.type_eq _ t ht hne
    · rw [(hblank.inform hinformed).type, hblank.type]
  refine ⟨{ d with graph := (resolvedType (d.placeholder i).node d.graph).2 }, ?_, hquiet.trans ?_⟩
  · show (p.emitTarget e (p.attach b input none c).1) (p.attach b input none c).2 = _
    rw [hattach, ← hsame]
    rfl
  · exact ⟨fun n hn => hn.inform hinformed, fun h hh => .inl hh⟩

/-! ## The turn of an operator -/

/-- Operators on numbers and truth values. -/
def BlockKind.isOperator : BlockKind → Bool
  | .arithmetic _ | .modulo | .mathBinary _ | .mathUnary _ | .boolOperation _ | .negate => true
  | .compare op => !op.isEquality
  | _ => false

/-- The rule of an operator expects one type of all its operands, one after the other. -/
theorem typeBlock_operator (hop : (p.kind b).isOperator = true) :
    ∃ t inputs, (p.block b).operands = expecting t inputs ∧
      p.typeBlock b = p.expectInputs b t inputs ∧ (t = .number ∨ t = .boolean) := by
  have hkind : p.kind b = (p.block b).kind := rfl
  rw [hkind] at hop
  unfold Block.operands typeBlock
  dsimp only
  cases hk : (p.block b).kind with
  | compare op =>
    rw [hk] at hop
    have heq : op.isEquality = false := by simpa [BlockKind.isOperator] using hop
    simp only [heq, Bool.false_eq_true, if_false]
    exact ⟨_, _, rfl, rfl, .inl rfl⟩
  | arithmetic op | modulo | mathBinary name | mathUnary name => exact ⟨_, _, rfl, rfl, .inl rfl⟩
  | boolOperation op | negate => exact ⟨_, _, rfl, rfl, .inr rfl⟩
  | _ =>
    rw [hk] at hop
    cases hop

/-- Whether the given inputs of a block can all have a type. -/
def Program.accepts (p : Program) (b : BlockRef) (t : TypeName) (inputs : List String)
    (c : Compilation) : Bool :=
  match p.expectInputs b t inputs c with
  | .ok _ _ => true
  | .error _ _ => false

/-- No placeholder stands for the input. -/
def Elsewhere (b : BlockRef) (input : String) (x : Placeholder) : Prop :=
  ¬ (x.owner = b ∧ x.input = input)

/-- Typing speaks of all types, and leaves placeholders where it may. -/
theorem permits_all {S : Placeholder → Prop}
    (hS : ∀ b, p.kind b = .functionReturn → ∀ input n, S ⟨b, input, n⟩) :
    p.Permits (fun _ => True) S := by
  refine ⟨⟨?_, ?_, ?_, ?_, ?_, ?_⟩, hS⟩ <;> intros <;> trivial

theorem speaking_all {S : Placeholder → Prop} (hS : ∀ x ∈ c.placeholders, S x) :
    Speaking (fun _ => True) S c c :=
  ⟨fun _ _ _ => trivial, hS, rfl, rfl, rfl, rfl⟩

theorem vocabulary_all : Vocabulary fun _ => True :=
  ⟨fun _ _ => trivial, fun _ _ => trivial, fun _ _ _ _ => trivial⟩

/-- The rule of an operator gives a hole its type, if it gets so far. Otherwise there is no
placeholder for the hole, and a problem is reported. -/
theorem checkBlock_hole {turn after : Compilation} {before rest : List String} (hturn : Idle p turn)
    (hnew : ∀ x ∈ turn.placeholders, x.owner ≠ b) (hkind : p.kind b ≠ .functionReturn)
    (hrule : p.typeBlock b = p.expectInputs b t (before ++ input :: rest)) (hinput : input ∉ before)
    (hhole : p.liveTarget? turn b input = none) (hcheck : p.checkBlock b turn = .ok () after) :
    (p.accepts b t before turn = true → ∃ d, d.holeType b input = some t ∧ Advances d after) ∧
    (p.accepts b t before turn = false →
      (∀ x ∈ after.placeholders, Elsewhere b input x) ∧ ¬ Clean p b after) := by
  have hsplit : p.typeBlock b = p.expectInputs b t before >>= fun _ =>
      liftM (p.attach b input (some t)) >>= fun target =>
        (p.typeOfTarget target >>= fun n => liftM (expect n t)) >>= fun _ =>
          p.expectInputs b t rest := by
    have happend : p.expectInputs b t (before ++ input :: rest) = p.expectInputs b t before >>=
        fun _ => (p.expectInput b input t >>= fun _ => pure ()) >>= fun _ =>
          p.expectInputs b t rest :=
      forM_append
    rw [hrule, happend]
    unfold expectInput
    simp only [bind_assoc, pure_bind]
  -- the operands before it leave no placeholder for the hole
  have hpermits : p.Permits (fun _ => True) (Elsewhere b input) :=
    permits_all fun x hx _ _ h => hkind (h.1 ▸ hx)
  have hgives : Gives (Speaking (fun _ => True) (Elsewhere b input) turn)
      (p.expectInputs b t before) fun _ => True :=
    gives_expectInputs vocabulary_all hpermits trivial fun i hi _ h => hinput (h.2 ▸ hi)
  have hspeaks : Speaking (fun _ => True) (Elsewhere b input) turn turn :=
    speaking_all fun x hx h => hnew x hx h.1
  unfold checkBlock at hcheck
  rw [hsplit] at hcheck
  unfold accepts
  cases hrun : p.expectInputs b t before turn with
  | ok u c1 =>
    refine ⟨fun _ => ?_, (by rintro ⟨⟩)⟩
    have hmoves := (moves_expectInputs hturn b t before).of_ok hrun
    have hc1 := hturn.proceed hmoves.1
    have hadv1 := (hmoves.1 hturn.consistent).2
    have hnone := placeholderOf?_eq_none (hgives.of_ok hspeaks hrun).1.placeholders
    rw [← hadv1.liveTarget?_eq] at hhole
    refine ⟨_, holeType_attach hc1.consistent (t := t) hhole hnone, ?_⟩
    have hc2 := hc1.proceed (runs_attach hc1.consistent b input (some t)).1
    have hrest := (moves_expectTarget hc2 (p.attach b input (some t) c1).1 t).bind
      (f := fun _ => p.expectInputs b t rest)
      fun _ d hd _ => moves_expectInputs (hc2.proceed hd) b t rest
    have hattach : (liftM (p.attach b input (some t)) : TypingM Target) c1 = .ok _ _ := rfl
    rw [run_bind_of_ok hrun, run_bind_of_ok hattach] at hcheck
    split at hcheck
    · next hr =>
      cases hcheck
      exact ((hrest.of_ok hr).1 hc2.consistent).2
    · next m _ hr =>
      cases hcheck
      have hreport := trans_of (Proceeds p) (hrest.of_error hr) (Proceeds.report b m.message)
      exact (hreport hc2.consistent).2
    · cases hcheck
  | error e c1 =>
    refine ⟨(by rintro ⟨⟩), fun _ => ?_⟩
    have hc1 : Speaking _ (Elsewhere b input) turn c1 := (hgives turn hspeaks).of_error hrun
    rw [run_bind_of_error hrun] at hcheck
    cases e with
    | fault f => cases hcheck
    | mismatch m =>
      cases hcheck
      exact ⟨(preserves_report b m.message c1 hc1).1.placeholders, not_clean_report b m.message⟩

theorem placeholders_track (p : Program) (disabled : List BlockRef) (taken : List String) :
    (p.track (.fresh disabled taken)).2.placeholders = #[] :=
  (steps_track_fresh disabled taken p).invariant (J := fun d => d.placeholders = #[])
    (fun _ _ hstep hd => by cases hstep <;> exact hd) rfl

/-- An operator leaves no placeholders but those of the types that it expects. -/
theorem placeholders_operator (hinfer : p.infer (p.track (.fresh disabled taken)).2 = .ok () c) :
    ∀ x ∈ c.placeholders, (p.kind x.owner).isOperator = true →
      x.node = numberNode ∨ x.node = booleanNode := by
  have hpermits : p.Permits (fun _ => True) fun x => (p.kind x.owner).isOperator = true →
      x.node = numberNode ∨ x.node = booleanNode :=
    permits_all fun b hb _ _ hop => by
      rw [show p.kind b = .functionReturn from hb] at hop
      cases hop
  have hgives := gives_inferFrom (d := (p.track (.fresh disabled taken)).2) vocabulary_all
    (l := p.workspace.refs) fun b _ => by
      by_cases hop : (p.kind b).isOperator = true
      · obtain ⟨t, inputs, _, hrule, ht⟩ := typeBlock_operator hop
        rw [hrule]
        refine gives_expectInputs vocabulary_all hpermits trivial fun _ _ _ _ => ?_
        rcases ht with rfl | rfl
        · exact .inl rfl
        · exact .inr rfl
      · exact gives_typeBlock vocabulary_all hpermits fun _ _ h => absurd h hop
  refine (hgives.of_ok (speaking_all fun x hx => ?_) hinfer).1.placeholders
  rw [placeholders_track] at hx
  simp at hx

/-- The turns of a pass over all blocks: those before `b`, that of `b`, and those after it. -/
theorem turn_of_infer {start : Compilation} (hinfer : p.infer start = .ok () c)
    (hb : b < p.workspace.size) :
    ∃ turn mid later, p.checkEach (List.range b) start = .ok () turn ∧
      p.checkEach [b] turn = .ok () mid ∧ p.inferFrom later mid = .ok () c ∧ b ∉ later := by
  have hrefs : p.workspace.refs = List.range b ++ ([b] ++ (p.workspace.refs.drop (b + 1))) := by
    have hdrop : p.workspace.refs.drop b = b :: p.workspace.refs.drop (b + 1) := by
      unfold refs
      rw [drop_eq_getElem_cons (by simpa using hb), getElem_range]
    have htake : p.workspace.refs.take b = List.range b := by
      unfold refs
      rw [take_range, Nat.min_eq_left (Nat.le_of_lt hb)]
    rw [singleton_append, ← hdrop, ← htake, take_append_drop]
  have hlater : b ∉ p.workspace.refs.drop (b + 1) := by
    have hnodup : (List.range b ++ ([b] ++ (p.workspace.refs.drop (b + 1)))).Nodup :=
      hrefs ▸ nodup_range
    exact (nodup_cons.mp (nodup_append.mp hnodup).2.1).1
  have hrun : p.inferFrom p.workspace.refs start = .ok () c := hinfer
  rw [hrefs, inferFrom_append] at hrun
  obtain ⟨_, turn, hturn, hrun⟩ := exists_of_bind_ok hrun
  rw [inferFrom_append] at hrun
  obtain ⟨_, mid, hmid, hrun⟩ := exists_of_bind_ok hrun
  exact ⟨turn, mid, _, hturn, hmid, hrun, hlater⟩

theorem checkBlock_of_checkEach {turn mid : Compilation} (h : p.checkEach [b] turn = .ok () mid)
    (hchecked : p.isChecked turn b = true) : p.checkBlock b turn = .ok () mid := by
  obtain ⟨_, _, hrun, hend⟩ := exists_of_bind_ok h
  cases hend
  change (get >>= fun d => if p.isChecked d b then p.checkBlock b else pure ()) turn = _ at hrun
  rw [run_bind_get, if_pos hchecked] at hrun
  exact hrun

/-- Up to its turn, a block that returns nothing has no placeholders. -/
theorem owner_ne_of_turn {turn : Compilation} (hkind : p.kind b ≠ .functionReturn)
    (hturn : p.checkEach (List.range b) (p.track (.fresh disabled taken)).2 = .ok () turn) :
    ∀ x ∈ turn.placeholders, x.owner ≠ b := by
  have hpermits : p.Permits (fun _ => True) fun x => x.owner ≠ b :=
    permits_all fun x hx _ _ h => hkind (h ▸ hx)
  have hgives := gives_checkEach (d := (p.track (.fresh disabled taken)).2) (l := List.range b)
    fun x hx => gives_typeBlock vocabulary_all hpermits fun _ _ h =>
      Nat.lt_irrefl _ (h ▸ mem_range.mp hx)
  refine (hgives.of_ok (speaking_all fun x hx => ?_) hturn).1.placeholders
  rw [placeholders_track] at hx
  simp at hx

/-- The operands before a hole are those in front of its first occurrence. -/
def Block.operandsBefore (block : Block) (input : String) : List String :=
  (block.operands.map Prod.fst).takeWhile (· ≠ input)

theorem operandsBefore_eq {block : Block} {before rest : List String}
    (h : block.operands = expecting t (before ++ input :: rest)) (hinput : input ∉ before) :
    block.operandsBefore input = before := by
  unfold Block.operandsBefore expecting at *
  rw [h, map_map, Function.comp_def, map_id', takeWhile_append_of_pos]
  · simp
  · intro i hi
    have hne : i ≠ input := fun h => hinput (h ▸ hi)
    simpa using hne

/-- Once a program has been typed, a hole among the operands of a live, visited operator is written
as `0` or `false`, the default of the type that the rule of the operator expects of it, if at the
turn of the operator all operands before the hole could have that type. This is so if nothing is
reported about the block. Otherwise the rule ends before it comes to the hole, which is written as
`null`. -/
theorem hole_default {disabled : List BlockRef} {taken : List String}
    (hinfer : p.infer (p.track (.fresh disabled taken)).2 = .ok () c)
    (hlive : p.isLive c b = true) (hvisited : c.blockScope.contains b = true)
    (hop : (p.kind b).isOperator = true) {t : TypeName} (hinput : (input, t) ∈ (p.block b).operands)
    (hhole : p.liveTarget? c b input = none) (e : Emitter) :
    ∃ turn c', p.checkEach (List.range b) (p.track (.fresh disabled taken)).2 = .ok () turn ∧
      p.emitInput e b input c = .ok (.ofText
        (if p.accepts b t ((p.block b).operandsBefore input) turn then
          if t = TypeName.number then "0" else "false"
        else "null")) c' ∧
      (t = TypeName.number ∨ t = TypeName.boolean) ∧
      ((∀ d ∈ c.diagnostics, d.block ≠ (p.block b).id) →
        p.accepts b t ((p.block b).operandsBefore input) turn = true) := by
  obtain ⟨t', inputs, hoperands, hrule, ht⟩ := typeBlock_operator hop
  have hkind : p.kind b ≠ .functionReturn := by
    intro hk
    rw [hk] at hop
    cases hop
  have hb : b < p.workspace.size := by
    by_contra hb
    have hdefault : p.block b = default := block_eq_default (Nat.le_of_not_lt hb)
    rw [hdefault] at hinput
    cases hinput
  rw [hoperands] at hinput
  obtain ⟨_, hi, heq⟩ := mem_map.mp hinput
  cases heq
  obtain ⟨before, rest, rfl, hnot⟩ := eq_append_cons_of_mem hi
  rw [operandsBefore_eq hoperands hnot]
  obtain ⟨turn, mid, later, hturn, hmid, hlater, hnotin⟩ := turn_of_infer hinfer hb
  have hstart := idle_track p disabled taken
  have hidle := hstart.proceed ((moves_checkEach hstart _).of_ok hturn).1
  have hown := ((moves_checkEach hidle _).of_ok hmid).1
  have hidle1 := hidle.proceed hown
  have hrest := ((moves_inferFrom hidle1 later).of_ok hlater).1
  have hc := hidle1.proceed hrest
  have hadv := (hrest hidle1.consistent).2
  have hadv1 := (hown hidle.consistent).2
  have hchecked : p.isChecked turn b = true := by
    rw [← hadv1.isChecked_eq, ← hadv.isChecked_eq]
    unfold isChecked
    rw [hlive, hvisited]
    rfl
  obtain ⟨haccepted, hrefused⟩ := checkBlock_hole hidle (owner_ne_of_turn hkind hturn) hkind hrule
    hnot (by rw [← (hadv1.trans hadv).liveTarget?_eq, hhole])
    (checkBlock_of_checkEach hmid hchecked)
  cases hacc : p.accepts b t before turn with
  | true =>
    obtain ⟨d, htype, hd⟩ := haccepted hacc
    have hne : t ≠ .array := by rcases ht with rfl | rfl <;> decide
    have htype := (hd.trans hadv).holeType_eq htype hne
    have hknown : c.HoleKnown b input := by
      intro i hi
      unfold holeType at htype
      rw [hi, Option.bind_some] at htype
      exact Or.inl ⟨t, htype, hne⟩
    obtain ⟨c', hemit, _⟩ := emitInput_hole hc.consistent hhole hknown e
    refine ⟨turn, c', hturn, ?_, ht, fun _ => hacc⟩
    rw [hemit, htype, if_pos hacc]
    rcases ht with rfl | rfl <;> rfl
  | false =>
    obtain ⟨hnone, hcomplaint⟩ := hrefused hacc
    have hpermits : p.Permits (fun _ => True) (Elsewhere b input) :=
      permits_all fun x hx _ _ h => hkind (h.1 ▸ hx)
    have hgives := gives_inferFrom (d := mid) vocabulary_all (l := later)
      fun x hx => gives_typeBlock vocabulary_all hpermits fun _ _ h => hnotin (h.1 ▸ hx)
    have hnone := placeholderOf?_eq_none (hgives.of_ok (speaking_all hnone) hlater).1.placeholders
    have hknown : c.HoleKnown b input := by
      intro i hi
      rw [hnone] at hi
      cases hi
    obtain ⟨c', hemit, _⟩ := emitInput_hole hc.consistent hhole hknown e
    refine ⟨turn, c', hturn, ?_, ht, fun hclean => absurd (Clean.before hclean hadv) hcomplaint⟩
    rw [hemit, if_neg (by rw [hacc]; decide)]
    unfold holeType
    rw [hnone]
    rfl

/-- A sum of a text and a hole, or the other way round. -/
def sumOf (left right : Option String) : Program :=
  .ofBlocks [
    { id := "sum", tag := "math_arithmetic", fields := [⟨"OP", "ADD"⟩],
      inputs := [("A", .value, left), ("B", .value, right)] },
    { id := "word", tag := "text", fields := [⟨"TEXT", "x"⟩] }]

/-- A hole in front of an operand that does not fit is a number all the same. -/
theorem hole_default_before_text : ∃ c c',
    (sumOf none (some "word")).infer ((sumOf none (some "word")).track (.fresh [] [])).2 =
      .ok () c ∧
    c.diagnostics.map (·.block) = ["sum"] ∧
    (sumOf none (some "word")).emitInput (sumOf none (some "word")).emitter 0 "A" c =
      .ok (.ofText "0") c' := by
  generalize hp : sumOf none (some "word") = p
  have hrun : Succeeds p.infer (p.track (.fresh [] [])).2 fun _ c =>
      p.isLive c 0 = true ∧ c.blockScope.contains 0 = true ∧ p.liveTarget? c 0 "A" = none ∧
        c.diagnostics.map (·.block) = ["sum"] := by
    subst hp
    decide +kernel
  have hop : (p.kind 0).isOperator = true ∧ ("A", .number) ∈ (p.block 0).operands ∧
      (p.block 0).operandsBefore "A" = [] := by
    subst hp
    decide +kernel
  obtain ⟨_, c, hinfer, hlive, hvisited, hhole, hreport⟩ := hrun.exists_ok
  obtain ⟨turn, c', _, hemit, _⟩ :=
    hole_default hinfer hlive hvisited hop.1 hop.2.1 hhole p.emitter
  refine ⟨c, c', hinfer, hreport, ?_⟩
  rw [hemit, hop.2.2]
  rfl

/-- A hole behind an operand that does not fit is written as `null`. -/
theorem hole_null_behind_text :
    let p := sumOf (some "word") none
    ∃ c code c', p.infer (p.track (.fresh [] [])).2 = .ok () c ∧ p.isLive c 0 = true ∧
      c.blockScope.contains 0 = true ∧ ("B", .number) ∈ (p.block 0).operands ∧
      p.liveTarget? c 0 "B" = none ∧ p.emitInput p.emitter 0 "B" c = .ok code c' ∧
      code.source = "null" := by
  dsimp only
  generalize hp : sumOf (some "word") none = p
  have hrun : Succeeds p.infer (p.track (.fresh [] [])).2 fun _ c =>
      p.isLive c 0 = true ∧ c.blockScope.contains 0 = true ∧ p.liveTarget? c 0 "B" = none ∧
        Succeeds (p.emitInput p.emitter 0 "B") c fun code _ => code.source = "null" := by
    subst hp
    decide +kernel
  have hoperand : ("B", .number) ∈ (p.block 0).operands := by
    subst hp
    decide +kernel
  obtain ⟨_, c, hinfer, hlive, hvisited, hhole, hrun⟩ := hrun.exists_ok
  obtain ⟨code, c', hemit, htext⟩ := hrun.exists_ok
  exact ⟨c, code, c', hinfer, hlive, hvisited, hoperand, hhole, hemit, htext⟩

end BlockProgram
