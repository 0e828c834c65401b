import BlockProgram.Proofs.Emit.Yields
import Mathlib.Data.List.Flatten

/-!
# What is written for an expression

The code of a block is made from what is plugged into some of its inputs, as values or as bodies
(`Program.written`). There is one lemma for each function that makes code, in the order of those
functions. It says from which of these blocks the code comes, given an emitter for what is below.
-/

namespace BlockProgram

open Compilation Code Program List Workspace

variable {block : Block} {n : String} {x : BlockRef} {names : List String}

/-! ## What is written -/

def Block.plugged (block : Block) (names : List String) : List BlockRef :=
  names.flatMap fun n => (block.inputTarget? n).toList

namespace Program

/-- The inputs for the further arguments of a call. -/
def restInputs (block : Block) : List String :=
  match block.mutation with
  | some (.rest count) => (List.range count).map Mutation.restInput
  | _ => []

/-- The inputs of a use of the host that are written as values. -/
def hostInputs (symbol : Symbol) (block : Block) : List String :=
  symbol.parameters.map (·.inputOn block.mutation) ++ restInputs block

/-- The inputs of a block of a kind that are written as values. -/
def kindInputs (p : Program) (block : Block) (kind : BlockKind) : List String :=
  match kind with
  | .arithmetic _ | .compare _ | .boolOperation _ => ["A", "B"]
  | .modulo => ["DIVIDEND", "DIVISOR"]
  | .negate => ["BOOL"]
  | .mathBinary _ | .mathUnary _ => block.valueInputs.map (·.name)
  | .textJoin | .listCreate => itemInputs block
  | .textLength | .variableSet | .variableChange => ["VALUE"]
  | .listIndexGet => ["LIST", "INDEX"]
  | .listIndexSet => ["LIST", "INDEX", "VALUE"]
  | .listLength => [lengthInput block]
  | .functionCall | .functionCallOutput => block.args.map (·.id)
  | .functionReturn => [returnValueInput]
  | .conditional => (block.numberedInputs "IF").map (·.name)
  | .repeatTimes => ["TIMES"]
  | .whileLoop => ["COND"]
  | .forRange => ["FROM", "TO"]
  | .forOf => ["LIST"]
  | .hostCall name => ((p.surface.symbol? name).map (hostInputs · block)).getD []
  | _ => []

/-- The first statements of the bodies of a block of a kind that are written. -/
def kindBodies (p : Program) (block : Block) (kind : BlockKind) : List BlockRef :=
  match kind with
  | .onStart => (block.statementInputs.findSome? (·.target)).toList
  | .conditional =>
    block.plugged ((block.numberedInputs "IF").map (bodyInput ·.name)) ++ block.plugged ["ELSE"]
  | .repeatTimes | .whileLoop | .forRange | .forOf => block.plugged ["DO"]
  | .functionDefinition => block.body?.toList
  | .hostCall name =>
    ((p.surface.symbol? name).bind (·.handler)).toList.flatMap fun _ => block.body?.toList
  | _ => []

def writtenInputs (p : Program) (block : Block) : List String :=
  p.kindInputs block block.kind

/-- The blocks plugged into a block that are written. -/
def written (p : Program) (block : Block) : List BlockRef :=
  block.plugged (p.writtenInputs block) ++ p.kindBodies block block.kind

theorem writtenInputs_of_kind (p : Program) {kind : BlockKind} (hkind : block.kind = kind) :
    p.writtenInputs block = p.kindInputs block kind :=
  congrArg (p.kindInputs block) hkind

theorem written_of_kind (p : Program) {kind : BlockKind} (hkind : block.kind = kind) :
    p.written block = block.plugged (p.kindInputs block kind) ++ p.kindBodies block kind := by
  subst hkind
  rfl

end Program

variable {p : Program} {c : Compilation} {b : BlockRef} {e : Emitter}

theorem plugged_append (block : Block) (names more : List String) :
    block.plugged (names ++ more) = block.plugged names ++ block.plugged more :=
  flatMap_append

theorem mem_targets_of_inputTarget {t : BlockRef} (ht : block.inputTarget? n = some t) :
    t ∈ block.targets := by
  obtain ⟨i, hi, hit⟩ := Option.bind_eq_some_iff.mp ht
  exact mem_filterMap.mpr ⟨i, mem_of_find?_eq_some hi, hit⟩

theorem mem_targets_of_body {t : BlockRef} (ht : block.body? = some t) : t ∈ block.targets := by
  obtain ⟨i, hi, hit⟩ := Option.bind_eq_some_iff.mp ht
  exact mem_filterMap.mpr ⟨i, mem_of_mem_filter (mem_of_mem_head? hi), hit⟩

/-! ## Emitters -/

/-- An emitter makes code that accounts for what is plugged into blocks. -/
structure Emits (p : Program) (c : Compilation) (e : Emitter) : Prop where
  expression : ∀ b < p.workspace.size, p.isLive c b = true → Yields p c (e.expression b) fun code =>
    Spelled p c (Among p (p.block b).targets) (Among p (p.block b).targets) code.marks
  statement : ∀ b < p.workspace.size, p.isLive c b = true → Yields p c (e.statement b)
    (Lined p c (p.workspace.Within b) (Among p (p.block b).targets))

/-- The lines of a statement behind its declarations. -/
def IsLink (p : Program) (c : Compilation) (x : BlockRef) (lines : List Code) : Prop :=
  ∃ declarations own, lines = declarations ++ own ∧
    List.Forall₂ (IsDeclaration c) (c.declarationsAt x) declarations ∧
    Lined p c (p.workspace.Within x) (Among p (p.block x).targets) own

section Chains

variable (hws : p.workspace.Sound) (hc : Sited p (p.isLive c) c) (he : Emits p c e)

/-! ## Chains -/

include hws hc in
/-- The lines of the live statements of a chain. -/
theorem lined_chain (hx : x < p.workspace.size) {liness : List (List Code)}
    (h : List.Forall₂ (IsLink p c) ((p.workspace.chain (some x)).filter (p.isLive c)) liness) :
    Lined p c (p.workspace.Under x) (p.workspace.Under x) liness.flatten := by
  induction x, hx using children_induction hws generalizing liness with
  | step x hx ih =>
    rw [chain_some hws hx] at h
    have hrest : ∀ rests, List.Forall₂ (IsLink p c)
        ((p.workspace.chain (p.block x).next).filter (p.isLive c)) rests →
        Lined p c (Follows p x) (Follows p x) rests.flatten := by
      intro rests hrests
      cases hnext : (p.block x).next with
      | none =>
        rw [hnext, chain_none, filter_nil] at hrests
        cases hrests
        exact .nil _ _
      | some y =>
        rw [hnext] at hrests
        have hlined := ih y (next_mem_children hnext) hrests
        have hfollows : ∀ z, Follows p x z ↔ p.workspace.Under y z := by
          intro z
          unfold Follows
          rw [hnext]
          simp only [Option.some.injEq, exists_eq_left']
        exact hlined.congr (fun z => (hfollows z).symm) fun z => (hfollows z).symm
    cases hlive : p.isLive c x with
    | false =>
      rw [filter_cons_of_neg (by rw [hlive]; exact Bool.false_ne_true)] at h
      exact .skip hws hc hlive (hrest liness h)
    | true =>
      rw [filter_cons_of_pos hlive] at h
      cases h with
      | cons hfirst hothers =>
        obtain ⟨declarations, own, rfl, hdeclarations, hown⟩ := hfirst
        rw [flatten_cons, append_assoc]
        exact hown.link hws hc (hrest _ hothers) hdeclarations

include he in
theorem yields_emitLink (hx : x < p.workspace.size) (hlive : p.isLive c x = true) :
    Yields p c (emitLink e x) (IsLink p c x) := by
  unfold emitLink
  refine (yields_emitDeclarations x).bind fun declarations hdeclarations => ?_
  refine (he.statement x hx hlive).bind fun own hown => ?_
  exact .pure ⟨declarations, own, rfl, hdeclarations, hown⟩

include hws hc he

theorem yields_emitChain_some (hx : x < p.workspace.size) : Yields p c (p.emitChain e (some x))
      (Lined p c (p.workspace.Under x) (p.workspace.Under x)) := by
  unfold emitChain
  refine .bind_get fun d hadv => ?_
  dsimp only
  rw [hadv.isLive_eq]
  refine (Yields.mapM (P := IsLink p c) fun y hy => ?_).bind
    fun liness h => .pure (lined_chain hws hc hx h)
  obtain ⟨hmem, hlive⟩ := mem_filter.mp hy
  exact yields_emitLink he ((under_of_mem_chain hws hx hmem).lt hws hx) hlive

theorem yields_emitChain {first : Option BlockRef} (hfirst : ∀ x ∈ first, x < p.workspace.size) :
    Yields p c (p.emitChain e first) (Lined p c (Among p first.toList) (Among p first.toList)) := by
  cases first with
  | none =>
    unfold emitChain
    rw [chain_none]
    exact .bind_get fun d _ => .pure (.nil _ _)
  | some x =>
    exact (yields_emitChain_some hws hc he (hfirst x rfl)).imp fun lines h =>
      h.congr (fun y => among_singleton.symm) fun y => among_singleton.symm

end Chains

/-! ## Values and bodies -/

/-- An emitter makes code for what is plugged into a block, values and bodies, that is accounted
for by the blocks that it comes from. -/
structure EmitsPlugged (p : Program) (c : Compilation) (e : Emitter) (b : BlockRef)
    (M : List BlockRef → List Mark → Prop) : Prop extends Accounting M where
  value : ∀ n ∈ p.writtenInputs (p.block b), ∀ t, (p.block b).inputTarget? n = some t →
    p.isLive c t = true →
      Yields p c (e.expression t) fun code => M [t] (code.named (p.block t).id).marks
  chain : ∀ first : Option BlockRef, (∀ x ∈ first, x ∈ (p.block b).targets) →
    Yields p c (p.emitChain e first) fun lines => M first.toList (lineMarks lines)

/-- What is declared in front of the values of a block is not used there. -/
theorem Emits.plugged (hws : p.workspace.Sound) (hc : Sited p (p.isLive c) c) (he : Emits p c e)
    (hplain : ∀ n ∈ p.writtenInputs (p.block b), ∀ t, (p.block b).inputTarget? n = some t →
      Plain c t) : EmitsPlugged p c e b (Made p c b) where
  toAccounting := accounting_made hws hc b
  value n hn t ht hlive := by
    have hlt := hws.child_lt b t (mem_append_left _ (mem_targets_of_inputTarget ht))
    exact (he.expression t hlt hlive).imp fun code hcode =>
      .value hws hc (hplain n hn t ht) hlt hcode
  chain first hfirst := by
    have hlt : ∀ x ∈ first, x < p.workspace.size :=
      fun x hx => hws.child_lt b x (mem_append_left _ (hfirst x hx))
    exact (yields_emitChain hws hc he hlt).imp fun lines h _ _ => h.spelled

theorem yields_attach (b : BlockRef) (n : String) :
    Yields p c (liftM (p.attach b n none)) fun target => ∀ t, target = .block t →
      (p.block b).inputTarget? n = some t ∧ p.isLive c t = true := by
  refine .lift fun d hd hadv => (runs_attach hd b n none).imp fun target d' hproceeds h => ?_
  rintro t rfl
  have hlive : p.isLive d' = p.isLive c := (hadv.trans (hproceeds hd).2).isLive_eq p
  unfold attached? liveTarget? at h
  rw [hlive] at h
  split at h
  · next x hx =>
    cases h
    exact Option.filter_eq_some_iff.mp hx
  · cases hi : d'.placeholderOf? b n with
    | none =>
      rw [hi] at h
      cases h
    | some i =>
      rw [hi] at h
      cases h

/-- The step makes the code of a block from what is plugged into it. -/
abbrev YieldsOwn (p : Program) (c : Compilation) (b : BlockRef)
    (M : List BlockRef → List Mark → Prop) (m : CompileM Code) : Prop :=
  Yields p c m fun code => M (p.written (p.block b)) code.marks

section Writing

variable {M : List BlockRef → List Mark → Prop} (hb : EmitsPlugged p c e b M)

include hb

theorem EmitsPlugged.text (ts : List BlockRef) (s : String) : M ts (ofText s).marks := by
  rw [marks_ofText]
  exact hb.nil ts

theorem yields_emitBody {first : Option BlockRef} (hfirst : ∀ x ∈ first, x ∈ (p.block b).targets) :
    Yields p c (p.emitBody e first) fun code => M first.toList code.marks := by
  unfold emitBody
  refine (hb.chain first hfirst).bind fun lines h => .pure ?_
  rw [marks_braces]
  exact hb.braces h

theorem yields_emitTarget (hn : n ∈ p.writtenInputs (p.block b)) {target : Target}
    (htarget : ∀ t, target = .block t → (p.block b).inputTarget? n = some t ∧ p.isLive c t = true) :
    Yields p c (p.emitTarget e target) fun code =>
      M ((p.block b).inputTarget? n).toList code.marks := by
  cases target with
  | placeholder i => exact (yields_targetTypeName _).bind fun type _ => .pure (hb.text _ _)
  | block t =>
    obtain ⟨ht, hlive⟩ := htarget t rfl
    refine (hb.value n hn t ht hlive).bind fun code hcode => .pure ?_
    rw [ht]
    exact hcode

theorem yields_emitInput (hn : n ∈ p.writtenInputs (p.block b)) :
    Yields p c (p.emitInput e b n) fun code =>
      M ((p.block b).inputTarget? n).toList code.marks := by
  unfold emitInput
  exact (yields_attach b n).bind fun target h => yields_emitTarget hb hn h

theorem yields_emitInputs (hnames : names ⊆ p.writtenInputs (p.block b)) :
    Yields p c (p.emitInputs e b names) (Pieces M ((p.block b).plugged names)) := by
  unfold emitInputs
  exact (Yields.mapM fun n hn => yields_emitInput hb (hnames hn)).imp fun codes h => .of_forall₂ h

/-! ## Uses of the host -/

theorem yields_emitOptionalInput (hn : n ∈ p.writtenInputs (p.block b)) :
    Yields p c (p.emitOptionalInput e b n) fun code? =>
      Pieces M ((p.block b).inputTarget? n).toList code?.toList := by
  unfold emitOptionalInput
  split
  · exact (yields_emitInput hb hn).map fun code h => .singleton h
  · exact .pure (.nil _)

theorem yields_emitMutation_rest {count : Nat}
    (hnames : (List.range count).map Mutation.restInput ⊆ p.writtenInputs (p.block b)) :
    Yields p c (p.emitMutation e b (.rest count)) fun code? =>
      Pieces M ((p.block b).plugged ((List.range count).map Mutation.restInput)) code?.toList := by
  have hsub := filter_sublist (p := (p.block b).hasInput)
    (l := (List.range count).map Mutation.restInput)
  unfold emitMutation
  refine (yields_emitInputs hb fun n hn => hnames (hsub.subset hn)).bind fun args h => .pure ?_
  have hargs := h.mono (hsub.flatMap fun n => ((p.block b).inputTarget? n).toList).subperm
  split
  · exact .nil _
  · refine .singleton ?_
    rw [marks_commaSeparated]
    exact hargs.made hb.toAccounting

theorem yields_emitMutation_instance
    (hn : Mutation.instanceInput ∈ p.writtenInputs (p.block b)) (isShown : Bool) :
    Yields p c (p.emitMutation e b (.defaultInstance isShown)) fun code? =>
      Pieces M ((p.block b).inputTarget? Mutation.instanceInput).toList code?.toList := by
  unfold emitMutation
  dsimp only
  split
  · exact yields_emitOptionalInput hb hn
  · exact .pure (.nil _)

theorem yields_emitRest (hnames : restInputs (p.block b) ⊆ p.writtenInputs (p.block b)) :
    Yields p c (p.emitRest e b) (Pieces M ((p.block b).plugged (restInputs (p.block b)))) := by
  unfold emitRest
  split
  · next count hmutation =>
    have hrest : restInputs (p.block b) = (List.range count).map Mutation.restInput := by
      unfold restInputs
      rw [hmutation]
    rw [hrest] at hnames ⊢
    exact (yields_emitMutation_rest hb hnames).bind fun _ h => .pure h
  · exact .pure (.nil _)

theorem yields_emitReceiver (symbol : Symbol) {q : Parameter} (hreceiver : q.isReceiver = true)
    (hn : q.inputOn (p.block b).mutation ∈ p.writtenInputs (p.block b)) :
    Yields p c (p.emitReceiver e b symbol (q.inputOn (p.block b).mutation)) fun code =>
      M ((p.block b).inputTarget? (q.inputOn (p.block b).mutation)).toList code.marks := by
  unfold emitReceiver
  split
  · next isShown hmutation =>
    have hinput : q.inputOn (p.block b).mutation = Mutation.instanceInput := by
      unfold Parameter.inputOn
      rw [hmutation]
      exact if_pos hreceiver
    rw [hinput] at hn ⊢
    unfold emitInstance
    refine (yields_emitMutation_instance hb hn isShown).bind fun code? h => ?_
    split
    · refine .pure ?_
      have hmade := h.made hb.toAccounting
      rwa [Option.toList_some, partMarks_cons, partMarks_nil, append_nil] at hmade
    · exact .pure (hb.text _ _)
    · exact yields_emitInput hb hn
  · exact yields_emitInput hb hn

/-- The receiver and the arguments come from different inputs. -/
theorem yields_emitArguments (symbol : Symbol) (parameters : List Parameter)
    (hnames : parameters.map (·.inputOn (p.block b).mutation) ⊆ p.writtenInputs (p.block b)) :
    Yields p c (p.emitArguments e b symbol parameters) fun result =>
      ∃ us vs, Pieces M us result.1.toList ∧ Pieces M vs result.2 ∧ (us ++ vs).Subperm
        ((p.block b).plugged (parameters.map (·.inputOn (p.block b).mutation))) := by
  induction parameters with
  | nil => exact .pure ⟨[], [], .nil _, .nil _, nil_subperm⟩
  | cons q r ih =>
    have hn := hnames (.head _)
    have ihr := ih fun n hmem => hnames (.tail _ hmem)
    have hplugged : (p.block b).plugged ((q :: r).map (·.inputOn (p.block b).mutation)) =
        ((p.block b).inputTarget? (q.inputOn (p.block b).mutation)).toList ++
          (p.block b).plugged (r.map (·.inputOn (p.block b).mutation)) := rfl
    rw [hplugged]
    unfold emitArguments
    dsimp only
    split
    · next hreceiver =>
      refine (yields_emitReceiver hb symbol hreceiver hn).bind fun receiver h => ?_
      refine ihr.bind fun ⟨later, args⟩ ⟨us, vs, hus, hvs, hsub⟩ => .pure ?_
      cases later with
      | none =>
        refine ⟨_, vs, .singleton h, hvs, (subperm_append_left _).mpr ?_⟩
        exact (sublist_append_right us vs).subperm.trans hsub
      | some code =>
        exact ⟨us, vs, hus, hvs, hsub.trans (sublist_append_right _ _).subperm⟩
    · split
      · refine (yields_emitInput hb hn).bind fun arg h => ?_
        refine ihr.bind fun ⟨receiver, args⟩ ⟨us, vs, hus, hvs, hsub⟩ => .pure ?_
        refine ⟨us, _, hus, .cons h hvs, ?_⟩
        rw [← append_assoc]
        refine (perm_append_comm.append_right vs).subperm.trans ?_
        rw [append_assoc]
        exact (subperm_append_left _).mpr hsub
      · split
        · exact .pure ⟨[], [], .nil _, .nil _, nil_subperm⟩
        · refine ihr.bind fun ⟨receiver, args⟩ ⟨us, vs, hus, hvs, hsub⟩ => .pure ?_
          refine ⟨us, vs, hus, hvs.text hb.toAccounting _, hsub.trans ?_⟩
          exact (sublist_append_right _ _).subperm

omit hb in
theorem yields_handlerPattern (names : List String) :
    Yields p c (p.handlerPattern e b names) fun _ => True := by
  unfold handlerPattern
  split
  · unfold emitMutation
    refine Yields.bind (Q := fun _ => True) ?_ fun _ _ => .pure trivial
    refine (Yields.mapM (P := fun _ _ => True) fun q _ => ?_).bind fun _ _ => .pure trivial
    exact (yields_variableName b q.1).bind fun _ _ => .pure trivial
  · exact .pure trivial

theorem yields_emitHandlers (symbol : Symbol) : Yields p c (p.emitHandlers e b symbol) (Pieces M
      (symbol.handler.toList.flatMap fun _ => (p.block b).body?.toList)) := by
  unfold emitHandlers
  refine (Yields.mapM fun parameters _ => ?_).imp fun codes h => .of_forall₂ h
  unfold emitHandler
  refine (Yields.mapM fun h _ => yields_variableName b _).bind fun names _ => ?_
  refine (yields_handlerPattern names).bind fun pattern _ => ?_
  refine (yields_emitBody hb fun x hx => mem_targets_of_body hx).bind fun body h => .pure ?_
  simpa using h

/-- Not all arguments are written if a property is used. -/
theorem made_useCode {ts : List BlockRef} {receiver : Option Code} {args : List Code}
    (h : Pieces M ts (receiver.toList ++ args)) (mark : Option String) (callee : Symbol)
    (name : String) : M ts (useCode mark (calleeCode callee name receiver) args).marks := by
  have hcallee : (calleeCode callee name receiver).marks = partMarks receiver.toList := by
    cases receiver <;> simp [calleeCode]
  have hhead : ∀ s, ((args.head?.getD (.ofText s)).marks = partMarks args.head?.toList) := by
    intro s
    cases args <;> simp
  have hfirst : (receiver.toList ++ args.head?.toList).Sublist (receiver.toList ++ args) := by
    refine List.Sublist.append_left ?_ _
    cases args with
    | nil => exact nil_sublist _
    | cons arg args => exact List.Sublist.cons_cons arg (nil_sublist args)
  unfold useCode
  split
  · rw [hcallee]
    exact (h.sublist (sublist_append_left _ _)).made hb.toAccounting
  · split
    · rw [marks_infixed, hcallee, hhead, ← partMarks_append]
      exact (h.sublist hfirst).made hb.toAccounting
    · split
      · rw [marks_infixed, hcallee, hhead, ← partMarks_append]
        exact (h.sublist hfirst).made hb.toAccounting
      · have hmarks : (ofParts [calleeCode callee name receiver, .ofText "(",
            .commaSeparated args, .ofText ")"]).marks =
            partMarks (receiver.toList ++ args) := by
          simp [hcallee, partMarks_append]
        rw [hmarks]
        exact h.made hb.toAccounting

theorem yields_emitUse {name : String} {symbol : Symbol}
    (hkind : (p.block b).kind = .hostCall name) (hsymbol : p.surface.symbol? name = some symbol) :
    YieldsOwn p c b M (p.emitUse e b symbol) := by
  have hinputs : p.writtenInputs (p.block b) = hostInputs symbol (p.block b) := by
    rw [p.writtenInputs_of_kind hkind, kindInputs, hsymbol]
    rfl
  have hbodies : p.kindBodies (p.block b) (.hostCall name) =
      symbol.handler.toList.flatMap fun _ => (p.block b).body?.toList := by
    rw [kindBodies, hsymbol]
    rfl
  unfold YieldsOwn emitUse written
  rw [hkind, hbodies, hinputs, hostInputs, plugged_append]
  refine (yields_emitArguments hb symbol symbol.parameters ?_).bind
    fun ⟨receiver, args⟩ ⟨us, vs, hus, hvs, hsub⟩ => ?_
  · rw [hinputs]
    exact subset_append_left _ _
  refine (yields_emitRest hb ?_).bind fun rest hrest => ?_
  · rw [hinputs]
    exact subset_append_right _ _
  refine (yields_emitHandlers hb symbol).bind fun handlers hhandlers => .pure ?_
  refine made_useCode hb ?_ _ _ _
  refine (hus.append ((hvs.append hrest).append hhandlers)).mono ?_
  rw [← append_assoc, ← append_assoc]
  exact (subperm_append_right _).mpr ((subperm_append_right _).mpr hsub)

theorem yields_emitHostCall {name : String} (hkind : (p.block b).kind = .hostCall name) :
    YieldsOwn p c b M (p.emitHostCall e b name) := by
  unfold emitHostCall
  split
  · exact yields_fail b _ _
  · next symbol hsymbol =>
    split
    · exact .pure (hb.text _ _)
    · exact yields_emitUse hb hkind hsymbol

/-! ## Expressions -/

theorem Pieces.written {codes : List Code} (hnames : p.writtenInputs (p.block b) = names)
    (h : Pieces M ((p.block b).plugged names) codes) :
    M (p.written (p.block b)) (partMarks codes) := by
  subst hnames
  exact (h.mono (sublist_append_left _ _).subperm).made hb.toAccounting

theorem yields_emitInputs_written (hnames : p.writtenInputs (p.block b) = names) :
    Yields p c (p.emitInputs e b names) fun codes =>
      M (p.written (p.block b)) (partMarks codes) := by
  refine (yields_emitInputs hb (hnames ▸ List.Subset.refl _)).imp fun codes h => ?_
  exact h.written hb hnames

theorem yields_emitInput_written (hnames : p.writtenInputs (p.block b) = [n]) :
    YieldsOwn p c b M (p.emitInput e b n) := by
  have hn : n ∈ p.writtenInputs (p.block b) := hnames ▸ mem_singleton_self n
  refine (yields_emitInput hb hn).imp fun code h => ?_
  have hwritten := (Pieces.cons h (.nil [])).written hb hnames
  rwa [partMarks_cons, partMarks_nil, append_nil] at hwritten

theorem yields_emitFunctionCall
    (hnames : p.writtenInputs (p.block b) = (p.block b).args.map (·.id)) :
    YieldsOwn p c b M (p.emitFunctionCall e b) := by
  unfold emitFunctionCall
  refine (yields_emitInputs_written hb hnames).bind fun args h => .pure ?_
  rwa [marks_call]

theorem yields_emitInput_two {l r : String} (hnames : p.writtenInputs (p.block b) = [l, r])
    {f : Code → Code → Code} (hf : ∀ x y, (f x y).marks = x.marks ++ y.marks) :
    YieldsOwn p c b M (do return f (← p.emitInput e b l) (← p.emitInput e b r)) := by
  have hl : l ∈ p.writtenInputs (p.block b) := hnames ▸ (.head _)
  have hr : r ∈ p.writtenInputs (p.block b) :=
    hnames ▸ mem_cons_of_mem l (mem_singleton_self r)
  refine (yields_emitInput hb hl).bind fun x hx => ?_
  refine (yields_emitInput hb hr).bind fun y hy => .pure ?_
  have hwritten := (Pieces.cons hx (.cons hy (.nil []))).written hb hnames
  rw [hf]
  rwa [partMarks_cons, partMarks_cons, partMarks_nil, append_nil] at hwritten

omit hb in
theorem marks_compareCode (op : CompareOp) (l r : Code) :
    (compareCode op l r).marks = l.marks ++ r.marks := by
  unfold compareCode
  split
  · simp [asAny]
  · exact marks_infixed l op.symbol r

omit hb in
theorem marks_joinCode (isText : Bool) (codes : List Code) :
    (joinCode isText codes).marks = partMarks codes := by
  have hfold : ∀ (rest : List Code) (start : Code),
      (rest.foldl (fun l r => .infixed l "+" r) start).marks = start.marks ++ partMarks rest := by
    intro rest
    induction rest with
    | nil => simp
    | cons r rest ih =>
      intro start
      rw [foldl_cons, ih, marks_infixed, partMarks_cons, append_assoc]
  cases codes with
  | nil => simp [joinCode]
  | cons first rest =>
    unfold joinCode
    dsimp only
    rw [hfold, partMarks_cons]
    split <;> simp

theorem yields_emitTextJoin (hnames : p.writtenInputs (p.block b) = names) :
    YieldsOwn p c b M (p.emitTextJoin e b names) := by
  cases names with
  | nil =>
    refine .pure ?_
    rw [marks_joinCode]
    exact hb.nil _
  | cons n names =>
    have hn : n ∈ p.writtenInputs (p.block b) := hnames ▸ (.head _)
    have hrest : names ⊆ p.writtenInputs (p.block b) := hnames ▸ subset_cons_self n names
    unfold emitTextJoin emitFirstPart
    refine Yields.bind (Q := fun first =>
      M ((p.block b).inputTarget? n).toList first.2.marks) ?_ fun first hfirst => ?_
    · refine (yields_attach b n).bind fun target htarget => ?_
      refine (yields_targetTypeName target).bind fun type _ => ?_
      exact (yields_emitTarget hb hn htarget).bind fun code h => .pure h
    · refine (yields_emitInputs hb hrest).bind fun rest h => .pure ?_
      rw [marks_joinCode]
      exact (Pieces.cons hfirst h).written hb hnames

theorem yields_emitDefault (ts : List BlockRef) :
    Yields p c (p.emitDefault b) fun code => M ts code.marks := by
  unfold emitDefault
  exact (yields_targetTypeName _).bind fun type _ => .pure (hb.text ts _)

theorem yields_expressionStep : YieldsOwn p c b M (p.expressionStep e b) := by
  have htext := hb.text (p.written (p.block b))
  unfold expressionStep
  dsimp only
  split
  iterate 4 exact .pure (htext _)
  iterate 2 exact (yields_variableName b _).bind fun _ _ => .pure (htext _)
  iterate 3 next hkind =>
    exact yields_emitInput_two hb (p.writtenInputs_of_kind hkind) fun _ _ => marks_infixed _ _ _
  · next hkind =>
    exact yields_emitInput_two hb (p.writtenInputs_of_kind hkind) (marks_compareCode _)
  · next hkind =>
    have hnames := p.writtenInputs_of_kind hkind
    refine (yields_emitInput_written hb hnames).bind fun code h => .pure ?_
    rwa [marks_prefixed]
  iterate 2 next hkind =>
    have hnames := p.writtenInputs_of_kind hkind
    refine (yields_emitInputs_written hb hnames).bind fun codes h => .pure ?_
    rwa [marks_call]
  · next hkind =>
    exact yields_emitTextJoin hb (p.writtenInputs_of_kind hkind)
  · next hkind =>
    have hnames := p.writtenInputs_of_kind hkind
    refine (yields_emitInput_written hb hnames).bind fun code h => .pure ?_
    rwa [marks_followedBy]
  · next hkind =>
    have hnames := p.writtenInputs_of_kind hkind
    refine (yields_emitInputs_written hb hnames).bind fun codes h => .pure ?_
    simpa using h
  · next hkind =>
    exact yields_emitInput_two hb (p.writtenInputs_of_kind hkind) fun _ _ => by simp
  · next hkind =>
    have hnames := p.writtenInputs_of_kind hkind
    refine (yields_emitInput_written hb hnames).bind fun code h => .pure ?_
    rwa [marks_followedBy]
  · next hkind =>
    exact yields_emitFunctionCall hb (p.writtenInputs_of_kind hkind)
  · exact .pure (htext _)
  · next hkind => exact yields_emitHostCall hb hkind
  · exact yields_emitDefault hb _

end Writing

end BlockProgram
