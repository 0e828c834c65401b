import BlockProgram.Proofs.Pairing.Compile
import BlockProgram.Proofs.TypeGraph.Requests
import BlockProgram.Proofs.Typing.Final
import BlockProgram.Proofs.Workspace.Cover

/-!
# The search for result types ends

Every level of the search for the node of a block either goes down in the tree of blocks or starts
with a function that was not in progress, and there are only so many of those. So the search ends at
some depth, whatever functions call each other or themselves: what would be done further down is
never done (`searchTo_agree`). What the search notes while it is in the body of a function is gone
when it leaves (`returnTypes_end`).
-/

namespace BlockProgram

open Program Workspace List Relation Compilation TypeGraph

variable {p : Program} {c c' : Compilation} {b : BlockRef}

/-- The search for the node of a block down to a depth. Below that `stop` takes over. -/
def Program.searchTo (p : Program) (stop : BlockRef → TypingM NodeId) :
    Nat → BlockRef → TypingM NodeId
  | 0, b => stop b
  | depth + 1, b => do
    match (← get).blockNodes.get? b with
    | some n => return n
    | none => p.newBlockType (p.searchTo stop depth) b

/-! ## How deep the search may get -/

/-- The definitions of functions that are not in progress. -/
def Program.unsearched (p : Program) (names : List String) : Finset BlockRef :=
  (Finset.range p.workspace.size).filter fun b =>
    (p.block b).functionName?.any (· ∉ names)

theorem mem_unsearched {names : List String} : b ∈ p.unsearched names ↔
      b < p.workspace.size ∧ ∃ name, (p.block b).functionName? = some name ∧ name ∉ names := by
  simp [unsearched, Option.any_eq_true]

/-- A bound on the depth of the search from a block while the named functions are in progress. -/
noncomputable def Program.depth (p : Program) (names : List String) (b : BlockRef) : Nat :=
  (p.unsearched names).card * (p.workspace.size + 1) + p.workspace.reach b

theorem depth_lt (names : List String) (b : BlockRef) :
    p.depth names b < (p.workspace.size + 1) * (p.workspace.size + 1) := by
  have hcard : (p.unsearched names).card ≤ p.workspace.size :=
    (Finset.card_filter_le _ _).trans_eq (Finset.card_range _)
  have hreach : p.workspace.reach b ≤ p.workspace.size := reach_le b
  unfold depth
  nlinarith

/-- What is plugged into a block is less deep. -/
theorem depth_target (hws : p.workspace.Sound) (names : List String) {t : BlockRef}
    (ht : t ∈ (p.block b).targets) : p.depth names t < p.depth names b :=
  Nat.add_lt_add_left (reach_lt hws (mem_append_left _ ht)) _

/-- What a function returns is less deep than any call of it, since the function is in progress
then. -/
theorem depth_function {names : List String} {name : String} {definition : BlockRef}
    (hdef : p.workspace.functionDefinition? name = some definition) (hout : name ∉ names)
    (value call : BlockRef) : p.depth (name :: names) value < p.depth names call := by
  have hfound := find?_some hdef
  rw [Bool.and_eq_true, beq_iff_eq, beq_iff_eq] at hfound
  have hlt := mem_range.mp (mem_of_find?_eq_some hdef)
  have hmem : definition ∈ p.unsearched names := mem_unsearched.mpr ⟨hlt, name, hfound.2, hout⟩
  have hless : p.unsearched (name :: names) ⊂ p.unsearched names := by
    refine (Finset.ssubset_iff_of_subset ?_).mpr ⟨definition, hmem, ?_⟩
    · intro b hb
      obtain ⟨hb, n, hname, hn⟩ := mem_unsearched.mp hb
      exact mem_unsearched.mpr ⟨hb, n, hname, fun h => hn (.tail name h)⟩
    · intro hdefinition
      obtain ⟨_, n, hname, hn⟩ := mem_unsearched.mp hdefinition
      rw [show (p.block definition).functionName? = some name from hfound.2] at hname
      cases hname
      exact hn (.head _)
  have hcard : (p.unsearched (name :: names)).card + 1 ≤ (p.unsearched names).card :=
    Finset.card_lt_card hless
  have hreach : p.workspace.reach value ≤ p.workspace.size := reach_le value
  unfold depth
  nlinarith

/-! ## Searches that agree -/

/-- Two searches give the same where they get less than `fuel` deep. -/
def Agree (p : Program) (fuel : Nat) (f g : BlockRef → TypingM NodeId) : Prop :=
  ∀ b c, Consistent p c → p.depth c.inProgress b < fuel → f b c = g b c

section Runs

variable {ε σ α β : Type} {s : σ}

theorem run_bind_congr {m m' : EStateM ε σ α} {f f' : α → EStateM ε σ β} (hm : m s = m' s)
    (hf : ∀ a s', m' s = .ok a s' → f a s' = f' a s') : (m >>= f) s = (m' >>= f') s := by
  cases hr : m' s with
  | ok a s' =>
    rw [run_bind_of_ok (hm.trans hr), run_bind_of_ok hr]
    exact hf a s' hr
  | error e s' => rw [run_bind_of_error (hm.trans hr), run_bind_of_error hr]

theorem run_mapM_congr {f f' : α → EStateM ε σ β} {I : σ → Prop} (l : List α)
    (hf : ∀ a ∈ l, ∀ s, I s → f a s = f' a s)
    (hI : ∀ a ∈ l, ∀ s b s', I s → f' a s = .ok b s' → I s') (hs : I s) :
    l.mapM f s = l.mapM f' s := by
  induction l generalizing s with
  | nil => rfl
  | cons a r ih =>
    rw [mapM_cons, mapM_cons]
    refine run_bind_congr (hf a (.head _) s hs) fun b s' hb => ?_
    exact run_bind_congr (ih (fun x hx => hf x (.tail a hx))
      (fun x hx => hI x (.tail a hx)) (hI a (.head _) s b s' hs hb))
      fun _ _ _ => rfl

end Runs

section Search

variable {f g : BlockRef → TypingM NodeId} {fuel : Nat} (h : Agree p fuel f g) (ht : Typer p g)
include h ht

theorem linkFirstKnown_agree (list : NodeId) (items : List BlockRef) (hc : Consistent p c)
    (hitems : ∀ i ∈ items, p.depth c.inProgress i < fuel) :
    p.linkFirstKnown f list items c = p.linkFirstKnown g list items c := by
  induction items generalizing c with
  | nil => rfl
  | cons item r ih =>
    have hrest : ∀ d, Advances c d → ∀ i ∈ r, p.depth d.inProgress i < fuel := by
      intro d hadv i hi
      rw [hadv.inProgress]
      exact hitems i (.tail item hi)
    unfold linkFirstKnown
    rw [run_bind_get, run_bind_get]
    split
    · refine run_bind_congr (h item c hc (hitems item (.head _))) fun n c1 h1 => ?_
      obtain ⟨hc1, hadv1⟩ := ((ht item c hc).of_ok h1).1 hc
      refine run_bind_congr rfl fun t c2 h2 => ?_
      have hresolve := (runs_resolvedType hc1.graph n).mono fun _ h => h.changes
      obtain ⟨hc2, hadv2⟩ := ((moves_graph (p := p) hresolve).of_ok h2).1 hc1
      split
      · rfl
      · exact ih hc2 (hrest c2 (hadv1.trans hadv2))
    · exact ih hc (hrest c (Advances.refl c))

omit ht in
theorem attachedType_agree (input : String) (b : BlockRef) (hc : Consistent p c)
    (hfuel : ∀ x, p.depth c.inProgress x < fuel) :
    p.attachedType f input b c = p.attachedType g input b c := by
  unfold attachedType
  refine run_bind_congr rfl fun t c1 h1 => ?_
  have hmoves : Moves (Proceeds p) (liftM (p.attach b input none) : TypingM Target) c _ :=
    .lift (runs_attach hc b input none)
  obtain ⟨hc1, hadv1⟩ := (hmoves.of_ok h1).1 hc
  cases t with
  | block x => exact h x c1 hc1 (by rw [hadv1.inProgress]; exact hfuel x)
  | placeholder i => rfl

theorem returnedType_agree (definition : BlockRef) (returns : List BlockRef)
    (hc : Consistent p c) (hfuel : ∀ x, p.depth c.inProgress x < fuel) :
    p.returnedType f definition returns c = p.returnedType g definition returns c := by
  unfold returnedType
  refine run_bind_congr (run_mapM_congr _
    (I := fun d => Consistent p d ∧ d.inProgress = c.inProgress) ?_ ?_ ⟨hc, rfl⟩) fun _ _ _ => rfl
  · rintro b _ d ⟨hd, hnames⟩
    exact attachedType_agree h _ b hd (by rw [hnames]; exact hfuel)
  · rintro b _ d n d' ⟨hd, hnames⟩ hok
    obtain ⟨hd', hadv⟩ := ((moves_attachedType ht hd returnValueInput b).of_ok hok).1 hd
    exact ⟨hd', hadv.inProgress.trans hnames⟩

theorem newFunctionType_agree (name : String) (definition : BlockRef) (hc : Consistent p c)
    (hfuel : ∀ x, p.depth (name :: c.inProgress) x < fuel) :
    p.newFunctionType f name definition c = p.newFunctionType g name definition c := by
  have hreturned := returnedType_agree h ht definition (p.returnsOf c definition)
    (c := { c with inProgress := name :: c.inProgress }) { hc with } hfuel
  unfold newFunctionType
  rw [run_bind_get, run_bind_get]
  split
  · rfl
  · refine run_bind_congr ?_ fun _ _ _ => rfl
    unfold whileInProgress
    rw [hreturned]

theorem functionTypeWith_agree (name : String) (hc : Consistent p c)
    (hfuel : ∀ definition, p.workspace.functionDefinition? name = some definition →
      name ∉ c.inProgress → ∀ x, p.depth (name :: c.inProgress) x < fuel) :
    p.functionTypeWith f name c = p.functionTypeWith g name c := by
  unfold functionTypeWith
  rw [run_bind_get, run_bind_get]
  cases c.functionNodes.get? name with
  | some n => rfl
  | none =>
    cases hdef : p.workspace.functionDefinition? name with
    | none => rfl
    | some definition =>
      dsimp only
      split
      · rfl
      · next hout =>
        exact newFunctionType_agree h ht name definition hc (hfuel definition hdef hout)

theorem outputType_agree (hws : p.workspace.Sound) (hc : Consistent p c)
    (hfree : c.blockNodes.get? b = none) (hown : p.nodeSource b = .own)
    (hb : p.depth c.inProgress b ≤ fuel) : p.outputType f b c = p.outputType g b c := by
  have hbelow : ∀ t ∈ (p.block b).targets, p.depth c.inProgress t < fuel :=
    fun t ht => lt_of_lt_of_le (depth_target hws _ ht) hb
  have hlist : p.listLiteralType f b c = p.listLiteralType g b c := by
    unfold listLiteralType
    refine run_bind_congr rfl fun list c1 h1 => ?_
    have hmoves : Moves (Proceeds p) (liftM (ownNode b true) : TypingM NodeId) c _ :=
      .lift (runs_ownNode true hfree hown)
    obtain ⟨hc1, hadv1⟩ := (hmoves.of_ok h1).1 hc
    refine run_bind_congr (linkFirstKnown_agree h ht list _ hc1 fun t hit => ?_) fun _ _ _ => rfl
    obtain ⟨i, hi, hit⟩ := mem_filterMap.mp hit
    rw [hadv1.inProgress]
    exact hbelow t (mem_targets (mem_of_mem_filter hi) hit)
  have hgeneric : p.genericType f b c = p.genericType g b c := by
    unfold genericType
    cases htarget : (p.listInput? (p.block b)).bind (p.block b).inputTarget? with
    | none => rfl
    | some t =>
      obtain ⟨name, _, hname⟩ := Option.bind_eq_some_iff.mp htarget
      have ht := hbelow t (mem_targets_of_inputTarget hname)
      exact run_bind_congr (h t c hc ht) fun _ _ _ => rfl
  unfold outputType
  rcases (p.block b).output with _ | _ | ⟨first, rest⟩
  · rfl
  · rfl
  · dsimp only
    split
    · cases rest with
      | cons list _ => rfl
      | nil =>
        dsimp only
        split
        · exact hlist
        · rfl
    · split
      · exact hgeneric
      · rfl

theorem newBlockType_agree (hws : p.workspace.Sound) (hc : Consistent p c)
    (hfree : c.blockNodes.get? b = none) (hb : p.depth c.inProgress b ≤ fuel) :
    p.newBlockType f b c = p.newBlockType g b c := by
  rw [newBlockType_eq, newBlockType_eq]
  cases hs : p.nodeSource b with
  | binding name => rfl
  | function name =>
    refine functionTypeWith_agree h ht name hc fun definition hdef hout x => ?_
    exact lt_of_lt_of_le (depth_function hdef hout x b) hb
  | own => exact outputType_agree h ht hws hc hfree hs hb
  | declared t => rfl

end Search

/-- Where the search gets less than `fuel` deep, nothing is asked of what would be below. -/
theorem searchTo_agree (hws : p.workspace.Sound) (stop : BlockRef → TypingM NodeId) (fuel : Nat) :
    ∀ n m, fuel ≤ n → fuel ≤ m → Agree p fuel (p.searchTo stop n) (p.blockTypeFrom m) := by
  induction fuel with
  | zero =>
    intro n m _ _ b c _ hdepth
    cases hdepth
  | succ fuel ih =>
    intro n m hn hm b c hc hdepth
    obtain _ | n := n
    · omega
    obtain _ | m := m
    · omega
    have hagree := ih n m (Nat.le_of_succ_le_succ hn) (Nat.le_of_succ_le_succ hm)
    unfold searchTo blockTypeFrom
    rw [run_bind_get, run_bind_get]
    cases hfree : c.blockNodes.get? b with
    | some x => rfl
    | none =>
      exact newBlockType_agree hagree (typer_blockTypeFrom p m) hws hc hfree
        (Nat.le_of_lt_succ hdepth)

/-- The search for the node of a block ends at the depth of the block. -/
theorem searchTo_eq (hws : p.workspace.Sound) (hc : Consistent p c) (b : BlockRef)
    (stop : BlockRef → TypingM NodeId) {n : Nat} (hn : p.depth c.inProgress b < n) :
    p.searchTo stop n b c = p.blockType b c :=
  searchTo_agree hws stop _ n _ hn (depth_lt _ b) b c hc (Nat.lt_succ_self _)

theorem functionTypeWith_searchTo (hws : p.workspace.Sound) (hc : Consistent p c) (name : String)
    (stop : BlockRef → TypingM NodeId) {n : Nat}
    (hn : (p.workspace.size + 1) * (p.workspace.size + 1) ≤ n) :
    p.functionTypeWith (p.searchTo stop n) name c = p.functionType name c :=
  functionTypeWith_agree (searchTo_agree hws stop _ n _ hn le_rfl) (typer_blockType p)
    name hc fun _ _ _ x => depth_lt _ x

/-! ## At any time -/

/-- What is known after a typing step, whether it fails or not. -/
def Compilation.afterTyping {α : Type} (c : Compilation) (m : TypingM α) : Compilation :=
  match m c with
  | .ok _ d => d
  | .error _ d => d

theorem Moves.afterTyping {α : Type} {m : TypingM α} {Q : α → Compilation → Prop}
    (h : Moves (Proceeds p) m c Q) : Proceeds p c (c.afterTyping m) := by
  unfold Compilation.afterTyping
  cases hm : m c with
  | ok a d => exact (h.of_ok hm).1
  | error e d => exact h.of_error hm

/-- One step of the work on a program. Scopes are tracked first. After that the steps come that a
search is made of, whole searches, and requests for code. The pass over all blocks is made while no
function is in progress. -/
inductive Program.WorkStep (p : Program) : Compilation → Compilation → Prop where
  | track (disabled : List BlockRef) (taken : List String) :
      WorkStep p (.fresh disabled taken) (p.track (.fresh disabled taken)).2
  | graph (c : Compilation) (op : TypeGraph.Operation) (hop : ∀ i ∈ op.nodes, i < c.graph.size) :
      WorkStep p c { c with graph := op.apply c.graph }
  | attach (c : Compilation) (b : BlockRef) (input : String) (type : Option TypeName) :
      WorkStep p c (p.attach b input type c).2
  | rememberNode (c : Compilation) (b : BlockRef) (n : NodeId)
      (hfree : c.blockNodes.get? b = none) (hn : n < c.graph.size) (hown : p.nodeSource b = .own) :
      WorkStep p c (rememberNode b n c).2
  | rememberFunction (c : Compilation) (name : String) (n : NodeId)
      (hfree : c.functionNodes.get? name = none) (hout : name ∉ c.inProgress)
      (hn : n < c.graph.size) (hdef : (p.workspace.functionDefinition? name).isSome) :
      WorkStep p c (rememberFunction name n c).2
  | report (c : Compilation) (b : BlockRef) (message : String) :
      WorkStep p c (p.report b message c).2
  | enter (c : Compilation) (name : String) :
      WorkStep p c { c with inProgress := name :: c.inProgress }
  | leave (c : Compilation) (name : String) :
      WorkStep p c { c with inProgress := c.inProgress.erase name }
  | blockType (c : Compilation) (b : BlockRef) : WorkStep p c (c.afterTyping (p.blockType b))
  | functionType (c : Compilation) (name : String) :
      WorkStep p c (c.afterTyping (p.functionType name))
  | infer (c : Compilation) (hidle : c.inProgress = []) : WorkStep p c (c.after p.infer)
  | code (c : Compilation) (r : CodeRequest) : WorkStep p c (r.apply p c)

theorem Orderly.proceed (hc : Orderly p c) (h : Proceeds p c c') :
    Orderly p c' ∧ Advances c c' := by
  obtain ⟨hcons, hadv⟩ := h hc.consistent
  have hscope : c'.scope = c.scope := by
    funext s
    unfold scope
    rw [hadv.scopes]
  exact ⟨⟨hcons, hc.tree.congr (by rw [hadv.scopes]) (fun s => by rw [hscope])
    (fun s => by rw [hscope]), hc.once.congr (by rw [hadv.bindings])
      (fun v => by rw [hadv.binding_eq]) (fun s => by rw [hscope])⟩, hadv⟩

/-- No step forgets what a function returns. -/
theorem keeps_of_step (h : p.WorkStep c c') (hc : Orderly p c) :
    Orderly p c' ∧ ∀ f n, c.functionNodes.get? f = some n → c'.functionNodes.get? f = some n := by
  have hproceeds : ∀ {d}, Proceeds p c d →
      Orderly p d ∧ ∀ f n, c.functionNodes.get? f = some n → d.functionNodes.get? f = some n :=
    fun hd => ⟨(hc.proceed hd).1, (hc.proceed hd).2.functionNodes⟩
  have hcons := hc.consistent
  have hnoted : ∀ names, Orderly p { c with inProgress := names } := fun names =>
    ⟨{ hcons with }, hc.tree.congr rfl (fun _ => rfl) (fun _ => rfl),
      hc.once.congr le_rfl (fun _ => rfl) fun _ => rfl⟩
  cases h with
  | track disabled taken =>
    exact ⟨(steps_track_fresh disabled taken p).orderly (fresh_orderly disabled taken p),
      fun f n h => by cases h⟩
  | graph c op hop => exact hproceeds (.of_changes (op.changes hcons.graph hop))
  | attach c b input type => exact hproceeds (runs_attach hcons b input type).1
  | rememberNode c b n hfree hn hown => exact hproceeds (.insert_blockNode hfree hn hown)
  | rememberFunction c name n hfree hout hn hdef =>
    exact hproceeds (.insert_functionNode hfree hout hn hdef)
  | report c b message => exact hproceeds (.report b message)
  | enter c name => exact ⟨hnoted _, fun _ _ h => h⟩
  | leave c name => exact ⟨hnoted _, fun _ _ h => h⟩
  | blockType c b => exact hproceeds (moves_blockType hcons b).afterTyping
  | functionType c name =>
    exact hproceeds (moves_functionTypeWith (typer_blockType p) hcons name).afterTyping
  | infer c hidle =>
    refine hproceeds ?_
    have hmoves := moves_infer (p := p) ⟨hcons, hidle⟩
    unfold Compilation.after
    split
    · next a d hm => exact (Ensures.of_ok hmoves hm).1
    · next e d hm => exact Ensures.of_error hmoves hm
  | code c r => exact hproceeds fun _ => r.advances hcons

theorem keeps_of_steps (h : ReflTransGen p.WorkStep c c') (hc : Orderly p c) :
    Orderly p c' ∧ ∀ f n, c.functionNodes.get? f = some n → c'.functionNodes.get? f = some n := by
  induction h with
  | refl => exact ⟨hc, fun _ _ h => h⟩
  | tail _ hlast ih =>
    obtain ⟨hd, hkeeps⟩ := keeps_of_step hlast ih.1
    exact ⟨hd, fun f n h => hkeeps f n (ih.2 f n h)⟩

theorem functionType_of_known {name : String} {n : NodeId}
    (h : c.functionNodes.get? name = some n) : p.functionType name c = .ok n c := by
  unfold functionType functionTypeWith
  rw [run_bind_get, h]
  rfl

/-- Whenever the node of a block or of what a function returns is asked for, the search for it ends:
it gets so deep and no deeper, whatever `stop` would do below, and each request that it makes of the
type graph or of the scopes around ends too. The functions in progress are then those that were
before, also if the search fails. Once there is a node for what a defined function returns that is
not in progress, every later request gives that node and changes nothing. -/
theorem returnTypes_end {surface : Surface} {specs : List BlockSpec} {vars : List VariableModel}
    (hbuild : Workspace.build surface specs vars = .ok p.workspace) {disabled : List BlockRef}
    {taken : List String} (hc : Relation.ReflTransGen p.WorkStep (.fresh disabled taken) c) :
    (∀ b, (∃ depth, ∀ stop n, depth ≤ n → p.searchTo stop n b c = p.blockType b c) ∧
      (c.afterTyping (p.blockType b)).inProgress = c.inProgress) ∧
    (∀ name, (∃ depth, ∀ stop n, depth ≤ n →
        p.functionTypeWith (p.searchTo stop n) name c = p.functionType name c) ∧
      (c.afterTyping (p.functionType name)).inProgress = c.inProgress) ∧
    (∀ req : TypeGraph.Request, (∀ i ∈ req.nodes, i < c.graph.size) →
      ∃ time, ∀ clock, time ≤ clock → req.search clock c.graph = some (req.answer c.graph)) ∧
    (∀ s q, (c.scope s).parent = some q → q < s) ∧
    ∀ name n d, (p.workspace.functionDefinition? name).isSome → name ∉ c.inProgress →
      p.functionType name c = .ok n d → ∀ e, Relation.ReflTransGen p.WorkStep d e →
        p.functionType name e = .ok n e := by
  have hws := build_sound hbuild
  obtain ⟨horder, _⟩ := keeps_of_steps hc (fresh_orderly disabled taken p)
  have hcons := horder.consistent
  have hblock := fun b => moves_blockType hcons b
  have hfunction := fun name => moves_functionTypeWith (typer_blockType p) hcons name
  refine ⟨fun b => ⟨⟨p.depth c.inProgress b + 1, ?_⟩, ?_⟩,
    fun name => ⟨⟨(p.workspace.size + 1) * (p.workspace.size + 1), ?_⟩, ?_⟩,
    fun req hreq => ⟨ticks c.graph.size + 1, ?_⟩, ?_, ?_⟩
  · exact fun stop n hn => searchTo_eq hws hcons b stop hn
  · exact (horder.proceed (hblock b).afterTyping).2.inProgress
  · exact fun stop n hn => functionTypeWith_searchTo hws hcons name stop hn
  · exact (horder.proceed (hfunction name).afterTyping).2.inProgress
  · exact fun clock hclock => req.search_eq hcons.graph hreq hclock
  · exact fun s q hq => (horder.tree.parent_lt hq).1
  · intro name n d hdef hout hok e hsteps
    obtain ⟨hp, _, hknown⟩ := (hfunction name).of_ok hok
    have hknown := hknown hout
    obtain ⟨definition, hdef⟩ := Option.isSome_iff_exists.mp hdef
    rw [hdef] at hknown
    obtain ⟨_, hkeeps⟩ := keeps_of_steps hsteps (horder.proceed hp).1
    exact functionType_of_known (hkeeps name n hknown)

/-- Two functions, each of which returns what the other one does. -/
def echoBlocks : List BlockSpec :=
  [{ id := "f", tag := "function_definition", fields := [⟨"function_name", "f"⟩],
     inputs := [("STACK", .statement, some "a")] },
   { id := "a", tag := "function_return", inputs := [("RETURN_VALUE", .value, some "b")] },
   { id := "b", tag := "function_call_output", fields := [⟨"function_name", "g"⟩] },
   { id := "g", tag := "function_definition", fields := [⟨"function_name", "g"⟩],
     inputs := [("STACK", .statement, some "c")] },
   { id := "c", tag := "function_return", inputs := [("RETURN_VALUE", .value, some "d")] },
   { id := "d", tag := "function_call_output", fields := [⟨"function_name", "f"⟩] }]

def echo : Program :=
  .ofBlocks echoBlocks

/-- The search goes from `f` into `g` and there comes upon `f` again, which is in progress. It ends
all the same, and it gives `f` the same node after all blocks have been typed. -/
theorem returnTypes_end_echo :
    let c := (echo.track (.fresh [] [])).2
    build {} echoBlocks [] = .ok echo.workspace ∧
    ReflTransGen echo.WorkStep (.fresh [] []) c ∧ c.inProgress = [] ∧
    (echo.workspace.functionDefinition? "f").isSome ∧ ∃ n d, echo.functionType "f" c = .ok n d ∧
      (∃ depth, ∀ stop m, depth ≤ m →
        echo.functionTypeWith (echo.searchTo stop m) "f" c = .ok n d) ∧
      d.inProgress = [] ∧
      echo.functionType "f" (d.after echo.infer) = .ok n (d.after echo.infer) := by
  intro c
  have hbuild : build {} echoBlocks [] = .ok echo.workspace := by decide +kernel
  have hsteps : ReflTransGen echo.WorkStep (.fresh [] []) c := .single (.track [] [])
  have hidle : c.inProgress = [] := (idle_track echo [] []).inProgress
  have hdef : (echo.workspace.functionDefinition? "f").isSome := by decide +kernel
  obtain ⟨n, d, hrun, _⟩ := Succeeds.exists_ok
    (by decide +kernel : Succeeds (echo.functionType "f") c fun _ _ => True)
  obtain ⟨_, hfunction, _, _, hagain⟩ := returnTypes_end hbuild hsteps
  obtain ⟨hends, hclean⟩ := hfunction "f"
  unfold afterTyping at hclean
  rw [hrun] at hends hclean
  have hidle' : d.inProgress = [] := hclean.trans hidle
  refine ⟨hbuild, hsteps, hidle, hdef, n, d, hrun, hends, hidle', ?_⟩
  exact hagain "f" n d hdef (by rw [hidle]; exact not_mem_nil) hrun _ (.single (.infer d hidle'))

end BlockProgram
