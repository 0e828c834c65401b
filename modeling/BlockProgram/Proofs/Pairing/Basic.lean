import BlockProgram.Compile.Output
import BlockProgram.Proofs.Compilation.Consistent
import BlockProgram.Proofs.Twins
import BlockProgram.Proofs.Workspace.Traversal

/-!
# Two programs side by side

A `Pairing` sets a program beside another one whose blocks it has among its own. The pairing is
`Faithful` when the two agree on everything that typing and writing read: where the blocks come from
that are reached, what these blocks hold, and which variables their names mean. Then both programs
take the same steps, in states that are `Abreast`.

A program paired with itself is the special case in which nothing is left to compare but that no
step fails.
-/

namespace BlockProgram

open List Program Compilation

variable {p : Program} {block : Block}

/-! ## What a block reads -/

/-- The inputs of a host call that are read as values. -/
def Program.hostOperands (symbol : Symbol) (block : Block) : List String :=
  let further : List String :=
    match block.mutation with
    | some (.rest count) => (List.range count).map Mutation.restInput
    | _ => []
  Mutation.instanceInput :: symbol.parameters.map (·.inputOn block.mutation) ++ further

/-- The inputs of a block of a kind that are read as values. -/
def Program.kindOperands (p : Program) (block : Block) (kind : BlockKind) : List String :=
  match kind with
  | .arithmetic _ => "A" :: "B" :: block.valueInputs.map (·.name)
  | .modulo => "DIVIDEND" :: "DIVISOR" :: block.valueInputs.map (·.name)
  | .mathBinary _ | .mathUnary _ => block.valueInputs.map (·.name)
  | .compare _ | .boolOperation _ => ["A", "B"]
  | .negate => ["BOOL"]
  | .textLength | .variableSet | .variableChange => ["VALUE"]
  | .textJoin | .listCreate => itemInputs block
  | .conditional => (block.numberedInputs "IF").map (·.name)
  | .repeatTimes => ["TIMES"]
  | .whileLoop => ["COND"]
  | .forRange => ["FROM", "TO"]
  | .forOf => ["LIST"]
  | .listIndexGet => ["LIST", "INDEX"]
  | .listIndexSet => ["LIST", "INDEX", "VALUE"]
  | .listLength => [lengthInput block]
  | .functionCall | .functionCallOutput => block.args.map (·.id)
  | .functionReturn => [returnValueInput]
  | .hostCall name => ((p.surface.symbol? name).map (hostOperands · block)).getD []
  | _ => []

/-- The inputs of a block that are read as values. -/
def Program.operands (p : Program) (block : Block) : List String :=
  (p.listInput? block).toList ++ p.kindOperands block block.kind

theorem Program.mem_operands {kind : BlockKind} (hkind : block.kind = kind) {n : String}
    (hn : n ∈ p.kindOperands block kind) : n ∈ p.operands block := by
  subst hkind
  exact mem_append_right _ hn

theorem Program.operands_onStart (hkind : block.kind = .onStart) : p.operands block = [] := by
  unfold operands listInput?
  rw [hkind]
  rfl

theorem Program.mem_operands_host {name : String} (hkind : block.kind = .hostCall name)
    {symbol : Symbol} (hsymbol : p.surface.symbol? name = some symbol) {n : String}
    (hn : n ∈ hostOperands symbol block) : n ∈ p.operands block := by
  refine mem_operands hkind ?_
  show n ∈ ((p.surface.symbol? name).map (hostOperands · block)).getD []
  rw [hsymbol]
  exact hn

/-- The properties that the object pattern of a block names. -/
def Block.patternNames (block : Block) : List String :=
  match block.mutation with
  | some (.destructuring properties) => properties.map Prod.fst
  | _ => []

/-- The names that a block of a kind looks up. -/
def Program.lookups (p : Program) (block : Block) (kind : BlockKind) : List String :=
  match kind with
  | .variableGet | .variableSet | .variableChange | .forRange | .forOf =>
    [block.variableField?.getD ""]
  | .argumentReporter => [(block.field? "VALUE").getD ""]
  | .repeatTimes => [repeatIndex]
  | .functionDefinition => block.args.map (·.name)
  | .hostCall name => (p.handlerOf name).map (handlerName block) ++ block.patternNames
  | _ => []

/-- Whether a block stands for a variable. -/
def Block.isReader (block : Block) : Bool :=
  match block.kind with
  | .variableGet | .argumentReporter => true
  | _ => false

/-- The block that a generic result comes from. -/
def Program.receiver? (p : Program) (b : BlockRef) : Option BlockRef :=
  match (p.block b).output with
  | some (first :: _) =>
    if first = TypeName.generic then (p.listInput? (p.block b)).bind (p.block b).inputTarget?
    else none
  | _ => none

/-- From a block follow the lists that generic results are read from. -/
def Program.ReadsFrom (p : Program) : BlockRef → BlockRef → Prop :=
  Relation.ReflTransGen fun x y => p.receiver? x = some y

/-! ## Pairings -/

/-- Two programs of which the left one has the blocks of the right one among its own. -/
structure Pairing where
  left : Program
  right : Program
  /-- Where the left program has a block of the right one. -/
  embed : BlockRef → BlockRef
  /-- What is known about the programs once their scopes are found. -/
  leftScopes : Compilation
  rightScopes : Compilation
  /-- The blocks of the right program that are typed and written. -/
  Reached : BlockRef → Prop
  /-- The blocks of the right program whose types are asked for. -/
  Asked : BlockRef → Prop
  /-- Whether the runs may end in a fault. -/
  MayFail : Prop

def Binding.rename (e : BlockRef → BlockRef) (x : Binding) : Binding :=
  { x with first := x.first.map e, references := x.references.map e }

def Placeholder.rename (e : BlockRef → BlockRef) (x : Placeholder) : Placeholder :=
  { x with owner := e x.owner }

def Target.rename (e : BlockRef → BlockRef) : Target → Target
  | .block b => .block (e b)
  | .placeholder i => .placeholder i

namespace Pairing

variable (P : Pairing)

def leftLive (b : BlockRef) : Bool :=
  P.left.isLive P.leftScopes b

def rightLive (b : BlockRef) : Bool :=
  P.right.isLive P.rightScopes b

/-- The live statements of two chains are the same. -/
def SameChain (first first' : Option BlockRef) : Prop :=
  (P.left.workspace.chain first).filter P.leftLive =
    ((P.right.workspace.chain first').filter P.rightLive).map P.embed

/-- Two inputs hold the same, as far as it is read. -/
structure MatchesInput (operands : List String) (i j : Input) : Prop where
  name : i.name = j.name
  kind : i.kind = j.kind
  target : j.kind = .value ∨ j.name ∈ operands → i.target = j.target.map P.embed
  chain : P.SameChain i.target j.target

/-- A block of the right program is the same in the left one, as far as it is read. -/
structure Matches (b : BlockRef) : Prop where
  tag : (P.left.block (P.embed b)).tag = (P.right.block b).tag
  kind : (P.left.block (P.embed b)).kind = (P.right.block b).kind
  fields : (P.left.block (P.embed b)).fields = (P.right.block b).fields
  mutation : (P.left.block (P.embed b)).mutation = (P.right.block b).mutation
  output : (P.left.block (P.embed b)).output = (P.right.block b).output
  signature : (P.left.block (P.embed b)).signature = (P.right.block b).signature
  inputs : List.Forall₂ (P.MatchesInput (P.right.operands (P.right.block b)))
    (P.left.block (P.embed b)).inputs (P.right.block b).inputs
  start : (P.right.block b).kind = .onStart →
    P.SameChain ((P.left.block (P.embed b)).statementInputs.findSome? (·.target))
      ((P.right.block b).statementInputs.findSome? (·.target))

/-- The programs agree on what their blocks are. -/
structure MatchesPrograms : Prop where
  left_sound : P.left.workspace.Sound
  right_sound : P.right.workspace.Sound
  surface : P.left.surface = P.right.surface
  vars : P.left.workspace.vars = P.right.workspace.vars
  injective : Function.Injective P.embed
  live : ∀ b, P.leftLive (P.embed b) = P.rightLive b
  ids : ∀ b, (P.left.block (P.embed b)).id = (P.right.block b).id
  asked : ∀ b, P.Asked b → P.Matches b
  definition : ∀ name, P.left.workspace.functionDefinition? name =
    (P.right.workspace.functionDefinition? name).map P.embed
  returns : ∀ name d, P.right.workspace.functionDefinition? name = some d →
    P.left.returnsOf P.leftScopes (P.embed d) = (P.right.returnsOf P.rightScopes d).map P.embed
  ownCall : ∀ name d, P.right.workspace.functionDefinition? name = some d →
    ∀ r ∈ P.right.returnsOf P.rightScopes d,
      P.left.returnsOwnCall name (P.embed r) = P.right.returnsOwnCall name r
  typed : ∀ b name, P.Reached b → P.right.kind b = .hostCall name →
    ∀ n ∈ P.right.operands (P.right.block b),
      P.left.isTyped (P.left.block (P.embed b)) n = P.right.isTyped (P.right.block b) n

/-- What is reached from a block that is reached is reached too. -/
structure ClosedReads : Prop where
  lt : ∀ b, P.Asked b → P.embed b < P.left.workspace.size ∧ b < P.right.workspace.size
  asked : ∀ b, P.Reached b → P.Asked b
  receiver : ∀ b t, P.Asked b → P.right.receiver? b = some t → P.Asked t
  item : ∀ b, P.Asked b → P.right.kind b = .listCreate →
    ∀ i ∈ (P.right.block b).numberedInputs "ADD", ∀ t, i.target = some t →
      P.rightLive t = true → P.Asked t
  operand : ∀ b, P.Reached b → ∀ i ∈ (P.right.block b).inputs,
    i.name ∈ P.right.operands (P.right.block b) → ∀ t, i.target = some t →
      P.rightLive t = true → P.Reached t
  chain : ∀ b, P.Reached b → ∀ i ∈ (P.right.block b).inputs,
    i.kind = .statement ∨ P.right.kind b ≠ .onStart →
      ∀ x ∈ P.right.workspace.chain i.target, P.rightLive x = true → P.Reached x
  returns : ∀ name d, P.right.workspace.functionDefinition? name = some d →
    ∀ r ∈ P.right.returnsOf P.rightScopes d, P.Reached r

/-- The names that are looked up mean the same, and they mean something unless the runs may fail. -/
structure MatchesScopes : Prop where
  placed : ∀ b, P.Asked b →
    P.leftScopes.blockScope.contains (P.embed b) = P.rightScopes.blockScope.contains b
  variableAt : ∀ b n, P.Asked b →
    P.leftScopes.variableAt? (P.embed b) n = P.rightScopes.variableAt? b n
  found : ∀ b, P.Reached b ∨ P.Asked b ∧ (P.right.block b).isReader →
    ∀ n ∈ P.right.lookups (P.right.block b) (P.right.kind b),
      P.MayFail ∨ ∃ v, P.rightScopes.variableAt? b n = some v
  symbols : ∀ b name, P.Reached b → P.right.kind b = .hostCall name →
    P.MayFail ∨ (P.right.surface.symbol? name).isSome
  functions : ∀ b, P.Reached b → P.right.kind b = .functionDefinition →
    P.MayFail ∨ (P.right.block b).functionName?.isSome
  binding : ∀ v, P.leftScopes.binding v = (P.rightScopes.binding v).rename P.embed
  bindings : P.leftScopes.bindings.size = P.rightScopes.bindings.size
  declarations : ∀ b, P.Reached b →
    P.leftScopes.blockDeclarations.get? (P.embed b) = P.rightScopes.blockDeclarations.get? b
  rootDeclarations : P.leftScopes.rootDeclarations = P.rightScopes.rootDeclarations
  parameters : ∀ name a, ((P.left.functionScope? P.leftScopes name).bind fun s =>
        (P.leftScopes.scope s).declared.get? a) =
      (P.right.functionScope? P.rightScopes name).bind fun s =>
        (P.rightScopes.scope s).declared.get? a

/-- The programs agree on everything that typing and writing read. -/
structure Faithful : Prop extends P.MatchesPrograms where
  reads : P.ClosedReads
  scopes : P.MatchesScopes

end Pairing

/-! ## States of the two runs -/

/-- A compilation that has come further but knows the same about scopes. -/
structure Frozen (c₁ c : Compilation) : Prop where
  scopes : c.scopes = c₁.scopes
  bindings : c.bindings = c₁.bindings
  blockScope : c.blockScope = c₁.blockScope
  blockDeclarations : c.blockDeclarations = c₁.blockDeclarations
  rootDeclarations : c.rootDeclarations = c₁.rootDeclarations
  disabled : c.disabled = c₁.disabled

namespace Frozen

variable {c₁ c : Compilation} (h : Frozen c₁ c)
include h

theorem binding (v : BindingId) : c.binding v = c₁.binding v := by
  unfold Compilation.binding
  rw [h.bindings]

theorem scope (s : ScopeId) : c.scope s = c₁.scope s := by
  unfold Compilation.scope
  rw [h.scopes]

theorem variableAt? (b : BlockRef) (n : String) : c.variableAt? b n = c₁.variableAt? b n := by
  have hfind : ∀ fuel s, c.findFrom n fuel s = c₁.findFrom n fuel s := by
    intro fuel
    induction fuel with
    | zero => intro s; rfl
    | succ fuel ih =>
      intro s
      unfold findFrom
      rw [h.scope s]
      simp only [ih]
  unfold Compilation.variableAt? Compilation.find?
  rw [h.blockScope, h.scopes]
  simp only [hfind]

theorem functionScope? (p : Program) (name : String) :
    p.functionScope? c name = p.functionScope? c₁ name := by
  unfold Program.functionScope?
  rw [h.blockScope]
  simp only [h.scope]

end Frozen

namespace Pairing

variable {P : Pairing} {I : List String} {c d : Compilation} {b : BlockRef} {α : Type}

/-- The two runs have come equally far, with the functions `I` in progress. -/
structure Abreast (P : Pairing) (I : List String) (c d : Compilation) : Prop where
  left : Frozen P.leftScopes c
  right : Frozen P.rightScopes d
  graph : c.graph = d.graph
  placeholders : c.placeholders = d.placeholders.map (Placeholder.rename P.embed)
  blockNodes : ∀ b, c.blockNodes.get? (P.embed b) = d.blockNodes.get? b
  functionNodes : c.functionNodes = d.functionNodes
  diagnostics : c.diagnostics = d.diagnostics
  leftProgress : c.inProgress = I
  rightProgress : d.inProgress = I

/-- An error of a typing rule that may occur. -/
def Allowed (MayFail : Prop) : TypingError → Prop
  | .mismatch _ => True
  | .fault _ => MayFail

/-- Two typing steps take the same course. -/
def Typing (P : Pairing) (I : List String) {α β : Type} (V : α → β → Prop) (m : TypingM α)
    (n : TypingM β) : Prop :=
  Twins (Allowed P.MayFail) (P.Abreast I) V m n

/-- Two writing steps take the same course. -/
def Writing (P : Pairing) {α β : Type} (V : α → β → Prop) (m : CompileM α) (n : CompileM β) :
    Prop :=
  Twins (fun _ => P.MayFail) (P.Abreast []) V m n

end Pairing

/-! ## Matching lists -/

section Lists

variable {α β γ : Type} {R : α → β → Prop} {l : List α} {k : List β}

theorem map_eq_of_forall₂ (h : List.Forall₂ R l k) {f : α → γ} {g : β → γ}
    (hfg : ∀ a b, R a b → f a = g b) : l.map f = k.map g := by
  rw [← forall₂_eq_eq_eq]
  exact rel_map hfg h

/-- Matching lists have matching first items with a property. -/
theorem find?_of_forall₂ (h : List.Forall₂ R l k) {f : α → Bool} {g : β → Bool}
    (hfg : ∀ a b, R a b → f a = g b) :
    (l.find? f = none ∧ k.find? g = none) ∨
      ∃ a b, l.find? f = some a ∧ k.find? g = some b ∧ R a b := by
  induction h with
  | nil => exact .inl ⟨rfl, rfl⟩
  | @cons a b _ _ hab _ ih =>
    rw [find?_cons, find?_cons, hfg a b hab]
    cases g b with
    | true => exact .inr ⟨a, b, rfl, rfl, hab⟩
    | false => exact ih

theorem filter_of_forall₂ (h : List.Forall₂ R l k) {f : α → Bool} {g : β → Bool}
    (hfg : ∀ a b, R a b → f a = g b) : List.Forall₂ R (l.filter f) (k.filter g) :=
  rel_filter (fun a b hab => Bool.eq_iff_iff.mp (hfg a b hab)) h

theorem exists_left_of_forall₂ (h : List.Forall₂ R l k) {b : β} (hb : b ∈ k) : ∃ a ∈ l, R a b := by
  obtain ⟨i, hi, rfl⟩ := getElem_of_mem hb
  exact ⟨_, getElem_mem _, h.get (h.length_eq ▸ hi) hi⟩

/-- A list of things and the list of their images. -/
theorem forall₂_map_left (f : β → α) (hf : ∀ b ∈ k, R (f b) b) : List.Forall₂ R (k.map f) k :=
  forall₂_map_left_iff.mpr (forall₂_same.mpr hf)

end Lists

namespace Pairing

variable {P : Pairing} {I : List String} {c d : Compilation} {b : BlockRef}

/-! ## Reading matching blocks -/

theorem sameChain_none (P : Pairing) : P.SameChain none none := by
  unfold SameChain
  rw [Workspace.chain_none, Workspace.chain_none]
  rfl

namespace Matches

variable (hb : P.Matches b)
include hb

theorem field? (name : String) :
    (P.left.block (P.embed b)).field? name = (P.right.block b).field? name := by
  unfold Block.field?
  rw [hb.fields]

theorem variableField? :
    (P.left.block (P.embed b)).variableField? = (P.right.block b).variableField? :=
  hb.field? "VAR"

theorem functionName? :
    (P.left.block (P.embed b)).functionName? = (P.right.block b).functionName? := by
  unfold Block.functionName?
  rw [hb.signature, hb.field?]

theorem args : (P.left.block (P.embed b)).args = (P.right.block b).args := by
  unfold Block.args
  rw [hb.signature]

theorem hasOutput : (P.left.block (P.embed b)).hasOutput = (P.right.block b).hasOutput := by
  unfold Block.hasOutput
  rw [hb.output]

theorem input? (name : String) :
    ((P.left.block (P.embed b)).input? name = none ∧ (P.right.block b).input? name = none) ∨
      ∃ i j, (P.left.block (P.embed b)).input? name = some i ∧
        (P.right.block b).input? name = some j ∧
        P.MatchesInput (P.right.operands (P.right.block b)) i j :=
  find?_of_forall₂ hb.inputs fun i j h => by rw [h.name]

theorem hasInput (name : String) :
    (P.left.block (P.embed b)).hasInput name = (P.right.block b).hasInput name := by
  unfold Block.hasInput
  rcases hb.input? name with ⟨hi, hj⟩ | ⟨i, j, hi, hj, _⟩
  · rw [hi, hj]
  · rw [hi, hj]
    rfl

theorem lengthInput :
    lengthInput (P.left.block (P.embed b)) = lengthInput (P.right.block b) := by
  unfold Program.lengthInput
  rw [hb.hasInput]

/-- What is plugged into an input that is read as a value. -/
theorem inputTarget? {name : String} (hname : name ∈ P.right.operands (P.right.block b)) :
    (P.left.block (P.embed b)).inputTarget? name =
      ((P.right.block b).inputTarget? name).map P.embed := by
  unfold Block.inputTarget?
  rcases hb.input? name with ⟨hi, hj⟩ | ⟨i, j, hi, hj, hij⟩
  · rw [hi, hj]
    rfl
  · rw [hi, hj]
    refine hij.target (.inr ?_)
    have hjname : j.name = name := by simpa using find?_some hj
    rw [hjname]
    exact hname

theorem inputChain (name : String) : P.SameChain ((P.left.block (P.embed b)).inputTarget? name)
      ((P.right.block b).inputTarget? name) := by
  unfold Block.inputTarget?
  rcases hb.input? name with ⟨hi, hj⟩ | ⟨i, j, hi, hj, hij⟩
  · rw [hi, hj]
    exact P.sameChain_none
  · rw [hi, hj]
    exact hij.chain

theorem valueInputs : List.Forall₂ (P.MatchesInput (P.right.operands (P.right.block b)))
    (P.left.block (P.embed b)).valueInputs (P.right.block b).valueInputs :=
  filter_of_forall₂ hb.inputs fun i j h => by rw [h.kind]

theorem valueNames : (P.left.block (P.embed b)).valueInputs.map (·.name) =
      (P.right.block b).valueInputs.map (·.name) :=
  map_eq_of_forall₂ hb.valueInputs fun _ _ h => h.name

theorem numberedInputs (lead : String) :
    List.Forall₂ (P.MatchesInput (P.right.operands (P.right.block b)))
      ((P.left.block (P.embed b)).numberedInputs lead) ((P.right.block b).numberedInputs lead) :=
  filter_of_forall₂ hb.inputs fun i j h => by rw [h.name]

theorem numberedNames (lead : String) :
    ((P.left.block (P.embed b)).numberedInputs lead).map (·.name) =
      ((P.right.block b).numberedInputs lead).map (·.name) :=
  map_eq_of_forall₂ (hb.numberedInputs lead) fun _ _ h => h.name

theorem statementInputs : List.Forall₂ (P.MatchesInput (P.right.operands (P.right.block b)))
    (P.left.block (P.embed b)).statementInputs (P.right.block b).statementInputs :=
  filter_of_forall₂ hb.inputs fun i j h => by rw [h.kind]

theorem bodyChain : P.SameChain (P.left.block (P.embed b)).body? (P.right.block b).body? := by
  have h := hb.statementInputs
  unfold Block.body?
  generalize (P.left.block (P.embed b)).statementInputs = l at h
  generalize (P.right.block b).statementInputs = k at h
  cases h with
  | nil => exact P.sameChain_none
  | cons hij _ => exact hij.chain

end Matches

namespace MatchesPrograms

variable (h : P.MatchesPrograms)
include h

theorem listInput? (hb : P.Matches b) :
    P.left.listInput? (P.left.block (P.embed b)) = P.right.listInput? (P.right.block b) := by
  unfold Program.listInput?
  rw [hb.kind, h.surface]

end MatchesPrograms

/-! ## Reading states that are abreast -/

namespace Abreast

variable (h : P.Abreast I c d)
include h

theorem leftLive : P.left.isLive c = P.leftLive :=
  funext (P.left.isLive_congr h.left.disabled)

theorem rightLive : P.right.isLive d = P.rightLive :=
  funext (P.right.isLive_congr h.right.disabled)

theorem setGraph (g : TypeGraph) : P.Abreast I { c with graph := g } { d with graph := g } :=
  { left := { h.left with }, right := { h.right with }, graph := rfl
    placeholders := h.placeholders, blockNodes := h.blockNodes, functionNodes := h.functionNodes
    diagnostics := h.diagnostics, leftProgress := h.leftProgress
    rightProgress := h.rightProgress }

theorem placeholderNode (i : PlaceholderId) : (c.placeholder i).node = (d.placeholder i).node := by
  unfold placeholder
  rw [h.placeholders, Array.getElem?_map]
  cases d.placeholders[i]? with
  | none => rfl
  | some x => rfl

end Abreast

end Pairing

end BlockProgram
