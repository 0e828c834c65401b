import BlockProgram.Proofs.Code.Flush
import BlockProgram.Proofs.Compile.Declarations
import BlockProgram.Proofs.Emit.Verbatim
import BlockProgram.Proofs.Typing.Vocabulary

/-!
# Flush programs are written flush

Nothing but what is copied from a program can put a blank before the end of a line. So the code of a
flush program is flush, and each of its statements ends in a character that is not blank. There is
one lemma for each function that makes code, in the order of those functions, given that the code
for the blocks below is made like that (`EmitsFlush`). All together say that the output of a flush
program is tidy (`tidy_source`).
-/

namespace BlockProgram

open Compilation Code Program Text List TypeGraph

variable {c : Code} {name : String} {symbol : Symbol}

/-- A flush program and flush names for its variables: those that scopes declare and those that are
declared in front of a block or of the program. -/
structure Legible (p : Program) (d : Compilation) : Prop where
  flush : p.IsFlush
  found : ∀ v, d.Declares v → IsFlush (d.outputName v)
  sited : ∀ b, ∀ v ∈ d.declarationsAt b, IsFlush (d.outputName v)
  rooted : ∀ v ∈ d.rootDeclarations, IsFlush (d.outputName v)

/-- Run once the scopes are as in `d`, with flush types, the step yields what `Q` says. -/
abbrev Writes {α : Type} (d : Compilation) (m : CompileM α) (Q : α → Prop) : Prop :=
  Gives (Speaking IsFlush (fun _ => True) d) m Q

def AreLines (lines : List Code) : Prop :=
  ∀ c ∈ lines, IsLine c

/-- Expressions are flush, and lines may end behind statements. -/
structure EmitsFlush (d : Compilation) (e : Emitter) : Prop where
  expression : ∀ b, Writes d (e.expression b) IsFlush
  statement : ∀ b, Writes d (e.statement b) AreLines

variable {p : Program} {d : Compilation} {e : Emitter}

/-! ## Lines -/

theorem AreLines.nil : AreLines [] :=
  fun _ hc => by cases hc

theorem AreLines.single (h : IsLine c) : AreLines [c] :=
  fun _ hx => mem_singleton.mp hx ▸ h

theorem AreLines.append {l r : List Code} (hl : AreLines l) (hr : AreLines r) : AreLines (l ++ r) :=
  forall_mem_append.mpr ⟨hl, hr⟩

theorem AreLines.flatten {ls : List (List Code)} (h : ∀ l ∈ ls, AreLines l) :
    AreLines ls.flatten := by
  intro c hc
  obtain ⟨l, hl, hcl⟩ := mem_flatten.mp hc
  exact h l hl c hcl

theorem AreLines.nameLast {lines : List Code} (h : AreLines lines) (id : String) :
    AreLines (nameLast id lines) := by
  induction lines with
  | nil => exact .nil
  | cons c r ih =>
    obtain ⟨hc, hr⟩ := forall_mem_cons.mp h
    cases r with
    | nil => exact .single (hc.named id)
    | cons x r => exact forall_mem_cons.mpr ⟨hc, ih hr⟩

theorem AreLines.separateFirst {lines : List Code} (h : AreLines lines) :
    AreLines (separateFirst lines) := by
  cases lines with
  | nil => exact .nil
  | cons c r =>
    obtain ⟨hc, hr⟩ := forall_mem_cons.mp h
    exact forall_mem_cons.mpr ⟨hc.separated true, hr⟩

/-! ## Texts that are made up -/

theorem isFlush_commaList {items : List String} (h : ∀ s ∈ items, IsFlush s) :
    IsFlush (commaList items) := by
  unfold commaList
  induction items with
  | nil => decide
  | cons s r ih =>
    obtain ⟨hs, hr⟩ := forall_mem_cons.mp h
    cases r with
    | nil => rwa [String.intercalate_singleton]
    | cons t r =>
      rw [String.intercalate_cons_cons]
      exact (hs.append (by decide)).append (ih hr)

theorem isFlush_functionIdentifier (name : String) : IsFlush (functionIdentifier name) :=
  (isIdentifier_identifier name).isInline.isFlush

theorem isFlush_defaultLiteral (type : Option TypeName) :
    IsFlush (TypeName.defaultLiteral type) := by
  unfold TypeName.defaultLiteral
  split
  · decide
  · split_ifs <;> decide

theorem isFlush_declarationText (hname : IsFlush name) {type : Option TypeName}
    (htype : Spoken IsFlush type) : IsFlush (declarationText name type) := by
  have hlet : IsFlush ("let " ++ name) := .append (by decide) hname
  unfold declarationText
  split
  · exact hlet.append (by decide)
  · next t =>
    have htyped := (hlet.append (t := ": ") (by decide)).append (htype t rfl)
    split_ifs
    iterate 4 exact hlet.append (by decide)
    · exact htyped.append (by decide)
    · exact htyped.append (by decide)

theorem isFlush_declaringHead (hname : IsFlush name) {declared : Option TypeName}
    (hdeclared : Spoken IsFlush declared) (assigned : Option TypeName) (value : Code)
    : IsFlush (declaringHead name declared assigned value) := by
  have hlet : IsFlush ("let " ++ name) := .append (by decide) hname
  unfold declaringHead
  split
  · next t =>
    split_ifs
    · exact ((hlet.append (by decide)).append (hdeclared t rfl)).append (by decide)
    · exact hlet.append (by decide)
  · exact hlet.append (by decide)

theorem isFlush_splitMark (h : IsFlush name) : IsFlush (splitMark name).1 := by
  unfold splitMark
  dsimp only
  split
  · exact h
  · next mark hmark =>
    have hname : String.ofList (name.toList.takeWhile (· ≠ '@')) ++
        String.ofList (name.toList.dropWhile (· ≠ '@')) = name := by
      rw [← String.ofList_append, takeWhile_append_dropWhile, String.ofList_toList]
    rw [← hname] at h
    exact h.left

theorem isFlush_numberText (field : String) : IsFlush (numberText field) := by
  unfold numberText
  cases Decimal.read (trimmed field) with
  | none => decide
  | some x => exact (isInline_numberText x).isFlush

theorem isFlush_truthText (field : Option String) : IsFlush (truthText field) := by
  unfold truthText
  split <;> decide

theorem areLines_rawLines (code : String) : AreLines (rawLines code) := by
  intro c hc
  obtain ⟨l, hl, rfl⟩ := mem_map.mp hc
  obtain ⟨hmem, hblank⟩ := mem_filter.mp hl
  exact isLine_ofText (endsSolid_trimRight (ne_newline_of_mem_lines hmem) (by simpa using hblank))

/-! ## Code that is put together -/

theorem isFlush_compareCode (op : CompareOp) {l r : Code} (hl : IsFlush l) (hr : IsFlush r) :
    IsFlush (compareCode op l r) := by
  have hop : IsFlush op.symbol := by cases op <;> decide
  have hany : ∀ {c : Code}, IsFlush c → IsFlush (asAny c) := fun hc =>
    isFlush_ofParts (.text (by decide) (.cons hc (.text (by decide) .nil)))
  unfold compareCode
  split
  · exact isFlush_infixed (hany hl) hop (hany hr)
  · exact isFlush_infixed hl hop hr

theorem isFlush_joinCode (isText : Bool) {parts : List Code} (h : AreFlush parts) :
    IsFlush (joinCode isText parts) := by
  have hfold : ∀ {rest : List Code} {start : Code}, AreFlush rest → IsFlush start →
      IsFlush (rest.foldl (fun l r => .infixed l "+" r) start) := by
    intro rest
    induction rest with
    | nil => exact fun _ hstart => hstart
    | cons c r ih =>
      intro start hrest hstart
      obtain ⟨hc, hr⟩ := forall_mem_cons.mp hrest
      exact ih hr (isFlush_infixed hstart (by decide) hc)
  cases parts with
  | nil => exact isFlush_ofText (by decide)
  | cons first rest =>
    obtain ⟨hfirst, hrest⟩ := forall_mem_cons.mp h
    refine hfold hrest ?_
    cases isText with
    | true => exact hfirst
    | false => exact isFlush_infixed (isFlush_ofText (by decide)) (by decide) hfirst

theorem isFlush_calleeCode {callee : Symbol} (hspace : IsFlush callee.nameSpace)
    (hname : IsFlush name) {receiver : Option Code} (hreceiver : ∀ c ∈ receiver, IsFlush c) :
    IsFlush (calleeCode callee name receiver) := by
  cases receiver with
  | some c => exact isFlush_followedBy (hreceiver c rfl) (IsFlush.append (by decide) hname)
  | none =>
    refine isFlush_ofText ?_
    split
    · exact hname
    · exact (hspace.append (by decide)).append hname

theorem isFlush_useCode (mark : Option String) {target : Code} (htarget : IsFlush target)
    {args : List Code} (hargs : AreFlush args) : IsFlush (useCode mark target args) := by
  have hfirst : ∀ {s : String}, IsFlush s → IsFlush (args.head?.getD (.ofText s)) := by
    intro s hs
    cases args with
    | nil => exact isFlush_ofText hs
    | cons c r => exact hargs c (.head _)
  unfold useCode
  split_ifs
  · exact htarget
  iterate 2 exact isFlush_infixed htarget (by decide) (hfirst (by decide))
  · exact isFlush_ofParts (.cons htarget (.text (by decide)
      (.cons (isFlush_commaSeparated hargs) (.text (by decide) .nil))))

theorem isLine_useCode {mark : Option String} (hget : mark ≠ some "get") (hset : mark ≠ some "set")
    (hchange : mark ≠ some "change") {target : Code} (htarget : IsFlush target) {args : List Code}
    (hargs : AreFlush args) : IsLine (useCode mark target args) := by
  unfold useCode
  rw [if_neg hget, if_neg hset, if_neg hchange]
  exact isLine_ofParts (.cons htarget (.text (by decide)
    (.cons (isFlush_commaSeparated hargs) (.last (isLine_ofText (by decide))))))

theorem isLine_imageLiteral {callee : Symbol} (hcallee : IsFlush callee.qualifiedName)
    {block : Block} (hblock : IsFlush ((block.fields.head?.map (·.value)).getD "")) :
    IsLine (imageLiteral callee block) :=
  isLine_ofText (((hcallee.append (by decide)).append hblock).append_solid (by decide))

theorem isLine_conditionalCode {branches : List Code} (hflush : AreFlush branches)
    (hbranches : branches ≠ [] → MakeLine branches) {otherwise : Option Code}
    (hotherwise : ∀ c ∈ otherwise, IsLine c) : IsLine (conditionalCode branches otherwise) := by
  have hempty : AreLines [] := .nil
  cases otherwise with
  | some c =>
    have hc := hotherwise c rfl
    unfold conditionalCode
    dsimp only
    split
    · exact isLine_ofParts (.text (by decide) (.last hc))
    · exact isLine_ofParts (hflush.makeLine (.text (by decide) (.last hc)))
  | none =>
    unfold conditionalCode
    dsimp only
    split
    · exact isLine_ofParts (.text (by decide) (.last (isLine_braces hempty)))
    · next hne => exact isLine_ofParts (hbranches (by simpa using hne))

theorem isLine_expressionStatement (h : IsFlush c) : IsLine (expressionStatement c) := by
  unfold expressionStatement
  split
  · exact isLine_statement (.text (by decide) (.cons h .nil))
  · exact isLine_statement (.cons h .nil)

/-! ## Types and variables -/

theorem Speaking.outputName_eq {P : TypeName → Prop} {S : Placeholder → Prop} {c : Compilation}
    (hc : Speaking P S d c) (v : BindingId) : c.outputName v = d.outputName v := by
  unfold outputName binding
  rw [hc.bindings]

theorem preserves_variableTypeName (v : BindingId) :
    Preserves (Speaking IsFlush (fun _ => True) d) (variableTypeName v)
      (Spoken IsFlush) :=
  .bind_get fun _ _ => preserves_resolved vocabulary_isFlush _

theorem writes_attach (b : BlockRef) (input : String) :
    Writes d (liftM (p.attach b input none)) fun _ => True :=
  .lift (preserves_attach spoken_none fun _ => trivial)

theorem preserves_functionTypeName (hd : Legible p d) (name : String) :
    Preserves (Speaking IsFlush (fun _ => True) d) (p.functionTypeName name) fun _ => True := by
  intro c hc
  have hm := gives_functionType vocabulary_isFlush hd.flush.names.permits name c hc
  unfold Moves Ensures at hm
  unfold functionTypeName Runs
  dsimp only
  cases h : p.functionType name c with
  | ok n c' =>
    rw [h] at hm
    have hgraph := preserves_resolvedType vocabulary_isFlush n c'.graph hm.1.graph
    exact ⟨{ hm.1 with graph := hgraph.1 }, trivial⟩
  | error x c' =>
    rw [h] at hm
    exact ⟨hm, trivial⟩

theorem preserves_emitDeclaration {v : BindingId} (hv : IsFlush (d.outputName v)) :
    Preserves (Speaking IsFlush (fun _ => True) d) (emitDeclaration v) IsLine := by
  refine (preserves_variableTypeName v).bind fun type ht => .bind_get fun c hc => .pure ?_
  rw [hc.outputName_eq]
  exact isLine_statement (.text (isFlush_declarationText hv ht) .nil)

section Names

variable (hd : Legible p d)
include hd

theorem writes_variableName (b : BlockRef) (name : String) :
    Writes d (p.variableName b name) IsFlush := by
  refine (gives_lookup b name).bind fun v hv => .bind_get fun c hc => .pure ?_
  rw [hc.outputName_eq]
  exact hd.found v hv

theorem preserves_emitDeclarations (b : BlockRef) :
    Preserves (Speaking IsFlush (fun _ => True) d) (emitDeclarations b) AreLines := by
  refine .bind_get fun c hc => ?_
  rw [hc.blockDeclarations]
  exact .mapM _ fun v hv => preserves_emitDeclaration (hd.sited b v hv)

theorem writes_emitParameter (b : BlockRef) (a : FunctionArg) :
    Writes d (p.emitParameter b a) IsFlush := by
  refine (gives_lookup b a.name).bind fun v hv =>
    (Gives.lift (preserves_variableTypeName v)).bind fun type ht => .bind_get fun c hc => .pure ?_
  rw [hc.outputName_eq]
  refine ((hd.found v hv).append (by decide)).append ?_
  cases type with
  | none => decide
  | some t => exact ht t rfl

theorem writes_emitProperty (b : BlockRef) {property : String} (hproperty : IsFlush property) :
    Writes d (p.emitProperty b property) IsFlush := by
  refine (writes_variableName hd b property).bind fun name hname => .pure ?_
  split
  · exact hname
  · exact (hproperty.append (by decide)).append hname

/-- What a use of a symbol is written with is flush as well. -/
theorem isFlush_callee (hsymbol : p.surface.symbol? name = some symbol) :
    IsFlush (p.calleeOf symbol).nameSpace ∧ IsFlush (p.calleeOf symbol).name := by
  have hcallee : ∃ n, p.surface.symbol? n = some (p.calleeOf symbol) := by
    unfold calleeOf
    cases halias : symbol.aliasFor.bind p.surface.symbol? with
    | none => exact ⟨name, hsymbol⟩
    | some s =>
      obtain ⟨n, _, hn⟩ := Option.bind_eq_some_iff.mp halias
      exact ⟨n, hn⟩
  obtain ⟨n, hn⟩ := hcallee
  exact ⟨hd.flush.symbol hn (by simp [Symbol.texts]), hd.flush.symbol hn (by simp [Symbol.texts])⟩

end Names

section Writing

variable (hd : Legible p d) (he : EmitsFlush d e) (b : BlockRef)
include hd he

/-! ## Inputs and chains -/

theorem writes_emitTarget (t : Target) : Writes d (p.emitTarget e t) IsFlush := by
  cases t with
  | block b => exact (he.expression b).bind fun c hc => .pure (hc.named _)
  | placeholder i =>
    exact (gives_targetTypeName vocabulary_isFlush hd.flush.names.permits _).bind fun type _ =>
      .pure (isFlush_ofText (isFlush_defaultLiteral type))

theorem writes_emitInput (input : String) : Writes d (p.emitInput e b input) IsFlush :=
  (writes_attach b input).bind fun t _ => writes_emitTarget hd he t

theorem writes_emitInputs (inputs : List String) : Writes d (p.emitInputs e b inputs) AreFlush :=
  .mapM inputs fun input _ => writes_emitInput hd he b input

theorem writes_emitLink : Writes d (emitLink e b) AreLines :=
  (Gives.lift (preserves_emitDeclarations hd b)).bind fun _ hdeclarations =>
    (he.statement b).bind fun _ hlines => .pure (hdeclarations.append hlines)

theorem writes_emitChain (first : Option BlockRef) : Writes d (p.emitChain e first) AreLines :=
  .bind_get fun _ _ => (Gives.mapM _ fun b _ => writes_emitLink hd he b).bind fun _ hlines =>
    .pure (.flatten hlines)

theorem writes_emitBody (first : Option BlockRef) : Writes d (p.emitBody e first) IsLine :=
  (writes_emitChain hd he first).bind fun _ hlines => .pure (isLine_braces hlines)

theorem writes_emitFunctionCall : Writes d (p.emitFunctionCall e b) IsLine :=
  (writes_emitInputs hd he b _).bind fun _ hargs =>
    .pure (isLine_call (isFlush_functionIdentifier _) hargs)

/-! ## Uses of the host -/

theorem writes_emitOptionalInput (input : String) :
    Writes d (p.emitOptionalInput e b input) fun o => ∀ c ∈ o, IsFlush c := by
  unfold emitOptionalInput
  split
  · exact (writes_emitInput hd he b input).map fun _ hc => by simpa using hc
  · exact .pure (by simp)

theorem writes_emitMutation {m : Mutation} (hm : (p.block b).mutation = some m) :
    Writes d (p.emitMutation e b m) fun o => ∀ c ∈ o, IsFlush c := by
  cases m with
  | rest count =>
    refine (writes_emitInputs hd he b _).bind fun args hargs => .pure ?_
    split
    · simp
    · simpa using isFlush_commaSeparated hargs
  | destructuring properties =>
    have hproperties : ∀ q ∈ properties, IsFlush q.1 := by
      intro q hq
      refine hd.flush.property b ?_
      unfold Block.properties
      rw [hm]
      exact mem_map_of_mem hq
    refine (Gives.mapM _ fun q hq => writes_emitProperty hd b (hproperties q hq)).bind
      fun parts hparts => .pure ?_
    split
    · simp
    · have hpattern : IsFlush ("\x7b " ++ commaList parts ++ " \x7d") :=
        .between (by decide) (isFlush_commaList hparts) (by decide)
      simpa using isFlush_ofText hpattern
  | defaultInstance isShown =>
    cases isShown with
    | true => exact writes_emitOptionalInput hd he b _
    | false => exact .pure (by simp)

theorem writes_emitRest : Writes d (p.emitRest e b) AreFlush := by
  unfold emitRest
  split
  · next count hm =>
    exact (writes_emitMutation hd he b hm).bind fun o ho =>
      .pure fun c hc => ho c (Option.mem_toList.mp hc)
  · exact .pure .nil

theorem writes_emitReceiver (hsymbol : ∀ name ∈ symbol.defaultInstance, IsFlush name)
    (input : String) : Writes d (p.emitReceiver e b symbol input) IsFlush := by
  unfold emitReceiver
  split
  · next isShown hm =>
    refine (writes_emitMutation hd he b hm).bind fun o ho => ?_
    split
    · exact .pure (ho _ rfl)
    · next name hname => exact .pure (isFlush_ofText (hsymbol name hname))
    · exact writes_emitInput hd he b input
  · exact writes_emitInput hd he b input

theorem writes_emitArguments (hsymbol : ∀ name ∈ symbol.defaultInstance, IsFlush name)
    (parameters : List Parameter) :
    Writes d (p.emitArguments e b symbol parameters) fun r =>
      (∀ c ∈ r.1, IsFlush c) ∧ AreFlush r.2 := by
  have hnone : ∀ c ∈ (none : Option Code), IsFlush c := by simp
  induction parameters with
  | nil => exact .pure ⟨hnone, .nil⟩
  | cons q r ih =>
    unfold emitArguments
    dsimp only
    split
    · refine (writes_emitReceiver hd he b hsymbol _).bind fun receiver hreceiver =>
        ih.bind fun later hlater => .pure ⟨?_, hlater.2⟩
      intro c hc
      obtain ⟨found, args⟩ := later
      cases found with
      | none => exact Option.some.inj hc ▸ hreceiver
      | some x => exact hlater.1 c hc
    · split
      · exact (writes_emitInput hd he b _).bind fun arg harg => ih.bind fun rest hrest =>
          .pure ⟨hrest.1, .cons harg hrest.2⟩
      · split
        · exact .pure ⟨hnone, .nil⟩
        · exact ih.bind fun rest hrest =>
            .pure ⟨hrest.1, .text (isFlush_defaultLiteral _) hrest.2⟩

theorem writes_handlerPattern {names : List String} (hnames : ∀ s ∈ names, IsFlush s) :
    Writes d (p.handlerPattern e b names) IsFlush := by
  unfold handlerPattern
  split
  · next properties hm =>
    refine (writes_emitMutation hd he b hm).bind fun o ho => .pure ?_
    cases o with
    | none => exact isFlush_commaList hnames
    | some c => exact ho c rfl 0 0
  · exact .pure (isFlush_commaList hnames)

theorem writes_emitHandlers (symbol : Symbol) : Writes d (p.emitHandlers e b symbol) AreFlush := by
  refine .mapM _ fun parameters _ => ?_
  refine (Gives.mapM _ fun h _ => writes_variableName hd b _).bind fun names hnames => ?_
  refine (writes_handlerPattern hd he b hnames).bind fun pattern hpattern => ?_
  refine (writes_emitBody hd he _).bind fun body hbody => .pure ?_
  exact isFlush_ofParts
    (.text (.between (by decide) hpattern (by decide)) (.cons hbody.isFlush .nil))

/-- A use is flush, and a line may end behind a call. -/
theorem writes_emitUse (hsymbol : p.surface.symbol? name = some symbol) :
    Writes d (p.emitUse e b symbol) fun c => IsFlush c ∧ (p.isCalled symbol = true → IsLine c) := by
  have hinstance : ∀ n ∈ symbol.defaultInstance, IsFlush n := by
    intro n hn
    refine hd.flush.symbol hsymbol ?_
    simp only [Symbol.texts, mem_append]
    exact .inl (.inl (.inr (Option.mem_toList.mpr hn)))
  obtain ⟨hspace, hname⟩ := isFlush_callee hd hsymbol
  refine (writes_emitArguments hd he b hinstance _).bind fun r hr => ?_
  refine (writes_emitRest hd he b).bind fun rest hrest => ?_
  refine (writes_emitHandlers hd he b symbol).bind fun handlers hhandlers => .pure ?_
  have htarget := isFlush_calleeCode hspace (isFlush_splitMark hname) hr.1
  have hargs := (hr.2.append hrest).append hhandlers
  refine ⟨isFlush_useCode _ htarget hargs, fun hcalled => ?_⟩
  simp only [isCalled, Bool.and_eq_true, decide_eq_true_eq] at hcalled
  exact isLine_useCode hcalled.1.1 hcalled.1.2 hcalled.2 htarget hargs

/-- A line may end behind a registration, which no semicolon follows. -/
theorem writes_emitHostCall (hkind : (p.block b).kind = .hostCall name) :
    Writes d (p.emitHostCall e b name) fun c =>
      IsFlush c ∧ (p.takesHandler name = true → IsLine c) := by
  unfold emitHostCall
  split
  · exact gives_fail b _
  · next symbol hsymbol =>
    split
    · next himage =>
      obtain ⟨hspace, hname⟩ := isFlush_callee hd hsymbol
      have hcallee : IsFlush (p.calleeOf symbol).qualifiedName := by
        unfold Symbol.qualifiedName
        split
        · exact hname
        · exact (hspace.append (by decide)).append hname
      have hline : IsLine (imageLiteral (p.calleeOf symbol) (p.block b)) := by
        refine isLine_imageLiteral hcallee (hd.flush.image b ?_)
        simp [image, hkind, hsymbol, himage]
      exact .pure ⟨hline.isFlush, fun _ => hline⟩
    · refine (writes_emitUse hd he b hsymbol).imp fun c hc => ⟨hc.1, fun htakes => hc.2 ?_⟩
      rw [takesHandler, hsymbol] at htakes
      exact hd.flush.2 symbol (Table.mem_values_of_get? hsymbol) htakes

/-! ## Expressions -/

theorem writes_emitBinary (left right : String) {op : String} (hop : IsFlush op) :
    Writes d (p.emitBinary e b left op right) IsFlush :=
  (writes_emitInput hd he b left).bind fun _ hl => (writes_emitInput hd he b right).bind fun _ hr =>
    .pure (isFlush_infixed hl hop hr)

theorem writes_emitTextJoin (inputs : List String) :
    Writes d (p.emitTextJoin e b inputs) IsFlush := by
  cases inputs with
  | nil => exact .pure (isFlush_joinCode false .nil)
  | cons input inputs =>
    have hfirst : Writes d (p.emitFirstPart e b input) fun r => IsFlush r.2 :=
      (writes_attach b input).bind fun t _ =>
        (gives_targetTypeName vocabulary_isFlush hd.flush.names.permits t).bind fun _ _ =>
          (writes_emitTarget hd he t).bind fun _ hc => .pure hc
    exact hfirst.bind fun r hr => (writes_emitInputs hd he b inputs).bind fun _ hrest =>
      .pure (isFlush_joinCode r.1 (.cons hr hrest))

theorem writes_emitIndexed : Writes d (p.emitIndexed e b) IsFlush :=
  (writes_emitInput hd he b _).bind fun _ hlist => (writes_emitInput hd he b _).bind fun _ hindex =>
    .pure (isFlush_ofParts (.cons (isFlush_followedBy hlist (by decide))
      (.cons hindex (.text (by decide) .nil))))

theorem writes_expressionStep : Writes d (p.expressionStep e b) IsFlush := by
  have hmath : ∀ {name : String}, name ∈ (p.block b).literal → ∀ {args : List Code},
      AreFlush args → IsFlush (.call ("Math." ++ name) args) := fun hname _ hargs =>
    (isLine_call (IsFlush.append (by decide) (hd.flush.literal b hname)) hargs).isFlush
  unfold expressionStep
  dsimp only
  split
  · exact .pure (isFlush_ofText (isFlush_numberText _))
  · exact .pure (isFlush_ofText (isInline_quoted _).isFlush)
  · exact .pure (isFlush_ofText (isFlush_truthText _))
  · next hkind => exact .pure (isFlush_ofText (hd.flush.literal b (by simp [Block.literal, hkind])))
  iterate 2 exact (writes_variableName hd b _).bind fun _ hname => .pure (isFlush_ofText hname)
  · next op _ => exact writes_emitBinary hd he b _ _ (by cases op <;> decide)
  · exact writes_emitBinary hd he b _ _ (by decide)
  · next op _ => exact writes_emitBinary hd he b _ _ (by cases op <;> decide)
  · exact (writes_emitInput hd he b _).bind fun _ hl =>
      (writes_emitInput hd he b _).bind fun _ hr => .pure (isFlush_compareCode _ hl hr)
  · exact (writes_emitInput hd he b _).bind fun _ hc => .pure (isFlush_prefixed (by decide) hc)
  iterate 2 next hkind =>
    exact (writes_emitInputs hd he b _).bind fun _ hargs =>
      .pure (hmath (by simp [Block.literal, hkind]) hargs)
  · exact writes_emitTextJoin hd he b _
  · exact (writes_emitInput hd he b _).bind fun _ hc => .pure (isFlush_followedBy hc (by decide))
  · exact (writes_emitInputs hd he b _).bind fun _ hitems => .pure (isFlush_ofParts
      (.text (by decide) (.cons (isFlush_commaSeparated hitems) (.text (by decide) .nil))))
  · exact writes_emitIndexed hd he b
  · exact (writes_emitInput hd he b _).bind fun _ hc => .pure (isFlush_followedBy hc (by decide))
  · exact (writes_emitFunctionCall hd he b).imp fun _ hc => hc.isFlush
  · next hkind => exact .pure (isFlush_ofText (hd.flush.literal b (by simp [Block.literal, hkind])))
  · next hkind => exact (writes_emitHostCall hd he b hkind).imp fun _ hc => hc.1
  · exact (gives_targetTypeName vocabulary_isFlush hd.flush.names.permits _).bind fun type _ =>
      .pure (isFlush_ofText (isFlush_defaultLiteral type))

/-! ## Statements -/

theorem writes_emitSet : Writes d (p.emitSet e b) IsLine := by
  have hhead : ∀ {v : BindingId}, d.Declares v → ∀ t value,
      Writes d (p.assignmentHead b v t value) IsFlush := by
    intro v hv t value
    have hname := hd.found v hv
    refine .bind_get fun c hc => ?_
    rw [hc.outputName_eq]
    split
    · exact (Gives.lift (preserves_variableTypeName v)).bind fun _ hdeclared =>
        (gives_targetTypeName vocabulary_isFlush hd.flush.names.permits t).bind fun assigned _ =>
          .pure (isFlush_declaringHead hname hdeclared assigned value)
    · exact .pure (hname.append (by decide))
  refine (gives_lookup b _).bind fun v hv => (writes_attach b _).bind fun t _ => ?_
  refine (writes_emitTarget hd he t).bind fun value hvalue => ?_
  exact (hhead hv t value).bind fun _ htext =>
    .pure (isLine_statement (.text htext (.cons hvalue .nil)))

theorem writes_emitChange : Writes d (p.emitChange e b) IsLine :=
  (writes_variableName hd b _).bind fun _ hname => (writes_emitInput hd he b _).bind fun _ hvalue =>
    .pure (isLine_statement (.text (hname.append (by decide)) (.cons hvalue .nil)))

theorem writes_emitIndexSet : Writes d (p.emitIndexSet e b) IsLine :=
  (writes_emitInput hd he b _).bind fun _ hlist => (writes_emitInput hd he b _).bind fun _ hindex =>
    (writes_emitInput hd he b _).bind fun _ hvalue => .pure (isLine_statement
      (.cons (isFlush_followedBy hlist (by decide))
        (.cons hindex (.text (by decide) (.cons hvalue .nil)))))

/-- The branches are flush, and a line may end behind the last one. -/
theorem writes_emitBranches {lead : String} (hlead : IsFlush lead) (conditions : List String) :
    Writes d (p.emitBranches e b lead conditions) fun branches =>
      AreFlush branches ∧ (branches ≠ [] → MakeLine branches) := by
  induction conditions generalizing lead with
  | nil => exact .pure ⟨.nil, fun hne => absurd rfl hne⟩
  | cons condition r ih =>
    refine (writes_emitInput hd he b condition).bind fun test htest => ?_
    refine (writes_emitBody hd he _).bind fun body hbody => ?_
    refine (ih (by decide)).bind fun rest hrest => .pure ?_
    have hclose : IsFlush ") " := by decide
    refine ⟨.text hlead (.cons htest (.text hclose (.cons hbody.isFlush hrest.1))), fun _ => ?_⟩
    refine .text hlead (.cons htest (.text hclose ?_))
    cases rest with
    | nil => exact .last hbody
    | cons c rest => exact .cons hbody.isFlush (hrest.2 (cons_ne_nil c rest))

theorem writes_emitConditional : Writes d (p.emitConditional e b) IsLine := by
  refine (writes_emitBranches hd he b (by decide) _).bind fun branches hbranches => ?_
  have hotherwise : Writes d (((p.block b).input? "ELSE").mapM fun i => p.emitBody e i.target)
      fun o => ∀ c ∈ o, IsLine c := by
    cases (p.block b).input? "ELSE" with
    | none => exact .pure (by simp)
    | some i => exact (writes_emitBody hd he i.target).map fun _ hbody => by simpa using hbody
  exact hotherwise.bind fun _ ho => .pure (isLine_conditionalCode hbranches.1 hbranches.2 ho)

theorem writes_emitLoopBody : Writes d (p.emitLoopBody e b) IsLine :=
  writes_emitBody hd he _

theorem writes_emitRepeat : Writes d (p.emitRepeat e b) IsLine := by
  refine (writes_variableName hd b _).bind fun i hi => ?_
  refine (writes_emitInput hd he b _).bind fun times htimes => ?_
  refine (writes_emitLoopBody hd he b).bind fun body hbody => .pure ?_
  have hstart : IsFlush ("for (let " ++ i ++ " = 0; ") := .between (by decide) hi (by decide)
  have hstep : IsFlush ("; " ++ i ++ "++) ") := .between (by decide) hi (by decide)
  exact isLine_ofParts (.text ((hstart.append hi).append (by decide))
    (.cons htimes (.text hstep (.last hbody))))

theorem writes_emitWhile : Writes d (p.emitWhile e b) IsLine := by
  refine (writes_emitInput hd he b _).bind fun condition hcondition => ?_
  refine (writes_emitLoopBody hd he b).bind fun body hbody => .pure ?_
  refine isLine_ofParts (.text (by decide) (.cons ?_ (.text (by decide) (.last hbody))))
  unfold loopCondition
  split
  · exact isFlush_prefixed (by decide) hcondition
  · exact hcondition

theorem writes_emitForRange : Writes d (p.emitForRange e b) IsLine := by
  have hfrom : Writes d (p.emitFrom e b) IsFlush := by
    unfold emitFrom
    split
    · exact writes_emitInput hd he b _
    · exact .pure (isFlush_ofText (by decide))
  refine (writes_variableName hd b _).bind fun i hi => hfrom.bind fun start hstart => ?_
  refine (writes_emitInput hd he b _).bind fun stop hstop => ?_
  refine (writes_emitLoopBody hd he b).bind fun body hbody => .pure ?_
  have hhead : IsFlush ("for (let " ++ i ++ " = ") := .between (by decide) hi (by decide)
  have htest : IsFlush ("; " ++ i ++ " <= ") := .between (by decide) hi (by decide)
  have hstep : IsFlush ("; " ++ i ++ "++) ") := .between (by decide) hi (by decide)
  exact isLine_ofParts (.text hhead (.cons hstart (.text htest
    (.cons hstop (.text hstep (.last hbody))))))

theorem writes_emitForOf : Writes d (p.emitForOf e b) IsLine := by
  refine (writes_variableName hd b _).bind fun x hx => ?_
  refine (writes_emitInput hd he b _).bind fun list hlist => ?_
  refine (writes_emitLoopBody hd he b).bind fun body hbody => .pure ?_
  exact isLine_ofParts (.text (.between (by decide) hx (by decide))
    (.cons hlist (.text (by decide) (.last hbody))))

theorem writes_emitReturn : Writes d (p.emitReturn e b) IsLine := by
  unfold emitReturn
  split
  · exact (writes_emitInput hd he b _).bind fun _ hvalue =>
      .pure (isLine_statement (.text (by decide) (.cons hvalue .nil)))
  · exact .pure (isLine_statement (.text (by decide) .nil))

theorem writes_emitFunctionDefinition : Writes d (p.emitFunctionDefinition e b) IsLine := by
  unfold emitFunctionDefinition
  split
  · next name _ =>
    refine (Gives.mapM _ fun a _ => writes_emitParameter hd b a).bind
      fun parameters hparameters => ?_
    refine (Gives.lift (preserves_functionTypeName hd name)).bind fun result _ => ?_
    refine (writes_emitBody hd he _).bind fun body hbody => .pure ?_
    have hresult : IsFlush (Program.resultAnnotation result) := by
      unfold resultAnnotation
      split <;> decide
    have hname : IsFlush ("function " ++ functionIdentifier name ++ "(") :=
      .between (by decide) (isFlush_functionIdentifier name) (by decide)
    have hlist := (hname.append (isFlush_commaList hparameters)).append (t := ")") (by decide)
    exact isLine_ofParts (.text ((hlist.append hresult).append (by decide)) (.last hbody))
  · exact gives_fail b _

theorem writes_emitHostStatement (hkind : (p.block b).kind = .hostCall name) :
    Writes d (p.emitHostStatement e b name) IsLine := by
  refine (writes_emitHostCall hd he b hkind).bind fun call hcall => .pure ?_
  split
  · next htakes => exact hcall.2 htakes
  · exact isLine_statement (.cons hcall.1 .nil)

theorem writes_emitUnknown : Writes d (p.emitUnknown e b) AreLines := by
  unfold emitUnknown
  split
  · exact (writes_expressionStep hd he b).bind fun _ hc =>
      .pure (.single (isLine_expressionStatement hc))
  · exact (Gives.lift (preserves_report b _)).bind fun _ _ => .pure .nil

theorem writes_emitLines : Writes d (p.emitLines e b) AreLines := by
  have hline : ∀ {m : CompileM Code}, Writes d m IsLine → Writes d (do return [← m]) AreLines :=
    fun h => h.bind fun _ hc => .pure (.single hc)
  unfold emitLines
  dsimp only
  split
  · exact writes_emitChain hd he _
  · exact hline (writes_emitSet hd he b)
  · exact hline (writes_emitChange hd he b)
  · exact hline (writes_emitConditional hd he b)
  · exact hline (writes_emitRepeat hd he b)
  · exact hline (writes_emitWhile hd he b)
  · exact hline (writes_emitForRange hd he b)
  · exact hline (writes_emitForOf hd he b)
  iterate 2 exact .pure (.single (isLine_statement (.text (by decide) .nil)))
  · exact hline (writes_emitIndexSet hd he b)
  · exact hline (writes_emitFunctionDefinition hd he b)
  · exact (writes_emitFunctionCall hd he b).bind fun _ hc =>
      .pure (.single (isLine_statement (.cons hc.isFlush .nil)))
  · exact hline (writes_emitReturn hd he b)
  · exact .pure (areLines_rawLines _)
  · next hkind => exact hline (writes_emitHostStatement hd he b hkind)
  · exact writes_emitUnknown hd he b
  · exact (writes_expressionStep hd he b).bind fun _ hc =>
      .pure (.single (isLine_expressionStatement hc))

end Writing

/-! ## All blocks -/

theorem emitsFlush_emitterFrom (hd : Legible p d) (fuel : Nat) :
    EmitsFlush d (p.emitterFrom fuel) := by
  induction fuel with
  | zero => exact ⟨fun _ => .pure (isFlush_ofText (by decide)), fun _ => .pure .nil⟩
  | succ fuel ih =>
    exact ⟨writes_expressionStep hd ih, fun b =>
      (writes_emitLines hd ih b).bind fun _ hlines => .pure (hlines.nameLast _)⟩

theorem writes_emitTop (hd : Legible p d) (top : BlockRef × TopRole) :
    Writes d (p.emitTop top) AreLines := by
  have he : EmitsFlush d p.emitter := emitsFlush_emitterFrom hd _
  have hlines : Writes d (p.emitTopLines top.1 top.2) AreLines := by
    cases top.2 with
    | looseChain => exact writes_emitChain hd he _
    | start => exact writes_emitLink hd he _
    | container => exact writes_emitLink hd he _
  exact hlines.bind fun _ h => .pure h.separateFirst

/-! ## The whole program -/

theorem endsSolid_enumLine (info : EnumInfo) (previous : Option Int) {m : EnumMember}
    (hm : IsFlush m.name) : EndsSolid (EnumMember.line info previous m) := by
  have hcomma : EndsSolid "," := by decide
  have hvalue : ∀ {l s : String}, IsFlush l → IsInline s →
      EndsSolid (m.name ++ l ++ s ++ ",") := fun hl hs =>
    ((hm.append hl).append hs.isFlush).append_solid hcomma
  unfold EnumMember.line
  split_ifs
  iterate 2 exact hvalue (by decide) (isInline_toString_nat _)
  · exact hm.append_solid hcomma
  · exact hvalue (by decide) (isInline_toString_int _)

theorem areLines_enumLines (info : EnumInfo) (previous : Option Int) {members : List EnumMember}
    (h : ∀ m ∈ members, IsFlush m.name) :
    AreLines ((EnumMember.linesFrom info previous members).map Code.ofText) := by
  induction members generalizing previous with
  | nil => exact .nil
  | cons m r ih =>
    obtain ⟨hm, hr⟩ := forall_mem_cons.mp h
    exact forall_mem_cons.mpr ⟨isLine_ofText (endsSolid_enumLine info previous hm), ih _ hr⟩

theorem isLine_enumDeclaration (hp : p.IsFlush) {info : EnumInfo} (hinfo : info ∈ p.surface.enums)
    (hc : info.declaration? p.workspace.vars = some c) : IsLine c := by
  have htexts : ∀ t ∈ info.name :: (info.members p.workspace.vars).map (·.name),
      IsFlush t := fun t ht =>
    hp.member (mem_append_left _ (mem_flatMap.mpr ⟨info, hinfo, ht⟩))
  obtain ⟨hname, hmembers⟩ := forall_mem_cons.mp htexts
  unfold EnumInfo.declaration? at hc
  dsimp only at hc
  split at hc
  · cases hc
  · cases hc
    refine isLine_ofParts (.text (.between (by decide) hname (by decide))
      (.last (isLine_braces ?_)))
    refine areLines_enumLines info none fun m hm => hmembers _ (mem_map_of_mem ?_)
    exact (Sorted.mem_sort _ _ _).mp hm

theorem isLine_kindDeclaration (hp : p.IsFlush) {kind : KindInfo} (hkind : kind ∈ p.surface.kinds)
    (hc : kind.declaration? p.workspace.vars = some c) : IsLine c := by
  have htexts : ∀ t ∈ kind.name :: kind.createFunction :: kind.members p.workspace.vars,
      IsFlush t := fun t ht =>
    hp.member (mem_append_right _ (mem_flatMap.mpr ⟨kind, hkind, ht⟩))
  obtain ⟨hname, hrest⟩ := forall_mem_cons.mp htexts
  obtain ⟨hcreate, hmembers⟩ := forall_mem_cons.mp hrest
  unfold KindInfo.declaration? at hc
  dsimp only at hc
  split at hc
  · cases hc
  · cases hc
    refine isLine_ofParts (.text (.between (by decide) hname (by decide))
      (.last (isLine_braces ?_)))
    intro line hline
    obtain ⟨name, hmem, rfl⟩ := mem_map.mp hline
    have hconst : IsFlush ("export const " ++ name ++ " = ") :=
      .between (by decide) (hmembers name hmem) (by decide)
    exact isLine_statement (.text ((hconst.append hcreate).append (by decide)) .nil)

theorem areLines_hostDeclarations (hp : p.IsFlush) : AreLines p.hostDeclarations := by
  unfold hostDeclarations
  refine .append (fun c hc => ?_) fun c hc => ?_
  · obtain ⟨info, hinfo, hdeclaration⟩ := mem_filterMap.mp hc
    exact isLine_enumDeclaration hp hinfo hdeclaration
  · obtain ⟨kind, hkind, hdeclaration⟩ := mem_filterMap.mp hc
    exact isLine_kindDeclaration hp hkind hdeclaration

theorem preserves_emitRootDeclarations (hd : Legible p d) :
    Preserves (Speaking IsFlush (fun _ => True) d) emitRootDeclarations AreLines := by
  refine .bind_get fun c hc => ?_
  rw [hc.rootDeclarations]
  refine (Preserves.mapM _ fun v hv => ?_).bind
    fun _ hlines => .pure (AreLines.separateFirst hlines)
  exact preserves_emitDeclaration (hd.rooted v (mem_filter.mp hv).1)

theorem writes_emitProgram (hd : Legible p d) (tops : List (BlockRef × TopRole)) :
    Writes d (p.emitProgram tops) AreLines :=
  (Gives.lift (preserves_emitRootDeclarations hd)).bind fun _ hdeclarations =>
    (Gives.mapM tops fun top _ => writes_emitTop hd top).bind fun _ hcode =>
      .pure (((areLines_hostDeclarations hd.flush).append hdeclarations).append (.flatten hcode))

/-- Tracking names variables by identifiers, which are flush. -/
theorem legible_track (hws : p.workspace.Sound) (hp : p.IsFlush) (disabled : List BlockRef)
    (taken : List String) : Legible p (p.track (.fresh disabled taken)).2 := by
  have hnamed : ∀ v, (∃ s, v ∈ ((p.track (.fresh disabled taken)).2.scope s).declared.values) →
      IsFlush ((p.track (.fresh disabled taken)).2.outputName v) := by
    rintro v ⟨s, hv⟩
    obtain ⟨name, hname, hid, _⟩ := exists_outputName p disabled taken hv
    unfold outputName
    rw [hname]
    exact hid.isInline.isFlush
  constructor
  · exact hp
  · rintro v ⟨s, name, hv⟩
    exact hnamed v ⟨s, Table.mem_values_of_get? hv⟩
  · exact fun b v hv => hnamed v (track_sited_declared hws disabled taken (.inr ⟨b, hv⟩))
  · exact fun v hv => hnamed v (track_sited_declared hws disabled taken (.inl hv))

/-- The output of a flush program is tidy. -/
theorem tidy_source (hws : p.workspace.Sound) (hp : p.IsFlush) {options : CompileOptions}
    {out : Output} (h : p.compile options = .ok out) : tidy out.source = out.source := by
  obtain ⟨c, code, c', hinfer, hemit, rfl⟩ := stages_of_compile h
  have hspeaks : Speaking IsFlush (fun _ => True) p.tracked p.tracked := by
    refine ⟨?_, fun _ _ => trivial, rfl, rfl, rfl, rfl⟩
    unfold tracked
    exact speaks_track _ _ vocabulary_isFlush hp.names (speaks_initial vocabulary_isFlush)
  have hlegible : Legible p p.tracked := by
    unfold tracked
    exact legible_track hws hp p.selectTops.disabled p.takenNames
  have hc := ((gives_infer vocabulary_isFlush hp.names.permits fun _ => trivial).of_ok hspeaks
    hinfer).1
  exact tidy_layOut ((writes_emitProgram hlegible _).of_ok hc hemit).2

end BlockProgram
