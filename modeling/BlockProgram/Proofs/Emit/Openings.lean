import BlockProgram.Proofs.Emit.Operators

/-!
# Statements that begin with a bracket

A line that begins with `[` indexes the line before it, if that one ends without a semicolon. An
expression that stands as a statement is kept apart by a semicolon, and most other statements begin
with a word. Two kinds do neither: an assignment to an item begins with the code of the list, and a
use of the host with what is used. They begin with a bracket exactly if that code does
(`emitStatement_opensList_iff`), and nothing keeps them apart then (`indexSet_opens_list`).
-/

namespace BlockProgram

open Program Text

variable {p : Program} {c d d' : Compilation} {b : BlockRef} {e : Emitter} {code : Code}
  {lines : List Code} {s : String}

/-! ## The first character -/

/-- A text that begins, but not with a bracket. -/
def Text.startsPlain (s : String) : Bool :=
  s.toList.head?.any (· != '[')

theorem Text.startsPlain_append (h : startsPlain s = true) (t : String) :
    startsPlain (s ++ t) = true := by
  unfold startsPlain at h ⊢
  rw [String.toList_append, List.head?_append]
  cases hs : s.toList.head? with
  | none =>
    rw [hs] at h
    cases h
  | some x => rwa [hs] at h

theorem Text.startsPlain_for (s : String) : startsPlain ("for (let " ++ s) = true :=
  startsPlain_append (by decide) s

theorem Text.IsIdentifier.startsPlain (h : IsIdentifier s) : startsPlain s = true := by
  obtain ⟨x, r, hs⟩ := List.exists_cons_of_ne_nil h.nonempty
  have hx := h.chars x (by simp [hs])
  unfold Text.startsPlain
  rw [hs]
  show (x != '[') = true
  rw [bne_iff_ne]
  rintro rfl
  revert hx
  decide

namespace Code

def OpensList (c : Code) : Prop :=
  c.source.toList.head? = some '['

instance decidableOpensList (c : Code) : Decidable c.OpensList :=
  inferInstanceAs (Decidable (_ = _))

theorem opensList_named (c : Code) (id : String) : (c.named id).OpensList ↔ c.OpensList := by
  unfold OpensList named
  rw [source_withTag]

theorem head_ofParts (c : Code) (r : List Code) : (ofParts (c :: r)).source.toList.head? =
    c.source.toList.head?.or (ofParts r).source.toList.head? := by
  have hsource : (ofParts (c :: r)).source = c.source ++ (ofParts r).source := by
    simp only [ofParts, source, write, writeParts, record_text]
    rw [writeParts_text 0 _ 0]
  rw [hsource, String.toList_append, List.head?_append]

theorem opensList_ofParts (c : Code) {r : List Code} (hr : ¬ (ofParts r).OpensList) :
    (ofParts (c :: r)).OpensList ↔ c.OpensList := by
  unfold OpensList at hr ⊢
  rw [head_ofParts]
  cases c.source.toList.head? with
  | none => simpa using hr
  | some x => rfl

theorem not_opensList_text (hs : Text.startsPlain s = true) (r : List Code) :
    ¬ (ofParts (ofText s :: r)).OpensList := by
  have hsource : (ofText s).source = s := rfl
  unfold OpensList
  unfold Text.startsPlain at hs
  rw [head_ofParts, hsource]
  cases h : s.toList.head? with
  | none =>
    rw [h] at hs
    cases hs
  | some x =>
    rw [h] at hs
    simpa using hs

theorem opensList_statement (c : Code) : (statement [c]).OpensList ↔ c.OpensList :=
  opensList_ofParts c (not_opensList_text (by decide) [])

theorem opensList_infixed {l : Code} {op : String} (h : needsParentheses op false l = false)
    (r : Code) : (infixed l op r).OpensList ↔ l.OpensList := by
  simp only [OpensList, infixed, source, write, record_text, h, operandStart, wrapped,
    Bool.false_eq_true, if_false, String.toList_append, List.head?_append]
  cases (write 0 0 l).text.toList.head? with
  | none => simp
  | some x => simp

end Code

open Code

theorem exists_nameLast (id : String) (lines : List Code) :
    (∃ code ∈ nameLast id lines, code.OpensList) ↔ ∃ code ∈ lines, code.OpensList := by
  induction lines with
  | nil => rfl
  | cons c r ih =>
    cases r with
    | nil => simp [nameLast, opensList_named]
    | cons x r =>
      show (∃ code ∈ c :: nameLast id (x :: r), _) ↔ _
      simp only [List.exists_mem_cons_iff] at ih ⊢
      rw [ih]

/-! ## Statements that begin with a word -/

/-- A step returns nothing but what `Q` says. -/
def Returns {α : Type} (m : CompileM α) (Q : α → Prop) : Prop :=
  ∀ d a d', m d = .ok a d' → Q a

namespace Returns

variable {α β : Type} {m : CompileM α} {f : α → CompileM β} {Q : α → Prop} {T : β → Prop}

theorem pure {a : α} (h : Q a) : Returns (Pure.pure a) Q := by
  intro d x d' hrun
  cases hrun
  exact h

theorem bind (h : Returns m Q) (hf : ∀ a, Q a → Returns (f a) T) : Returns (m >>= f) T := by
  intro d x d' hrun
  obtain ⟨a, d1, ha, hrun⟩ := exists_of_bind_ok hrun
  exact hf a (h d a d1 ha) d1 x d' hrun

/-- What a step returns last does not depend on what came before it. -/
theorem last (hf : ∀ a, Returns (f a) T) : Returns (m >>= f) T :=
  bind (Q := fun _ => True) (fun _ _ _ _ => trivial) fun a _ => hf a

end Returns

abbrev Apart (m : CompileM Code) : Prop :=
  Returns m fun code => ¬ code.OpensList

theorem apart_text {r : List Code} (hs : Text.startsPlain s = true) :
    Apart (pure (ofParts (ofText s :: r))) :=
  .pure (not_opensList_text hs r)

theorem not_opensList_expressionStatement (code : Code) :
    ¬ (expressionStatement code).OpensList := by
  unfold expressionStatement
  split
  · exact not_opensList_text (by decide) _
  · next h => rwa [opensList_statement]

theorem returns_emitBranches (lead : String) (conditions : List String) :
    Returns (p.emitBranches e b lead conditions) fun l => l = [] ∨ ∃ r, l = ofText lead :: r := by
  cases conditions with
  | nil => exact .pure (.inl rfl)
  | cons condition r =>
    exact .last fun _ => .last fun _ => .last fun _ => .pure (.inr ⟨_, rfl⟩)

theorem apart_emitConditional : Apart (p.emitConditional e b) := by
  refine (returns_emitBranches _ _).bind fun branches hbranches => .last fun otherwise => .pure ?_
  obtain rfl | ⟨r, rfl⟩ := hbranches <;> cases otherwise <;> exact not_opensList_text (by decide) _

theorem apart_emitRepeat : Apart (p.emitRepeat e b) := by
  refine .last fun i => .last fun _ => .last fun _ => apart_text ?_
  exact startsPlain_append (startsPlain_append (startsPlain_append (startsPlain_for i) _) _) _

theorem apart_emitWhile : Apart (p.emitWhile e b) :=
  .last fun _ => .last fun _ => apart_text (by decide)

theorem apart_emitForRange : Apart (p.emitForRange e b) :=
  .last fun i => .last fun _ => .last fun _ => .last fun _ =>
    apart_text (startsPlain_append (startsPlain_for i) _)

theorem apart_emitForOf : Apart (p.emitForOf e b) :=
  .last fun x => .last fun _ => .last fun _ => apart_text (startsPlain_append (startsPlain_for x) _)

theorem apart_emitFunctionDefinition : Apart (p.emitFunctionDefinition e b) := by
  unfold emitFunctionDefinition
  split
  · refine .last fun parameters => .last fun result => .last fun body => apart_text ?_
    simp only [String.append_assoc]
    exact startsPlain_append (by decide) _
  · intro d a d' hrun
    cases hrun

theorem returns_emitFunctionCall :
    Returns (p.emitFunctionCall e b) fun code => ¬ (statement [code]).OpensList := by
  refine .last fun args => .pure ?_
  rw [opensList_statement]
  exact not_opensList_text (startsPlain_append (Text.isIdentifier_identifier _).startsPlain _) _

theorem apart_emitReturn : Apart (p.emitReturn e b) := by
  unfold emitReturn
  split
  · exact .last fun _ => apart_text (by decide)
  · exact apart_text (by decide)

section Assignments

variable (he : EmitsForward p e)
  (hnames : ∀ n v, c.variableAt? b n = some v → Text.IsIdentifier (c.outputName v))
include he hnames

/-- Assignments begin with the name of a variable, or declare it. -/
theorem yields_set_apart : Yields p c (p.emitSet e b) fun code => ¬ code.OpensList := by
  unfold emitSet
  refine (yields_lookup b _).bind fun v hv => (forward_attach b _ none c).bind fun target _ => ?_
  refine (forward_emitTarget he target c).bind fun value _ => ?_
  refine (yields_assignmentHead v target value).bind fun head hhead => .pure ?_
  refine not_opensList_text ?_ _
  obtain ⟨r, rfl | rfl⟩ := hhead
  · exact startsPlain_append (hnames _ v hv).startsPlain r
  · rw [String.append_assoc]
    exact startsPlain_append (by decide) _

theorem yields_change_apart : Yields p c (p.emitChange e b) fun code => ¬ code.OpensList := by
  unfold emitChange
  refine (yields_variableName b _).bind fun name hname => ?_
  obtain ⟨v, hv, rfl⟩ := hname
  refine (forward_emitInput he b _ c).bind fun _ _ => .pure (not_opensList_text ?_ _)
  exact startsPlain_append (hnames _ v hv).startsPlain _

end Assignments

/-! ## Statements that begin with what they use -/

/-- What a statement begins with begins with a bracket: in a start block a line of what it holds,
in raw code a line, in an assignment to an item the list, in parentheses if it is an operator, and
in a use of the host the receiver or the name. That code is made at `d`. -/
def Program.LeadOpensList (p : Program) (e : Emitter) (b : BlockRef) (d : Compilation) : Prop :=
  match (p.block b).kind with
  | .onStart => ∃ lines d', p.emitChain e ((p.block b).statementInputs.findSome? (·.target)) d =
      .ok lines d' ∧ ∃ line ∈ lines, line.OpensList
  | .rawStatement => ∃ line ∈ rawLines (((p.block b).field? "CODE").getD ""), line.OpensList
  | .listIndexSet =>
    ∃ list d', p.emitInput e b "LIST" d = .ok list d' ∧ (list.followedBy "[").OpensList
  | .hostCall name => ∃ symbol, p.surface.symbol? name = some symbol ∧
    if symbol.isImageLiteral then (imageLiteral (p.calleeOf symbol) (p.block b)).OpensList
    else ∃ r d', p.emitArguments e b symbol symbol.parameters d = .ok r d' ∧
      (calleeCode (p.calleeOf symbol) (splitMark (p.calleeOf symbol).name).1 r.1).OpensList
  | _ => False

theorem opensList_useCode (mark : Option String) (callee : Symbol) (name : String)
    (receiver : Option Code) (args : List Code) :
    (useCode mark (calleeCode callee name receiver) args).OpensList ↔
      (calleeCode callee name receiver).OpensList := by
  have hplain : ∀ op, needsParentheses op false (calleeCode callee name receiver) = false := by
    intro op
    cases receiver with
    | none => rfl
    | some r => cases r <;> rfl
  unfold useCode
  split_ifs
  · rfl
  · exact opensList_infixed (hplain _) _
  · exact opensList_infixed (hplain _) _
  · exact opensList_ofParts _ (not_opensList_text (by decide) _)

theorem opensList_emitHostCall {name : String} (hkind : (p.block b).kind = .hostCall name)
    (h : p.emitHostCall e b name d = .ok code d') : code.OpensList ↔ p.LeadOpensList e b d := by
  unfold emitHostCall at h
  simp only [LeadOpensList, hkind]
  cases hsymbol : p.surface.symbol? name with
  | none =>
    rw [hsymbol] at h
    cases h
  | some symbol =>
    rw [hsymbol] at h
    simp only [Option.some.injEq, exists_eq_left']
    by_cases himage : symbol.isImageLiteral = true
    · simp only [himage, if_true] at h ⊢
      cases h
      rfl
    · simp only [himage, Bool.false_eq_true, if_false] at h ⊢
      unfold emitUse at h
      obtain ⟨r, d1, hr, h⟩ := exists_of_bind_ok h
      obtain ⟨rest, d2, _, h⟩ := exists_of_bind_ok h
      obtain ⟨handlers, d3, _, h⟩ := exists_of_bind_ok h
      have hcall : useCode (splitMark (p.calleeOf symbol).name).2
          (calleeCode (p.calleeOf symbol) (splitMark (p.calleeOf symbol).name).1 r.1)
          (r.2 ++ rest ++ handlers) = code := (EStateM.Result.ok.inj h).1
      rw [← hcall, opensList_useCode, hr]
      simp

theorem opensList_emitIndexSet (hkind : (p.block b).kind = .listIndexSet)
    (h : p.emitIndexSet e b d = .ok code d') : code.OpensList ↔ p.LeadOpensList e b d := by
  unfold emitIndexSet at h
  obtain ⟨list, d1, hlist, h⟩ := exists_of_bind_ok h
  obtain ⟨index, d2, _, h⟩ := exists_of_bind_ok h
  obtain ⟨value, d3, _, h⟩ := exists_of_bind_ok h
  cases h
  -- a bracket follows the list at the latest, so the index does not come first
  have hhead : ∃ x, (list.followedBy "[").source.toList.head? = some x := by
    have hpair : ∀ c, ∃ x, (ofParts [c, ofText "["]).source.toList.head? = some x := by
      intro c
      rw [head_ofParts]
      cases c.source.toList.head? with
      | none => exact ⟨'[', rfl⟩
      | some x => exact ⟨x, rfl⟩
    cases list <;> exact hpair _
  obtain ⟨x, hx⟩ := hhead
  simp only [LeadOpensList, hkind, hlist]
  unfold OpensList statement
  rw [List.cons_append, head_ofParts, hx]
  simp [hx]

/-! ## All statements -/

/-- One line begins with a bracket if its code does. -/
theorem exists_single {m : CompileM Code} {f : Code → Code} {x : Prop}
    (hm : ∀ code d1, m d = .ok code d1 → ((f code).OpensList ↔ x))
    (h : (do return [f (← m)] : CompileM (List Code)) d = .ok lines d') :
    (∃ code ∈ lines, code.OpensList) ↔ x := by
  obtain ⟨code, d1, hcode, h⟩ := exists_of_bind_ok h
  cases h
  simpa using hm code _ hcode

theorem opensList_emitLines (he : EmitsForward p e) (hc : Consistent p d)
    (hnames : ∀ n v, d.variableAt? b n = some v → Text.IsIdentifier (d.outputName v))
    (h : p.emitLines e b d = .ok lines d') :
    (∃ code ∈ lines, code.OpensList) ↔ p.LeadOpensList e b d := by
  have hword : ∀ {m : CompileM Code} {f : Code → Code},
      Returns m (fun code => ¬ (f code).OpensList) →
        (do return [f (← m)] : CompileM _) d = .ok lines d' →
          ((∃ code ∈ lines, code.OpensList) ↔ False) :=
    fun hm => exists_single fun code d1 hcode => iff_false_intro (hm d code d1 hcode)
  have hset : ∀ {m : CompileM Code}, Yields p d m (fun code => ¬ code.OpensList) →
      (do return [← m] : CompileM _) d = .ok lines d' →
        ((∃ code ∈ lines, code.OpensList) ↔ False) :=
    fun hm => exists_single fun code d1 hcode =>
      iff_false_intro ((hm d hc (Advances.refl d)).of_ok hcode).2
  generalize hm : p.emitLines e b = m at h
  unfold emitLines at hm
  dsimp only at hm
  split at hm <;> rename_i hk <;> subst hm
  · simp [LeadOpensList, hk, h]
  · simpa only [LeadOpensList, hk] using hset (yields_set_apart he hnames) h
  · simpa only [LeadOpensList, hk] using hset (yields_change_apart he hnames) h
  · simpa only [LeadOpensList, hk] using hword apart_emitConditional h
  · simpa only [LeadOpensList, hk] using hword apart_emitRepeat h
  · simpa only [LeadOpensList, hk] using hword apart_emitWhile h
  · simpa only [LeadOpensList, hk] using hword apart_emitForRange h
  · simpa only [LeadOpensList, hk] using hword apart_emitForOf h
  iterate 2 simpa only [LeadOpensList, hk] using hword (m := pure _) (apart_text (by decide)) h
  · exact exists_single (fun _ _ => opensList_emitIndexSet hk) h
  · simpa only [LeadOpensList, hk] using hword apart_emitFunctionDefinition h
  · simpa only [LeadOpensList, hk] using hword returns_emitFunctionCall h
  · simpa only [LeadOpensList, hk] using hword apart_emitReturn h
  · cases h
    simp only [LeadOpensList, hk]
  · refine exists_single (fun code d1 hcode => ?_) h
    obtain ⟨call, d2, hcall, hend⟩ := exists_of_bind_ok hcode
    cases hend
    rw [← opensList_emitHostCall hk hcall]
    split
    · rfl
    · exact opensList_statement call
  · simp only [LeadOpensList, hk]
    unfold emitUnknown at h
    split at h
    · exact hword (fun _ code _ _ => not_opensList_expressionStatement code) h
    · obtain ⟨_, d1, _, h⟩ := exists_of_bind_ok h
      cases h
      simp
  · have hlead : ¬ p.LeadOpensList e b d := by
      unfold LeadOpensList
      split <;> simp_all
    have hapart := hword (fun _ code _ _ => not_opensList_expressionStatement code) h
    exact hapart.trans (iff_false_intro hlead).symm

/-- Once a program has been typed, and code for some of its blocks made, a statement begins with a
bracket exactly if what it begins with does: raw code, what a start block holds, the list that an
item of is assigned, or what is used of the host. -/
theorem emitStatement_opensList_iff {disabled : List BlockRef} {taken : List String}
    (hinfer : p.infer (p.track (.fresh disabled taken)).2 = .ok () c)
    (requests : List CodeRequest) (hb : b < p.workspace.size)
    (hrun : p.emitStatement b (CodeRequest.applyAll p c requests) = .ok lines d) :
    (∃ line ∈ lines, line.OpensList) ↔
      p.LeadOpensList (p.emitterFrom (p.workspace.size - 1)) b
        (CodeRequest.applyAll p c requests) := by
  obtain ⟨fuel, hfuel⟩ := Nat.exists_eq_succ_of_ne_zero (Nat.ne_zero_of_lt hb)
  obtain ⟨hs, hadv⟩ := CodeRequest.advances_applyAll requests (later_infer hinfer).1.consistent
  generalize CodeRequest.applyAll p c requests = s at hrun hs hadv ⊢
  unfold emitStatement emitter at hrun
  rw [hfuel] at hrun ⊢
  obtain ⟨own, d1, hown, h⟩ := exists_of_bind_ok hrun
  cases h
  rw [exists_nameLast]
  refine opensList_emitLines (emitsForward_emitterFrom fuel) hs ?_ hown
  intro n v hv
  rw [hadv.variableAt?_eq] at hv
  rw [outputName_of_advances hadv]
  exact (outputName_legal hinfer hv).1

/-- An item of a missing list is assigned after a line of raw code. -/
def bracketBlocks : List BlockSpec :=
  [{ id := "raw", tag := "typescript_statement", fields := [⟨"CODE", "f()"⟩], next := some "set" },
   { id := "set", tag := "lists_index_set"
     inputs := [("LIST", .value, none), ("INDEX", .value, none), ("VALUE", .value, none)] }]

theorem emitStatement_item : ∃ c line d,
    (ofBlocks bracketBlocks).infer ((ofBlocks bracketBlocks).track (.fresh [] [])).2 = .ok () c ∧
    (ofBlocks bracketBlocks).isLive c 1 = true ∧ c.blockScope.contains 1 = true ∧
    (ofBlocks bracketBlocks).emitStatement 1 c = .ok [line] d ∧ line.OpensList := by
  generalize hp : ofBlocks bracketBlocks = p
  have hrun : Succeeds p.infer (p.track (.fresh [] [])).2 fun _ c =>
      p.isLive c 1 = true ∧ c.blockScope.contains 1 = true ∧
        Succeeds (p.emitStatement 1) c fun lines _ =>
          lines.length = 1 ∧ ∀ line ∈ lines, line.OpensList := by
    subst hp
    decide +kernel
  obtain ⟨_, c, hinfer, hlive, hvisited, hrun⟩ := hrun.exists_ok
  obtain ⟨lines, d, hemit, hone, hopens⟩ := hrun.exists_ok
  obtain ⟨line, rfl⟩ := List.length_eq_one_iff.mp hone
  exact ⟨c, line, d, hinfer, hlive, hvisited, hemit, hopens line (.head _)⟩

/-- The list that the item is assigned in begins with a bracket. -/
theorem emitStatement_opensList_iff_item : ∃ c,
    (ofBlocks bracketBlocks).infer ((ofBlocks bracketBlocks).track (.fresh [] [])).2 = .ok () c ∧
    (ofBlocks bracketBlocks).LeadOpensList ((ofBlocks bracketBlocks).emitterFrom 1) 1 c := by
  obtain ⟨c, line, d, hinfer, _, _, hrun, hopens⟩ := emitStatement_item
  have hsize : (ofBlocks bracketBlocks).workspace.size = 2 := by decide +kernel
  have h := emitStatement_opensList_iff hinfer [] (by rw [hsize]; decide) hrun
  rw [hsize] at h
  exact ⟨c, hinfer, h.mp ⟨line, .head _, hopens⟩⟩

/-- The assignment follows a line without a semicolon and is not kept apart from it. -/
theorem indexSet_opens_list : ∃ c line d,
    (ofBlocks bracketBlocks).infer ((ofBlocks bracketBlocks).track (.fresh [] [])).2 = .ok () c ∧
    ((ofBlocks bracketBlocks).block 0).next = some 1 ∧
    (ofBlocks bracketBlocks).kind 1 = .listIndexSet ∧ (ofBlocks bracketBlocks).isLive c 1 = true ∧
    c.blockScope.contains 1 = true ∧
    (ofBlocks bracketBlocks).emitStatement 1 c = .ok [line] d ∧ line.OpensList := by
  obtain ⟨c, line, d, hinfer, hrun⟩ := emitStatement_item
  exact ⟨c, line, d, hinfer, by decide +kernel, by decide +kernel, hrun⟩

end BlockProgram
