import BlockProgram.Proofs.Compile.Selection
import BlockProgram.Proofs.Pairing.Compile
import BlockProgram.Proofs.Scope.Names
import BlockProgram.Proofs.Workspace.HostKind

/-!
# Variables and the names of the host

A use of the host without a receiver begins with a name of the host. No variable takes that name if
it is shielded: reserved or taken, or no identifier at all. Namespaces of one word are shielded
(`callee_not_captured`). What comes first in a longer namespace is not, and neither is the name of a
symbol without a namespace (`compile_captures_callee`).
-/

namespace BlockProgram

open Program List

/-! ## What is called -/

/-- Whether a use of a symbol with the given parameters is written with a receiver. -/
def Block.takesReceiver (block : Block) : List Parameter → Bool
  | [] => false
  | q :: r =>
    if q.isReceiver then true
    else if block.hasInput (q.inputOn block.mutation) then block.takesReceiver r
    else if q.isOptional then false
    else block.takesReceiver r

/-- What a use of a symbol without a receiver begins with. -/
def Program.calleeText (p : Program) (symbol : Symbol) : String :=
  let callee := p.calleeOf symbol
  if symbol.isImageLiteral then callee.qualifiedName
  else if callee.nameSpace = "" then (splitMark callee.name).1
  else callee.nameSpace ++ "." ++ (splitMark callee.name).1

/-- The part of a text in front of its first dot. -/
def Text.firstSegment (s : String) : String :=
  String.ofList (s.toList.takeWhile (· ≠ '.'))

/-- No variable of a program is called by the given name: it is reserved or taken, or it is no
identifier. -/
def Program.Shields (p : Program) (name : String) : Prop :=
  name ∈ Text.reservedWords ++ p.takenNames ∨ ¬ Text.IsIdentifier name

variable {p : Program} {e : Emitter} {b : BlockRef} {symbol : Symbol}

/-- What is known of any step: it may give any value. -/
theorem gives_any {α : Type} (m : CompileM α) : Gives (fun _ => True) m fun _ => True :=
  fun _ _ => Ensures.intro (fun _ _ _ => ⟨trivial, trivial⟩) fun _ _ _ => trivial

theorem gives_emitArguments (parameters : List Parameter) :
    Gives (fun _ => True) (p.emitArguments e b symbol parameters) fun r =>
      r.1.isSome = (p.block b).takesReceiver parameters := by
  induction parameters with
  | nil => exact .pure rfl
  | cons q r ih =>
    unfold emitArguments Block.takesReceiver
    dsimp only
    split
    · refine (gives_any _).bind fun receiver _ => (gives_any _).bind fun later _ => .pure ?_
      cases later.1 <;> rfl
    · split
      · exact (gives_any _).bind fun arg _ => ih.bind fun later hlater => .pure hlater
      · split
        · exact .pure rfl
        · exact ih.bind fun later hlater => .pure hlater

/-! ## Code -/

namespace Code

theorem source_ofParts_cons (first : Code) (rest : List Code) :
    ∃ r, (ofParts (first :: rest)).source = first.source ++ r := by
  simp only [ofParts, source, write, writeParts, record]
  exact ⟨_, rfl⟩

theorem source_infixed_text (s op : String) (right : Code) :
    ∃ r, (infixed (ofText s) op right).source = s ++ r := by
  simp only [infixed, ofText, source, write, record, needsParentheses, wrapped]
  exact ⟨_, String.append_assoc⟩

end Code

/-- However it is used, what is called comes first. -/
theorem exists_source_useCode (mark : Option String) (text : String) (args : List Code) :
    ∃ rest, (useCode mark (.ofText text) args).source = text ++ rest := by
  unfold useCode
  split
  · exact ⟨"", String.append_empty.symm⟩
  · split
    · exact Code.source_infixed_text text _ _
    · split
      · exact Code.source_infixed_text text _ _
      · exact Code.source_ofParts_cons (.ofText text) _

theorem gives_emitHostCall {name : String} (hsymbol : p.surface.symbol? name = some symbol)
    (hcall : symbol.isImageLiteral = true ∨ (p.block b).takesReceiver symbol.parameters = false) :
    Gives (fun _ => True) (p.emitHostCall e b name) fun code =>
      ∃ rest, code.source = p.calleeText symbol ++ rest := by
  unfold emitHostCall calleeText
  rw [hsymbol]
  dsimp only
  split
  · refine .pure ⟨"`" ++ (((p.block b).fields.head?.map (·.value)).getD "" ++ "`"), ?_⟩
    show _ ++ _ ++ _ ++ _ = _
    rw [String.append_assoc, String.append_assoc]
  · next himage =>
    have hnone := hcall.resolve_left himage
    unfold emitUse
    refine (gives_emitArguments _).bind fun r hr => ?_
    refine (gives_any _).bind fun rest _ => (gives_any _).bind fun handlers _ => .pure ?_
    have hreceiver : r.1 = none := by simpa using hr.trans hnone
    rw [hreceiver]
    exact exists_source_useCode _ _ _

/-! ## Names -/

/-- The namespace that a use is written with is taken. -/
theorem nameSpace_mem_takenNames {name : String} (hsymbol : p.surface.symbol? name = some symbol)
    (hspace : (p.calleeOf symbol).nameSpace ≠ "") :
    (p.calleeOf symbol).nameSpace ∈ p.takenNames := by
  have hcallee : ∃ x, p.surface.symbol? x = some (p.calleeOf symbol) := by
    unfold calleeOf
    cases h : symbol.aliasFor.bind p.surface.symbol? with
    | none => exact ⟨name, hsymbol⟩
    | some callee =>
      obtain ⟨x, _, hx⟩ := Option.bind_eq_some_iff.mp h
      exact ⟨x, hx⟩
  obtain ⟨x, hx⟩ := hcallee
  have hvalue : p.calleeOf symbol ∈ p.surface.symbols.values :=
    mem_map.mpr ⟨_, Table.mem_of_lookup hx, rfl⟩
  have hnamespaces : (p.calleeOf symbol).nameSpace ∈ p.surface.namespaces := by
    unfold Surface.namespaces Sorted.texts
    rw [mem_eraseDups, Sorted.mem_sort, mem_filter]
    exact ⟨mem_map.mpr ⟨_, hvalue, rfl⟩, by simpa using hspace⟩
  unfold takenNames
  simp [hnamespaces]

theorem firstSegment_append_dot {s : String} (hs : '.' ∉ s.toList) (rest : String) :
    Text.firstSegment (s ++ "." ++ rest) = s := by
  have hall : ∀ c ∈ s.toList, decide (c ≠ '.') = true := by
    intro c hc
    exact decide_eq_true fun h => hs (h ▸ hc)
  unfold Text.firstSegment
  rw [String.toList_append, String.toList_append, append_assoc,
    takeWhile_append_of_pos hall]
  simp

/-- A namespace of one word is what a use of it begins with. -/
theorem firstSegment_calleeText (hspace : (p.calleeOf symbol).nameSpace ≠ "")
    (hword : '.' ∉ (p.calleeOf symbol).nameSpace.toList) :
    Text.firstSegment (p.calleeText symbol) = (p.calleeOf symbol).nameSpace := by
  unfold calleeText Symbol.qualifiedName
  dsimp only
  rw [if_neg hspace, if_neg hspace]
  split
  · exact firstSegment_append_dot hword _
  · exact firstSegment_append_dot hword _

/-- No variable has a name that is shielded. -/
theorem outputName_ne_of_shields {x : String} (hx : p.Shields x) {s : ScopeId} {v : BindingId}
    (hv : v ∈ (p.tracked.scope s).declared.values) : p.tracked.outputName v ≠ x := by
  unfold tracked at hv ⊢
  obtain ⟨name, hname, hlegal, hfree⟩ := exists_outputName p _ _ hv
  have heq : (p.track (p.start p.selectTops)).2.outputName v = name := by
    unfold Compilation.outputName
    show Option.getD
      ((p.track (.fresh p.selectTops.disabled p.takenNames)).2.binding v).outputName _
      = _
    rw [hname]
    rfl
  rw [heq]
  rintro rfl
  exact hx.elim hfree fun h => h hlegal

/-- A use of the host without a receiver begins with what is called. What comes first there is the
namespace if that is one word, and then it is shielded; and no variable has the name of what comes
first if that is shielded. -/
theorem callee_not_captured {name : String} (hsymbol : p.surface.symbol? name = some symbol)
    (hcall : symbol.isImageLiteral = true ∨
      (p.block b).takesReceiver symbol.parameters = false) :
    (∀ e c code c', p.emitHostCall e b name c = .ok code c' →
      ∃ rest, code.source = p.calleeText symbol ++ rest) ∧
    ((p.calleeOf symbol).nameSpace ≠ "" → '.' ∉ (p.calleeOf symbol).nameSpace.toList →
      Text.firstSegment (p.calleeText symbol) = (p.calleeOf symbol).nameSpace ∧
      p.Shields (Text.firstSegment (p.calleeText symbol))) ∧
    (p.Shields (Text.firstSegment (p.calleeText symbol)) →
      ∀ s, ∀ v ∈ (p.tracked.scope s).declared.values,
        p.tracked.outputName v ≠ Text.firstSegment (p.calleeText symbol)) := by
  refine ⟨?_, ?_, ?_⟩
  · intro e c code c' hcode
    exact ((gives_emitHostCall hsymbol hcall).of_ok trivial hcode).2
  · intro hspace hword
    rw [firstSegment_calleeText hspace hword]
    exact ⟨rfl, Or.inl (mem_append_right _ (nameSpace_mem_takenNames hsymbol hspace))⟩
  · exact fun hshields s v hv => outputName_ne_of_shields hshields hv

def hostFunction (nameSpace name : String) : Symbol where
  nameSpace := nameSpace
  name := name
  result := .void
  blockType := some "host_call"

/-- The variable `x` is set, and then a function of the host is called. -/
def callingBlocks (x : String) : List BlockSpec :=
  [{ id := "set", tag := "variables_set", fields := [⟨"VAR", x⟩]
     inputs := [("VALUE", .value, none)], next := some "call" },
   { id := "call", tag := "host_call" }]

def calling (function : Symbol) (x : String) : Program where
  workspace :=
    match Workspace.build (Surface.addSymbol {} function) (callingBlocks x) [] with
    | .ok ws => ws
    | .error _ => {}
  surface := Surface.addSymbol {} function

/-- A variable that is called like a namespace gets another name. -/
theorem callee_not_captured_namespace :
    let f := hostFunction "music" "play"
    let p := calling f "music"
    p.surface.symbol? "music.play" = some f ∧ (p.block 1).takesReceiver f.parameters = false ∧
      Text.firstSegment (p.calleeText f) = "music" ∧
      (p.tracked.scope 0).declared.values = [0] ∧ p.tracked.outputName 0 ≠ "music" ∧
      (p.compile {}).map (·.source) = .ok "let music2 = 0;\nmusic.play();\n" := by
  intro f p
  have hsymbol : p.surface.symbol? "music.play" = some f := by decide +kernel
  have hcallee : p.calleeOf f = f := by decide +kernel
  have hdeclared : (p.tracked.scope 0).declared.values = [0] := by
    unfold tracked
    decide +kernel
  obtain ⟨_, hspace, hnames⟩ := callee_not_captured (b := 1) hsymbol (Or.inr rfl)
  rw [hcallee] at hspace
  obtain ⟨hfirst, hshields⟩ := hspace (by decide) (by decide)
  have hne := hnames hshields 0 0 (by rw [hdeclared]; decide)
  rw [hfirst] at hne
  exact ⟨hsymbol, rfl, hfirst, hdeclared, hne, by decide +kernel⟩

/-- Variables that are called like a function without a namespace, or like the first word of a
longer namespace, keep their names, and the calls mean the variables. -/
theorem compile_captures_callee :
    ((calling (hostFunction "" "show") "show").compile {}).map (·.source) =
      .ok "let show = 0;\nshow();\n" ∧
    ((calling (hostFunction "music.tones" "play") "music").compile {}).map (·.source) =
      .ok "let music = 0;\nmusic.tones.play();\n" := by
  decide +kernel

end BlockProgram
