import BlockProgram.Proofs.CommandLine.Directory
import BlockProgram.Proofs.Emit.Flush

/-!
# The source map and the file it is about

The command makes the source map from the program text as it is laid out, and delivers that text, or
the tidied text if it is asked to. A map describes the file beside it as long as tidying takes
nothing away, which is so for every flush program (`sourceMap_describes_file`).
-/

namespace BlockProgram.CommandLine

open Code Workspace

variable {o : Options} {p : Program} {files : String → Option String}

/-! ## What the command reads -/

/-- A program that can be read is well formed. -/
theorem readProgram_sound {surface : Surface} (h : o.readProgram files surface = .ok p) :
    p.workspace.Sound := by
  have hmap : ∀ {ε δ α : Type} {f : ε → δ} {m : Except ε α} {a : α},
      m.mapError f = .ok a → m = .ok a := by
    intro ε δ α f m a hm
    cases m with
    | error e => cases hm
    | ok b =>
      cases hm
      rfl
  unfold Options.readProgram at h
  obtain ⟨text, _, h⟩ := ok_of_bind h
  obtain ⟨ws, hws, h⟩ := ok_of_bind h
  cases h
  obtain ⟨v, _, hv⟩ := ok_of_bind (hmap hws)
  have hread := hmap hv
  unfold Document.readWorkspace at hread
  obtain ⟨blocks, _, hread⟩ := ok_of_bind hread
  obtain ⟨specs, _, hread⟩ := ok_of_bind hread
  obtain ⟨vars, _, hread⟩ := ok_of_bind hread
  split at hread
  · next ws' hbuild =>
    cases hread
    exact build_sound hbuild
  · cases hread

/-! ## What the command delivers -/

/-- The text that is delivered: the source, tidied if that is asked for. -/
theorem deliveredText_eq {out : Output} (h : p.compile o.compileOptions = .ok out) :
    Options.deliveredText out = if o.tidy then Text.tidy out.source else out.source := by
  obtain ⟨c, code, c', _, _, houtput⟩ := stages_of_compile h
  rw [houtput]
  unfold Options.deliveredText Program.output CompileOptions.format Options.compileOptions
  cases o.tidy <;> rfl

/-- The plan reports lines, and then delivers the output. -/
def Delivers (o : Options) (out : Output) (p : Plan) : Prop :=
  ∃ lead, (∀ a ∈ lead, ∃ line, a = Action.report line) ∧
    p.actions = lead ++ o.deliver out ++ o.deliverMap out

theorem Delivers.after {out : Output} {p : Plan} (h : Delivers o out p) (step : Nat)
    (label : String) : Delivers o out (.after (o.progress step label) p) := by
  obtain ⟨lead, hlead, hactions⟩ := h
  refine ⟨o.progress step label :: lead, List.forall_mem_cons.mpr ⟨⟨_, rfl⟩, hlead⟩, ?_⟩
  unfold Plan.after
  rw [hactions]
  rfl

theorem delivers_planProgram (h : (planProgram o p).error = none) :
    ∃ out, p.compile o.compileOptions = .ok out ∧ Delivers o out (planProgram o p) := by
  unfold planProgram at h ⊢
  cases hcompile : p.compile o.compileOptions with
  | error f =>
    rw [hcompile] at h
    cases h
  | ok out =>
    refine ⟨out, rfl, (Stage.all.map fun s => o.progress (2 + s.number) s.label) ++ o.remarks out,
      ?_, rfl⟩
    have hreport : ∀ {α : Type} {f : α → String} {l : List α},
        ∀ a ∈ l.map fun x => Action.report (f x), ∃ line, a = .report line := by
      intro α f l a ha
      obtain ⟨x, _, rfl⟩ := List.mem_map.mp ha
      exact ⟨_, rfl⟩
    have hremarks : ∀ a ∈ o.remarks out, ∃ line, a = .report line := by
      unfold Options.remarks
      refine List.forall_mem_append.mpr ⟨?_, ?_⟩
      all_goals
        split
        · exact hreport
        · exact fun _ ha => by cases ha
    exact List.forall_mem_append.mpr ⟨hreport, hremarks⟩

theorem delivers_planWorkspace {surface : Surface}
    (h : (planWorkspace o files surface).error = none) :
    ∃ p out, o.readProgram files surface = .ok p ∧ p.compile o.compileOptions = .ok out ∧
      Delivers o out (planWorkspace o files surface) := by
  unfold planWorkspace at h ⊢
  cases hprogram : o.readProgram files surface with
  | error e =>
    rw [hprogram] at h
    cases h
  | ok p =>
    rw [hprogram] at h
    have hplan : (planProgram o p).error = none := h
    obtain ⟨out, hcompile, hdelivers⟩ := delivers_planProgram hplan
    exact ⟨p, out, rfl, hcompile, hdelivers.after _ _⟩

/-- A plan that ends well delivers what the program that it reads compiles to. -/
theorem delivers_plan (h : (plan o files).error = none) :
    ∃ surface p out, o.readSurface files = .ok surface ∧
      o.readProgram files surface = .ok p ∧ p.compile o.compileOptions = .ok out ∧
      Delivers o out (plan o files) := by
  unfold plan at h ⊢
  cases hsurface : o.readSurface files with
  | error e =>
    rw [hsurface] at h
    cases h
  | ok surface =>
    rw [hsurface] at h
    have hplan : (planWorkspace o files surface).error = none := h
    obtain ⟨p, out, hprogram, hcompile, hdelivers⟩ := delivers_planWorkspace hplan
    exact ⟨surface, p, out, rfl, hprogram, hcompile, hdelivers.after _ _⟩

/-- The two files that a run leaves behind: the text is in one and the map in the other, and if both
paths name one place, the map is there. -/
theorem read_run {d : Directory} {outPath mapPath : String} (hout : o.output = some outPath)
    (hmap : o.sourceMap = some mapPath) (h : (run o d).error = none) :
    ∃ surface p out, o.readSurface d.read? = .ok surface ∧
      o.readProgram d.read? surface = .ok p ∧ p.compile o.compileOptions = .ok out ∧
      (run o d).directory.read? mapPath = some (out.mapJson.pretty 0) ∧
      (d.locate outPath ≠ d.locate mapPath →
        (run o d).directory.read? outPath = some (Options.deliveredText out)) := by
  have hsteps : (Run.steps { directory := d } (plan o d.read?).error
      (plan o d.read?).actions).error = none := h
  obtain ⟨surface, p, out, hsurface, hprogram, hcompile, lead, hlead, hactions⟩ :=
    delivers_plan (Run.final_of_steps hsteps)
  have hread := Run.read_steps hsteps
  have hlast : ∀ path, lastWritten d path (plan o d.read?).actions =
      (if d.locate mapPath = d.locate path then some (out.mapJson.pretty 0) else none).or
        (if d.locate outPath = d.locate path then some (Options.deliveredText out) else none) := by
    intro path
    rw [hactions, lastWritten_append, lastWritten_append, lastWritten_reports d path hlead]
    unfold Options.deliver Options.deliverMap
    rw [hout, hmap]
    simp [lastWritten, Options.progress]
  refine ⟨surface, p, out, hsurface, hprogram, hcompile, ?_, fun hapart => ?_⟩
  · rw [run, hread, hlast, if_pos rfl]
    rfl
  · rw [run, hread, hlast, if_neg (Ne.symm hapart), if_pos rfl]
    rfl

/-! ## The map -/

/-- The entries are those of the named parts of code, in order, and their bytes of the text are the
texts of these parts. -/
def Describes (entries : List SourceEntry) (text : String) (code : List Code) : Prop :=
  List.Forall₂ (fun e part => part.2.tag.id = some e.id ∧ e.Marks text (ownText part)) entries
    ((partsAll 0 code).filter isNamed)

/-- A run that writes the program text and its map to two files leaves the text, tidied if that is
asked for, in one, and the map of the code that the program is written as in the other. The map
describes the file, unless the text is tidied and the program is not flush. -/
theorem sourceMap_describes_file {o : Options} {d : Directory} {outPath mapPath : String}
    (hout : o.output = some outPath) (hmap : o.sourceMap = some mapPath)
    (hapart : d.locate outPath ≠ d.locate mapPath) (hrun : (run o d).error = none) :
    ∃ surface p out c code c' text, o.readSurface d.read? = .ok surface ∧
      o.readProgram d.read? surface = .ok p ∧ p.compile o.compileOptions = .ok out ∧
      p.infer p.tracked = .ok () c ∧ p.emitProgram (p.tops p.selectTops) c = .ok code c' ∧
      (run o d).directory.read? mapPath = some (out.mapJson.pretty 0) ∧
      (run o d).directory.read? outPath = some text ∧
      text = (if o.tidy then Text.tidy out.source else out.source) ∧
      ((o.tidy = true → p.IsFlush) → Describes out.map text code) := by
  obtain ⟨surface, p, out, hsurface, hprogram, hcompile, hmapFile, hfile⟩ := read_run hout hmap hrun
  obtain ⟨c, code, c', hinfer, hemit, houtput⟩ := stages_of_compile hcompile
  refine ⟨surface, p, out, c, code, c', _, hsurface, hprogram, hcompile, hinfer, hemit, hmapFile,
    hfile hapart, deliveredText_eq hcompile, fun hflush => ?_⟩
  have htext : Options.deliveredText out = out.source := by
    rw [deliveredText_eq hcompile]
    split
    · next htidy => exact tidy_source (readProgram_sound hprogram) (hflush htidy) hcompile
    · rfl
  have hmarks : Describes out.map out.source code := by
    rw [houtput]
    exact (traces_writeStatements 0 0 true code).occurs.imp fun _ _ h => ⟨h.1, h.2.marks⟩
  rw [htext]
  exact hmarks

/-! ## Raw code on two lines -/

def tidyWithMap : Options :=
  { input := "main.json", output := some "main.ts", sourceMap := some "main.map", tidy := true }

/-- A directory with a workspace that has a block of raw code, with blanks at the end of a line. -/
def rawCodeDirectory : Directory :=
  .ofFiles [("main.json", "\x7b\"blocks\":[\x7b\"id\":\"a\",\"type\":\"typescript_statement\"," ++
    "\"fields\":[\x7b\"name\":\"CODE\",\"value\":\"f();  \\ng();\"\x7d]\x7d]\x7d")]

/-- Blanks at the end of a line of raw code are not written in the first place. -/
theorem sourceMap_describes_raw_code :
    (run tidyWithMap rawCodeDirectory).error = none ∧
      (run tidyWithMap rawCodeDirectory).directory.read? "main.ts" = some "f();\ng();\n" ∧
      ∃ (out : Output) (code : List Code), out.map = [⟨5, 4, "a"⟩] ∧
        (run tidyWithMap rawCodeDirectory).directory.read? "main.map" =
          some (out.mapJson.pretty 0) ∧ Describes out.map "f();\ng();\n" code := by
  have hfacts : (run tidyWithMap rawCodeDirectory).error = none ∧
      rawCodeDirectory.locate "main.ts" ≠ rawCodeDirectory.locate "main.map" ∧
      (run tidyWithMap rawCodeDirectory).directory.read? "main.ts" = some "f();\ng();\n" ∧
      (tidyWithMap.readProgram rawCodeDirectory.read? {}).toOption.all (fun p =>
        decide p.IsFlush && (p.compile tidyWithMap.compileOptions).toOption.all fun out =>
          decide (out.map = [⟨5, 4, "a"⟩])) = true := by
    decide +kernel
  obtain ⟨hrun, hapart, hfile, hprograms⟩ := hfacts
  obtain ⟨surface, p, out, c, code, c', text, hsurface, hprogram, hcompile, -, -, hmap, htext, -,
    hdescribes⟩ := sourceMap_describes_file rfl rfl hapart hrun
  cases hsurface
  obtain rfl := Option.some.inj (hfile.symm.trans htext)
  rw [hprogram] at hprograms
  simp only [hcompile, Except.toOption, Option.all_some, Bool.and_eq_true, decide_eq_true_eq]
    at hprograms
  exact ⟨hrun, hfile, out, code, hprograms.2, hmap, hdescribes fun _ => hprograms.1⟩

/-- A directory with a workspace that has a raw expression with blanks at the end of a line. -/
def rawExpressionDirectory : Directory :=
  .ofFiles [("main.json",
    "\x7b\"blocks\":[\x7b\"id\":\"a\",\"type\":\"typescript_statement\",\"next\":\"b\"\x7d," ++
    "\x7b\"id\":\"b\",\"type\":\"typescript_expression\"," ++
    "\"fields\":[\x7b\"name\":\"EXPRESSION\",\"value\":\"1   \\n+ 2\"\x7d]\x7d]\x7d")]

/-- Blanks in a raw expression are taken away from the file, but not from the map, whose entry goes
past the end of the file. -/
theorem sourceMap_misses_raw_expression :
    (run tidyWithMap rawExpressionDirectory).error = none ∧
      (run tidyWithMap rawExpressionDirectory).directory.read? "main.ts" = some "1\n+ 2;\n" ∧
      ∃ out : Output, out.source = "1   \n+ 2;\n" ∧ out.map = [⟨0, 9, "b"⟩] ∧
        (run tidyWithMap rawExpressionDirectory).directory.read? "main.map" =
          some (out.mapJson.pretty 0) ∧
        ∀ e ∈ out.map, ∀ s, ¬ e.Marks "1\n+ 2;\n" s := by
  have hfacts : (run tidyWithMap rawExpressionDirectory).error = none ∧
      (run tidyWithMap rawExpressionDirectory).directory.read? "main.ts" = some "1\n+ 2;\n" ∧
      (tidyWithMap.readProgram rawExpressionDirectory.read? {}).toOption.all (fun p =>
        (p.compile tidyWithMap.compileOptions).toOption.all fun out =>
          decide (out.source = "1   \n+ 2;\n" ∧ out.map = [⟨0, 9, "b"⟩])) = true := by
    decide +kernel
  obtain ⟨hrun, hfile, hprograms⟩ := hfacts
  obtain ⟨surface, p, out, hsurface, hprogram, hcompile, hmap, -⟩ := read_run rfl rfl hrun
  cases hsurface
  rw [hprogram] at hprograms
  simp only [hcompile, Except.toOption, Option.all_some, decide_eq_true_eq] at hprograms
  refine ⟨hrun, hfile, out, hprograms.1, hprograms.2, hmap, fun e he s hmarks => ?_⟩
  rw [hprograms.2, List.mem_singleton] at he
  have hstop := hmarks.stop_valid.le_utf8ByteSize
  rw [he] at hstop
  revert hstop
  decide

end BlockProgram.CommandLine
