import BlockProgram.CommandLine.Directory
import BlockProgram.Proofs.Table

/-!
# What a run leaves in the files

A file is written only into a directory that exists. So writing makes no directory, and every path
names the same place before and after (`locate_write`). Reading a file after a run that succeeds
gives what was written to its place last, and what it held before if nothing was (`read_steps`).
-/

namespace BlockProgram.CommandLine

open List

namespace Directory

variable {d d' : Directory} {path text : String}

/-! ## Places -/

theorem hasDirectory_iff {q : Path} :
    d.hasDirectory q = true ↔ q = [] ∨ ∃ g ∈ d.files.keys, q <+: g ∧ q ≠ g := by
  simp [hasDirectory]

/-- All directories that the place is in exist. -/
def Reaches (d : Directory) (f : Path) : Prop :=
  ∀ q, q <+: f → q ≠ f → d.hasDirectory q = true

theorem reaches_nil (d : Directory) : d.Reaches [] :=
  fun _ hq hne => absurd (prefix_nil.mp hq) hne

theorem Reaches.snoc {f : Path} (h : d.Reaches f) (hf : d.hasDirectory f = true) (piece : String) :
    d.Reaches (f ++ [piece]) := by
  intro q hq hne
  rcases prefix_concat_iff.mp hq with rfl | hq
  · exact absurd rfl hne
  · by_cases hqf : q = f
    · rw [hqf]
      exact hf
    · exact h q hq hqf

theorem Reaches.dropLast {f : Path} (h : d.Reaches f) : d.Reaches f.dropLast := by
  intro q hq hne
  have hlead : f.dropLast <+: f := dropLast_prefix f
  refine h q (hq.trans hlead) ?_
  rintro rfl
  have hlength := hq.length_le
  rw [length_dropLast] at hlength
  have hnil : q = [] := length_eq_zero_iff.mp (by omega)
  rw [hnil] at hne
  exact hne rfl

theorem reaches_follow {here f : Path} {pieces : List String} (hhere : d.Reaches here)
    (h : d.follow here pieces = some f) : d.Reaches f := by
  induction pieces generalizing here with
  | nil =>
    cases h
    exact hhere
  | cons piece r ih =>
    unfold follow at h
    split_ifs at h with hdir hstay hup
    · exact ih hhere h
    · exact ih hhere.dropLast h
    · exact ih (hhere.snoc (by simpa using hdir) piece) h

theorem reaches_locate {f : Path} (h : d.locate path = some f) : d.Reaches f := by
  unfold locate at h
  split at h
  · cases h
  · exact reaches_follow (reaches_nil d) h

/-! ## Writing -/

variable (h : d.write? path text = some d')
include h

theorem exists_of_write : ∃ f, d.locate path = some f ∧ d' = ⟨d.files.insert f text⟩ := by
  unfold write? at h
  split at h
  · cases h
  · next f hf =>
    split at h
    · cases h
    · exact ⟨f, hf, (Option.some.inj h).symm⟩

/-- Writing a file makes no directory and takes none away. -/
theorem hasDirectory_write (q : Path) : d'.hasDirectory q = d.hasDirectory q := by
  obtain ⟨f, hf, rfl⟩ := exists_of_write h
  have hreaches := reaches_locate hf
  have hkeys := fun g => Table.mem_insertEntry_keys f text d.files.entries g
  -- a directory that only the new file is in is one that its place is reached through
  have hnew : ∀ g ∈ (d.files.insert f text).keys, q <+: g → q ≠ g → d.hasDirectory q = true := by
    intro g hg hq hne
    rcases (hkeys g).mp hg with rfl | hg
    · exact hreaches q hq hne
    · exact hasDirectory_iff.mpr (.inr ⟨g, hg, hq, hne⟩)
  rw [Bool.eq_iff_iff, hasDirectory_iff]
  constructor
  · rintro (rfl | ⟨g, hg, hq, hne⟩)
    · rfl
    · exact hnew g hg hq hne
  · intro hq
    rcases hasDirectory_iff.mp hq with hnil | ⟨g, hg, hprefix, hne⟩
    · exact .inl hnil
    · exact .inr ⟨g, (hkeys g).mpr (.inr hg), hprefix, hne⟩

theorem follow_write (here : Path) (pieces : List String) :
    d'.follow here pieces = d.follow here pieces := by
  induction pieces generalizing here with
  | nil => rfl
  | cons piece r ih =>
    unfold follow
    rw [hasDirectory_write h, ih, ih, ih]

/-- Every path names the same place before and after a file is written. -/
theorem locate_write (other : String) : d'.locate other = d.locate other := by
  unfold locate
  rw [follow_write h]

/-- A file that was written holds what was written, and all others hold what they held. -/
theorem read_write (other : String) :
    d'.read? other = if d.locate path = d.locate other then some text else d.read? other := by
  unfold read?
  rw [locate_write h]
  obtain ⟨f, hf, rfl⟩ := exists_of_write h
  rw [hf]
  cases d.locate other with
  | none => rfl
  | some g =>
    simp only [Option.bind_some, Table.get?_insert, Option.some.injEq]
    by_cases hfg : g = f
    · rw [if_pos hfg, if_pos hfg.symm]
    · rw [if_neg hfg, if_neg (Ne.symm hfg)]

end Directory

/-! ## Runs -/

/-- The text that steps write last to the place of a path, if they write to it. -/
def lastWritten (d : Directory) (path : String) : List Action → Option String
  | [] => none
  | .write target text :: r =>
    (lastWritten d path r).or (if d.locate target = d.locate path then some text else none)
  | .report _ :: r => lastWritten d path r
  | .print _ :: r => lastWritten d path r

theorem lastWritten_append (d : Directory) (path : String) (l r : List Action) :
    lastWritten d path (l ++ r) = (lastWritten d path r).or (lastWritten d path l) := by
  induction l with
  | nil => exact (Option.or_none).symm
  | cons a l ih =>
    cases a with
    | report line => exact ih
    | print text => exact ih
    | write target text =>
      show (lastWritten d path (l ++ r)).or _ = _
      rw [ih, Option.or_assoc]
      rfl

/-- Lines for the user write nothing. -/
theorem lastWritten_reports (d : Directory) (path : String) {l : List Action}
    (h : ∀ a ∈ l, ∃ line, a = .report line) : lastWritten d path l = none := by
  induction l with
  | nil => rfl
  | cons a l ih =>
    obtain ⟨⟨line, rfl⟩, hl⟩ := forall_mem_cons.mp h
    exact ih hl

/-- What is written last depends on places alone. -/
theorem lastWritten_congr {d d' : Directory} (h : ∀ path, d'.locate path = d.locate path)
    (path : String) (actions : List Action) :
    lastWritten d' path actions = lastWritten d path actions := by
  induction actions with
  | nil => rfl
  | cons a r ih =>
    cases a with
    | report line => exact ih
    | print text => exact ih
    | write target text =>
      unfold lastWritten
      rw [ih, h target, h path]

/-- One step changes the file it writes, and moves no place. -/
theorem Run.read_step {r r' : Run} {a : Action} (h : r.step a = .ok r') (path : String) :
    r'.directory.locate path = r.directory.locate path ∧
      r'.directory.read? path = (lastWritten r.directory path [a]).or (r.directory.read? path) := by
  cases a with
  | report line =>
    cases h
    exact ⟨rfl, rfl⟩
  | print text =>
    cases h
    exact ⟨rfl, rfl⟩
  | write target text =>
    unfold step at h
    cases hwrite : r.directory.write? target text with
    | none =>
      simp only [hwrite] at h
      cases h
    | some d =>
      simp only [hwrite] at h
      cases h
      refine ⟨Directory.locate_write hwrite path, ?_⟩
      rw [Directory.read_write hwrite]
      unfold lastWritten
      split <;> rfl

theorem Run.step_of_steps {r : Run} {final : Option Error} {a : Action} {rest : List Action}
    (h : (r.steps final (a :: rest)).error = none) :
    ∃ r', r.step a = .ok r' ∧ r.steps final (a :: rest) = r'.steps final rest := by
  rw [steps] at h ⊢
  cases hstep : r.step a with
  | error e =>
    rw [hstep] at h
    cases h
  | ok r' => exact ⟨r', rfl, rfl⟩

/-- After steps that could all be done, a file holds what was written to it last. -/
theorem Run.read_steps {r : Run} {final : Option Error} {actions : List Action}
    (h : (r.steps final actions).error = none) (path : String) :
    (r.steps final actions).directory.read? path =
      (lastWritten r.directory path actions).or (r.directory.read? path) := by
  induction actions generalizing r with
  | nil => rfl
  | cons a rest ih =>
    obtain ⟨r', hstep, hsteps⟩ := step_of_steps h
    rw [hsteps] at h ⊢
    have hlocate := fun other => (read_step hstep other).1
    have happend := lastWritten_append r.directory path [a] rest
    rw [singleton_append] at happend
    rw [ih h, lastWritten_congr hlocate, (read_step hstep path).2, happend, Option.or_assoc]

theorem Run.final_of_steps {r : Run} {final : Option Error} {actions : List Action}
    (h : (r.steps final actions).error = none) : final = none := by
  induction actions generalizing r with
  | nil => exact h
  | cons a rest ih =>
    obtain ⟨r', _, hsteps⟩ := step_of_steps h
    rw [hsteps] at h
    exact ih h

end BlockProgram.CommandLine
