import BlockProgram.Proofs.Text.Inline
import Mathlib.Data.List.Chain
import Mathlib.Data.List.DropRight

/-!
# Tidy text is a normal form

Tidying leaves lines without blanks at their ends, and of blank lines only single ones between two
lines that are not blank (`AreTidy`). A text of such lines can be read to the end without anything
being taken away (`scan_unlines`), so it is left alone. What is said of the lines is then said of
the text itself, wherever it is cut at a line end (`IsTidy`).
-/

namespace BlockProgram.Text

open List

variable {l : List Char} {ls : List (List Char)}

/-! ## Trimmed lines -/

theorem trimRight_eq (l : List Char) : trimRight l = l.rdropWhile isBlank :=
  rfl

def EndsUnblank (l : List Char) : Prop :=
  ∀ c ∈ l.getLast?, isBlank c = false

theorem endsUnblank_trimRight (l : List Char) : EndsUnblank (trimRight l) := by
  intro c hc
  obtain ⟨hne, rfl⟩ := mem_getLast?_eq_getLast hc
  exact Bool.eq_false_iff.mpr (rdropWhile_last_not isBlank l hne)

/-- Of the lines that do not end in a blank, only the empty one has nothing but blanks. -/
theorem EndsUnblank.all_isBlank (h : EndsUnblank l) : l.all isBlank = l.isEmpty := by
  rcases eq_nil_or_concat' l with rfl | ⟨r, c, rfl⟩
  · rfl
  · simp [h c (by simp)]

/-! ## Collapsing -/

def NotBothEmpty (k l : List Char) : Prop :=
  ¬ (k = [] ∧ l = [])

theorem collapse_sublist (afterEmpty : Bool) (ls : List (List Char)) :
    (collapse afterEmpty ls).Sublist ls := by
  induction ls generalizing afterEmpty with
  | nil => exact .slnil
  | cons l ls ih =>
    unfold collapse
    split
    · split
      · exact (ih true).cons l
      · exact (ih true).cons_cons l
    · exact (ih false).cons_cons l

theorem isChain_collapse (afterEmpty : Bool) (ls : List (List Char)) :
    (collapse afterEmpty ls).IsChain NotBothEmpty ∧
      (afterEmpty = true → (collapse afterEmpty ls).head? ≠ some []) := by
  induction ls generalizing afterEmpty with
  | nil => simp [collapse]
  | cons l ls ih =>
    unfold collapse
    by_cases hl : l = []
    · subst hl
      rw [if_pos isEmpty_nil]
      cases afterEmpty with
      | true => exact ih true
      | false =>
        obtain ⟨hchain, hhead⟩ := ih true
        refine ⟨isChain_cons.mpr ⟨?_, hchain⟩, fun h => by cases h⟩
        rintro k hk ⟨_, rfl⟩
        exact hhead rfl hk
    · rw [if_neg (by simpa using hl)]
      refine ⟨isChain_cons.mpr ⟨?_, (ih false).1⟩, fun _ => by simpa using hl⟩
      rintro k _ ⟨hnil, _⟩
      exact hl hnil

/-! ## The lines of tidy text -/

/-- Lines as tidying leaves them. -/
structure AreTidy (ls : List (List Char)) : Prop where
  inline : ∀ l ∈ ls, ∀ c ∈ l, c ≠ '\n'
  trimmed : ∀ l ∈ ls, EndsUnblank l
  first : ls.head? ≠ some []
  last : ls.getLast? ≠ some []
  apart : ls.IsChain NotBothEmpty

theorem areTidy_tidyLines (cs : List Char) : AreTidy (tidyLines cs) := by
  have hlead : tidyLines cs <+: collapse true ((lines cs).map trimRight) :=
    rdropWhile_prefix isEmpty _
  have hline : ∀ l ∈ tidyLines cs, ∃ k ∈ lines cs, trimRight k = l := by
    intro l hl
    exact mem_map.mp ((collapse_sublist _ _).subset (hlead.subset hl))
  obtain ⟨hchain, hhead⟩ := isChain_collapse true ((lines cs).map trimRight)
  constructor
  · intro l hl c hc
    obtain ⟨k, hk, rfl⟩ := hline l hl
    have htrimmed : trimRight k <+: k := rdropWhile_prefix isBlank k
    exact ne_newline_of_mem_lines hk c (htrimmed.subset hc)
  · intro l hl
    obtain ⟨k, _, rfl⟩ := hline l hl
    exact endsUnblank_trimRight k
  · intro hnil
    obtain ⟨r, hr⟩ := head?_eq_some_iff.mp hnil
    obtain ⟨rest, hrest⟩ := hlead
    rw [hr] at hrest
    exact hhead rfl (by rw [← hrest]; rfl)
  · intro hnil
    obtain ⟨hne, heq⟩ := mem_getLast?_eq_getLast (Option.mem_def.mpr hnil)
    exact rdropWhile_last_not isEmpty _ hne (List.isEmpty_iff.mpr heq.symm)
  · exact hchain.prefix hlead

/-- Text of such lines can be read to the end. An empty line is read only behind the end of a line
that is not, and something follows it. -/
theorem scan_unlines {s : Before} (hinline : ∀ l ∈ ls, ∀ c ∈ l, c ≠ '\n')
    (htrimmed : ∀ l ∈ ls, EndsUnblank l) (hlast : ls.getLast? ≠ some [])
    (hapart : ls.IsChain NotBothEmpty) (hs : s = .lineEnd ∨ ∃ l r, ls = l :: r ∧ l ≠ []) :
    scan s (unlines ls) = some .lineEnd := by
  induction ls generalizing s with
  | nil =>
    rcases hs with rfl | ⟨_, _, heq, _⟩
    · rfl
    · cases heq
  | cons l ls ih =>
    obtain ⟨hl, hinline⟩ := forall_mem_cons.mp hinline
    obtain ⟨hend, htrimmed⟩ := forall_mem_cons.mp htrimmed
    obtain ⟨hnext, hapart⟩ := isChain_cons.mp hapart
    have hrest : ls.getLast? ≠ some [] := by
      cases ls with
      | nil => simp
      | cons k ls => rwa [getLast?_cons_cons] at hlast
    have hls := fun s => ih (s := s) hinline htrimmed hrest hapart
    have htext : unlines (l :: ls) = l ++ '\n' :: unlines ls := by simp [unlines]
    rw [htext, scan_append, scan_inline hl, Option.bind_some, scan_cons]
    rcases eq_nil_or_concat' l with rfl | ⟨r, c, rfl⟩
    · rcases hs with rfl | ⟨_, _, heq, hne⟩
      · refine hls .blank (.inr ?_)
        cases ls with
        | nil => exact absurd rfl hlast
        | cons k ls => exact ⟨k, ls, rfl, fun hk => hnext k rfl ⟨rfl, hk⟩⟩
      · cases heq
        exact absurd rfl hne
    · rw [getLast?_concat, Option.map_some, hend c (by simp)]
      exact hls .lineEnd (.inl rfl)

/-- Tidying leaves a text of tidy lines alone. -/
theorem AreTidy.tidy_eq_self {t : String} (h : AreTidy ls) (ht : t.toList = unlines ls) :
    tidy t = t := by
  cases ls with
  | nil =>
    rw [show t = "" from String.toList_inj.mp ht]
    rfl
  | cons l r =>
    refine Text.tidy_eq_self ?_
    rw [ht]
    refine scan_unlines h.inline h.trimmed h.last h.apart (.inr ⟨l, r, rfl, ?_⟩)
    rintro rfl
    exact h.first rfl

/-! ## Tidy text -/

/-- What stands between the line ends of a text, before the first and behind the last of them. -/
def rows (t : String) : List (List Char) :=
  t.toList.splitOn '\n'

/-- No blanks stand before a line end or at the end, the text does not begin with a blank line, no
two blank lines follow each other, and text that is not empty ends with exactly one line end. -/
structure IsTidy (t : String) : Prop where
  trimmed : ∀ l ∈ rows t, EndsUnblank l
  first : t ≠ "" → ∀ l ∈ (rows t).head?, ¬ l.all isBlank
  apart : (rows t).IsChain fun k l => ¬ (k.all isBlank ∧ l.all isBlank)
  ends : t = "" ∨ ∃ r c, c ≠ '\n' ∧ t.toList = r ++ [c, '\n']

theorem splitOn_unlines (h : ∀ l ∈ ls, ∀ c ∈ l, c ≠ '\n') :
    (unlines ls).splitOn '\n' = ls ++ [[]] := by
  induction ls with
  | nil => rfl
  | cons l ls ih =>
    obtain ⟨hl, hls⟩ := forall_mem_cons.mp h
    have htext : unlines (l :: ls) = l ++ '\n' :: unlines ls := by simp [unlines]
    rw [htext, splitOn_eq_splitOnP, splitOnP_append_cons_of_forall_mem (by simpa using hl) _ rfl,
      ← splitOn_eq_splitOnP, ih hls]
    rfl

theorem AreTidy.isTidy {t : String} (h : AreTidy ls) (ht : t.toList = unlines ls) : IsTidy t := by
  have hrows : rows t = ls ++ [[]] := by
    unfold rows
    rw [ht, splitOn_unlines h.inline]
  have hblank : ∀ l ∈ ls, l.all isBlank = true → l = [] := by
    intro l hl hall
    rw [(h.trimmed l hl).all_isBlank] at hall
    exact List.isEmpty_iff.mp hall
  constructor
  · rw [hrows]
    intro l hl
    rcases mem_append.mp hl with hl | hl
    · exact h.trimmed l hl
    · rw [mem_singleton.mp hl]
      exact fun c hc => by cases hc
  · intro hne l hl hall
    rw [hrows] at hl
    cases ls with
    | nil => exact hne (String.toList_inj.mp ht)
    | cons k ks =>
      cases hl
      exact h.first (by rw [hblank _ (.head _) hall]; rfl)
  · rw [hrows, isChain_append]
    refine ⟨?_, isChain_singleton _, ?_⟩
    · refine h.apart.imp_of_mem_imp ?_
      rintro k l hk hl hkl ⟨hkall, hlall⟩
      exact hkl ⟨hblank k hk hkall, hblank l hl hlall⟩
    · rintro l hl _ _ ⟨hall, _⟩
      have hlast := hl
      rw [hblank l (mem_of_getLast? hl) hall] at hlast
      exact h.last hlast
  · rcases eq_nil_or_concat' ls with rfl | ⟨init, l, rfl⟩
    · exact .inl (String.toList_inj.mp ht)
    · rcases eq_nil_or_concat' l with rfl | ⟨r, c, rfl⟩
      · exact absurd (by simp) h.last
      · refine .inr ⟨unlines init ++ r, c, h.inline (r ++ [c]) (by simp) c (by simp), ?_⟩
        rw [ht]
        simp [unlines]

/-! ## What is kept -/

theorem filter_collapse (afterEmpty : Bool) (ls : List (List Char)) :
    (collapse afterEmpty ls).filter (!·.isEmpty) = ls.filter (!·.isEmpty) := by
  induction ls generalizing afterEmpty with
  | nil => rfl
  | cons l ls ih =>
    unfold collapse
    by_cases hl : l = []
    · subst hl
      cases afterEmpty <;> simp [ih]
    · simp [hl, ih]

theorem filter_tidyLines (cs : List Char) : (tidyLines cs).filter (!·.isEmpty) =
    ((lines cs).map trimRight).filter (!·.isEmpty) := by
  have hparts := rdropWhile_append_rtakeWhile (p := isEmpty)
    (l := collapse true ((lines cs).map trimRight))
  have hnil : ((collapse true ((lines cs).map trimRight)).rtakeWhile isEmpty).filter
      (!·.isEmpty) = [] := by
    rw [filter_eq_nil_iff]
    intro l hl
    simp [mem_rtakeWhile_imp hl]
  rw [← filter_collapse true ((lines cs).map trimRight), ← hparts, filter_append, hnil, append_nil]
  rfl

theorem trimRight_dropReturn (acc : List Char) :
    trimRight (dropReturn acc).reverse = trimRight acc.reverse := by
  unfold dropReturn
  split
  · rw [trimRight_eq, trimRight_eq, reverse_cons, rdropWhile_concat_pos _ _ _ (by decide)]
  · rfl

theorem modifyHead_nil_append (ls : List (List Char)) : ls.modifyHead ([].reverse ++ ·) = ls := by
  cases ls <;> rfl

/-- Up to what is trimmed off and empty lines, text is cut at its line ends and nowhere else. The
induction is on the text behind what has been read of the current line. -/
theorem filter_linesFrom (acc cs : List Char) :
    ((linesFrom acc cs).map trimRight).filter (!·.isEmpty) =
      (((cs.splitOn '\n').modifyHead (acc.reverse ++ ·)).map trimRight).filter (!·.isEmpty) := by
  induction cs generalizing acc with
  | nil =>
    cases acc with
    | nil => rfl
    | cons c acc => simp [linesFrom]
  | cons c r ih =>
    rw [splitOn_eq_splitOnP, splitOnP_cons_eq_if_modifyHead, ← splitOn_eq_splitOnP]
    unfold linesFrom
    by_cases hc : c = '\n'
    · rw [if_pos hc, if_pos (beq_iff_eq.mpr hc), map_cons, trimRight_dropReturn]
      have hrest := ih []
      rw [modifyHead_nil_append] at hrest
      simp [filter_cons, hrest]
    · rw [if_neg hc, if_neg (by simpa using hc), ih, modifyHead_modifyHead]
      congr 3
      funext l
      simp

theorem filter_map_trimRight (ls : List (List Char)) : (ls.map trimRight).filter (!·.isEmpty) =
    (ls.filter fun l => !l.all isBlank).map trimRight := by
  rw [filter_map]
  congr 2
  funext l
  show (!(trimRight l).isEmpty) = !l.all isBlank
  rw [Bool.not_inj_iff, Bool.eq_iff_iff, List.isEmpty_iff, trimRight_eq, rdropWhile_eq_nil_iff,
    all_eq_true]

/-- Tidying gives a tidy text, which it leaves alone the next time, and keeps the lines that are not
blank, all of them and in their order, without the blanks at their ends. -/
theorem tidy_normalForm (s : String) :
    IsTidy (tidy s) ∧ tidy (tidy s) = tidy s ∧
    (rows (tidy s)).filter (fun l => !l.all isBlank) =
      ((rows s).filter fun l => !l.all isBlank).map trimRight := by
  have hlines := areTidy_tidyLines s.toList
  have htext : (tidy s).toList = unlines (tidyLines s.toList) := by simp [tidy]
  refine ⟨hlines.isTidy htext, hlines.tidy_eq_self htext, ?_⟩
  have hkept : (tidyLines s.toList).filter (fun l => !l.all isBlank) =
      (tidyLines s.toList).filter (!·.isEmpty) :=
    filter_congr fun l hl => by rw [(hlines.trimmed l hl).all_isBlank]
  have hcut := filter_linesFrom [] s.toList
  rw [modifyHead_nil_append] at hcut
  unfold rows
  rw [htext, splitOn_unlines hlines.inline, filter_append, hkept, filter_tidyLines,
    ← filter_map_trimRight]
  simpa [lines] using hcut

example : tidy "\nlet x = 0;   \n\n\n\nx = 1;\n\n" = "let x = 0;\n\nx = 1;\n" := by
  decide

end BlockProgram.Text
