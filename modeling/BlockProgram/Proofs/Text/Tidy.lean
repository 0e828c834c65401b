import BlockProgram.Proofs.Text.Identifier
import BlockProgram.Text.Tidy

/-!
# Text that is tidy

Whether tidying changes a text can be seen by reading it once from the left and keeping in mind what
stands right before (`Before`, `scan`). A text is flush when it can be read on from anywhere: no
line of it ends in blanks, it does not begin with a line end, and no two lines in a row are blank.
Flush texts make up flush texts, and one that ends with the end of a line that is not blank is tidy
(`tidy_eq_self`).
-/

namespace BlockProgram.Text

open List

variable {t s : String} {cs : List Char}

/-! ## Reading a text -/

/-- What stands right before a place in a text. -/
inductive Before where
  /-- A blank, the end of a blank line, or the start of the text. -/
  | blank
  /-- A character that is not blank. -/
  | solid
  /-- The end of a line that is not blank. -/
  | lineEnd
deriving DecidableEq

/-- Reads one character; none if tidying takes something away right here. -/
def Before.next (s : Before) (c : Char) : Option Before :=
  if c = '\n' then
    match s with
    | blank => none
    | solid => some lineEnd
    | lineEnd => some blank
  else if isBlank c then some blank
  else some solid

def scan (s : Before) (cs : List Char) : Option Before :=
  cs.foldlM Before.next s

theorem scan_cons (s : Before) (c : Char) (r : List Char) :
    scan s (c :: r) = (s.next c).bind (scan · r) :=
  rfl

theorem scan_append (s : Before) (cs ds : List Char) :
    scan s (cs ++ ds) = (scan s cs).bind (scan · ds) :=
  foldlM_append

/-- What can be read after a blank can be read after anything, and it then depends on the text alone
what stands at its end. -/
theorem scan_of_blank {s' : Before} (h : scan .blank cs = some s') (hne : cs ≠ [])
    (s : Before) : scan s cs = some s' := by
  cases cs with
  | nil => exact absurd rfl hne
  | cons c r =>
    rw [scan_cons] at h ⊢
    have hc : c ≠ '\n' := by
      rintro rfl
      cases h
    rw [← h]
    unfold Before.next
    rw [if_neg hc, if_neg hc]

/-! ## Flush texts -/

/-- Tidying takes nothing away from the text, wherever it stands. -/
def IsFlush (t : String) : Prop :=
  (scan .blank t.toList).isSome

instance decidableIsFlush (t : String) : Decidable (IsFlush t) :=
  inferInstanceAs (Decidable (_ = true))

/-- The text is flush and ends in a character that is not blank. -/
def EndsSolid (t : String) : Prop :=
  scan .blank t.toList = some .solid

instance decidableEndsSolid (t : String) : Decidable (EndsSolid t) :=
  inferInstanceAs (Decidable (_ = _))

theorem EndsSolid.isFlush (h : EndsSolid t) : IsFlush t :=
  Option.isSome_iff_exists.mpr ⟨_, h⟩

theorem EndsSolid.ne_nil (h : EndsSolid t) : t.toList ≠ [] := by
  intro hnil
  unfold EndsSolid at h
  rw [hnil] at h
  cases h

theorem IsFlush.exists_scan (h : IsFlush t) (s : Before) : ∃ s', scan s t.toList = some s' := by
  obtain ⟨s', hs'⟩ := Option.isSome_iff_exists.mp h
  by_cases hne : t.toList = []
  · rw [hne]
    exact ⟨s, rfl⟩
  · exact ⟨s', scan_of_blank hs' hne s⟩

theorem IsFlush.append (hs : IsFlush s) (ht : IsFlush t) : IsFlush (s ++ t) := by
  obtain ⟨s', hs'⟩ := hs.exists_scan .blank
  unfold IsFlush
  rw [String.toList_append, scan_append, hs']
  exact Option.isSome_iff_exists.mpr (ht.exists_scan s')

theorem IsFlush.between {l s r : String} (hl : IsFlush l) (hs : IsFlush s) (hr : IsFlush r) :
    IsFlush (l ++ s ++ r) :=
  (hl.append hs).append hr

theorem IsFlush.append_solid (hs : IsFlush s) (ht : EndsSolid t) : EndsSolid (s ++ t) := by
  obtain ⟨s', hs'⟩ := hs.exists_scan .blank
  unfold EndsSolid
  rw [String.toList_append, scan_append, hs']
  exact scan_of_blank ht ht.ne_nil s'

theorem IsFlush.left (h : IsFlush (s ++ t)) : IsFlush s := by
  unfold IsFlush at h ⊢
  rw [String.toList_append, scan_append] at h
  exact Option.isSome_of_isSome_bind h

def IsInline (t : String) : Prop :=
  ∀ c ∈ t.toList, c ≠ '\n'

instance decidableIsInline (t : String) : Decidable (IsInline t) :=
  List.decidableBAll (fun c => c ≠ '\n') t.toList

/-- What stands at the end of text on one line depends on its last character. -/
theorem scan_inline (h : ∀ c ∈ cs, c ≠ '\n') (s : Before) :
    scan s cs = some ((cs.getLast?.map fun c => if isBlank c then .blank else .solid).getD s) := by
  induction cs generalizing s with
  | nil => rfl
  | cons c r ih =>
    obtain ⟨hc, hr⟩ := forall_mem_cons.mp h
    have hnext : s.next c = some (if isBlank c then .blank else .solid) := by
      unfold Before.next
      rw [if_neg hc]
      split <;> rfl
    rw [scan_cons, hnext, Option.bind_some, ih hr]
    cases r with
    | nil => rfl
    | cons d r =>
      rw [getLast?_cons_cons]
      rfl

theorem IsInline.isFlush (h : IsInline t) : IsFlush t := by
  unfold IsFlush
  rw [scan_inline h]
  rfl

theorem IsInline.endsSolid (h : IsInline t) {c : Char}
    (hlast : t.toList.getLast? = some c) (hc : isBlank c = false) : EndsSolid t := by
  unfold EndsSolid
  rw [scan_inline h, hlast, Option.map_some, hc]
  rfl

theorem IsIdentifier.isInline (h : IsIdentifier t) : IsInline t := by
  rintro c hc rfl
  have hname := h.chars _ hc
  revert hname
  decide

/-! ## Tidying -/

/-- Nothing is trimmed off a line that does not end in a blank. -/
theorem trimRight_reverse {c : Char} (hc : isBlank c = false) (acc : List Char) :
    trimRight (c :: acc).reverse = (c :: acc).reverse := by
  unfold trimRight
  rw [reverse_reverse, dropWhile_cons_of_neg (by simp [hc])]

/-- The current line, read backwards so far, and whether an empty line or the start of the text is
right above it, as reading the text leaves them. -/
def Reached (acc : List Char) (afterEmpty : Bool) : Before → Prop
  | .blank => acc = [] → afterEmpty = true
  | .solid => ∃ c r, acc = c :: r ∧ isBlank c = false
  | .lineEnd => acc = [] ∧ afterEmpty = false

theorem reached_start : Reached [] true .blank :=
  fun _ => rfl

theorem reached_lineEnd : Reached [] false .lineEnd :=
  ⟨rfl, rfl⟩

theorem reached_next {c : Char} (hc : c ≠ '\n') (acc : List Char) (afterEmpty : Bool)
    {s s' : Before} (h : s.next c = some s') : Reached (c :: acc) afterEmpty s' := by
  unfold Before.next at h
  rw [if_neg hc] at h
  split at h
  · cases h
    exact fun hnil => by cases hnil
  · next hblank =>
    cases h
    exact ⟨c, acc, rfl, by simpa using hblank⟩

theorem getLast?_cons_ne_nil {l : List Char} {ls : List (List Char)} (hls : ls.getLast? ≠ some [])
    (hl : ls = [] → l ≠ []) : (l :: ls).getLast? ≠ some [] := by
  cases ls with
  | nil => simpa using hl rfl
  | cons k ls => rwa [getLast?_cons_cons]

/-- Tidying leaves the rest of a text alone that can be read to the end of a line. The induction
is on that rest; a line is finished at each `\n`. -/
theorem unlines_collapse {acc : List Char} {afterEmpty : Bool} {s : Before}
    (hs : Reached acc afterEmpty s) (h : scan s cs = some .lineEnd) :
    unlines (collapse afterEmpty ((linesFrom acc cs).map trimRight)) = acc.reverse ++ cs ∧
      (collapse afterEmpty ((linesFrom acc cs).map trimRight)).getLast? ≠ some [] := by
  induction cs generalizing acc afterEmpty s with
  | nil =>
    cases h
    obtain ⟨rfl, _⟩ := hs
    exact ⟨rfl, by simp [linesFrom, collapse]⟩
  | cons c r ih =>
    rw [scan_cons] at h
    obtain ⟨s', hs', hr⟩ := Option.bind_eq_some_iff.mp h
    by_cases hc : c = '\n'
    · subst hc
      rw [linesFrom, if_pos rfl, map_cons]
      cases s with
      | blank => cases hs'
      | solid =>
        cases hs'
        obtain ⟨d, acc, rfl, hd⟩ := hs
        obtain ⟨htext, hlast⟩ := ih reached_lineEnd hr
        have hreturn : dropReturn (d :: acc) = d :: acc := by
          unfold dropReturn
          split
          · next heq =>
            cases heq
            cases hd
          · rfl
        have hline : (d :: acc).reverse ≠ [] := by simp
        rw [hreturn, trimRight_reverse hd, collapse, if_neg (by simp)]
        refine ⟨?_, getLast?_cons_ne_nil hlast fun _ => hline⟩
        rw [unlines, flatMap_cons, ← unlines, htext]
        simp
      | lineEnd =>
        cases hs'
        obtain ⟨rfl, rfl⟩ := hs
        obtain ⟨htext, hlast⟩ := ih reached_start hr
        have hempty : trimRight (dropReturn []).reverse = [] := rfl
        rw [hempty, collapse, if_pos isEmpty_nil, if_neg Bool.false_ne_true]
        refine ⟨?_, getLast?_cons_ne_nil hlast fun hnil => ?_⟩
        · rw [unlines, flatMap_cons, ← unlines, htext]
          rfl
        · -- something follows, since the text does not end with a blank line
          rw [hnil] at htext
          rw [show r = [] from htext.symm] at hr
          cases hr
    · rw [linesFrom, if_neg hc]
      have hrest := ih (reached_next hc acc afterEmpty hs') hr
      rwa [reverse_cons, append_assoc] at hrest

/-- Flush text that ends with the end of a line that is not blank is tidy. -/
theorem tidy_eq_self (h : scan .blank t.toList = some .lineEnd) : tidy t = t := by
  obtain ⟨htext, hlast⟩ := unlines_collapse reached_start h
  unfold tidy tidyLines lines
  generalize collapse true ((linesFrom [] t.toList).map trimRight) = ls at htext hlast
  have hdrop : ls.reverse.dropWhile List.isEmpty = ls.reverse := by
    cases hls : ls.reverse with
    | nil => rfl
    | cons l r =>
      rw [getLast?_eq_head?_reverse, hls] at hlast
      exact dropWhile_cons_of_neg (by simpa using hlast)
  rw [hdrop, reverse_reverse, htext]
  simp

end BlockProgram.Text
