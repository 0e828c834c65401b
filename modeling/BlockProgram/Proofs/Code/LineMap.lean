import BlockProgram.Code.LineMap

/-!
# The line map counts line breaks

The line of an offset is the number of line breaks in front of it (`newlinesBefore`). It is found by
halving a table of line starts. The table increases, so the search ends at the offset or right
behind all starts that are smaller, and either way the line is one less than the number of starts
that the offset has reached (`lineOf_eq_countP`). The starts behind the first one are those of the
line breaks, as bytes of the text (`countP_startsAfter`).
-/

namespace BlockProgram.LineMap

open List

/-- How many line breaks there are among the first `offset` bytes of a text. -/
def newlinesBefore (source : String) (offset : Nat) : Nat :=
  (source.toByteArray.data.toList.take offset).count 10

/-! ## The search -/

section Search

variable {a : Array Nat} {x : Nat}

def BelowUntil (a : Array Nat) (x i : Nat) : Prop :=
  ∀ j y, j < i → a[j]? = some y → y < x

def AboveFrom (a : Array Nat) (x i : Nat) : Prop :=
  ∀ j y, i ≤ j → a[j]? = some y → x < y

/-- What is known when a search ends. -/
def SearchResult.Settles (a : Array Nat) (x : Nat) : SearchResult → Prop
  | .found i => a[i]? = some x
  | .missing i => i ≤ a.size ∧ BelowUntil a x i ∧ AboveFrom a x i

theorem lt_of_index_lt (ha : a.toList.Pairwise (· < ·)) {i j y z : Nat} (hij : i < j)
    (hy : a[i]? = some y) (hz : a[j]? = some z) : y < z := by
  obtain ⟨hi, rfl⟩ := Array.getElem?_eq_some_iff.mp hy
  obtain ⟨hj, rfl⟩ := Array.getElem?_eq_some_iff.mp hz
  exact pairwise_iff_getElem.mp ha i j hi hj hij

/-- Each halving keeps smaller numbers in front of the range and larger ones behind it. -/
theorem settles_searchFrom (ha : a.toList.Pairwise (· < ·)) (fuel : Nat) :
    ∀ lo hi, hi - lo ≤ fuel → lo ≤ hi → hi ≤ a.size → BelowUntil a x lo → AboveFrom a x hi →
      (searchFrom a x fuel lo hi).Settles a x := by
  induction fuel with
  | zero =>
    intro lo hi hfuel hle hsize hbelow habove
    obtain rfl : lo = hi := by omega
    exact ⟨hsize, hbelow, habove⟩
  | succ fuel ih =>
    intro lo hi hfuel hle hsize hbelow habove
    unfold searchFrom
    split
    · next hempty =>
      obtain rfl : lo = hi := by omega
      exact ⟨hsize, hbelow, habove⟩
    · next hrange =>
      dsimp only
      have hmid : (lo + hi) / 2 < a.size := by omega
      have hget : a[(lo + hi) / 2]? = some a[(lo + hi) / 2] := Array.getElem?_eq_getElem hmid
      rw [hget, Option.getD_some]
      split
      · next heq => exact hget.trans (congrArg some heq)
      · next hne =>
        split
        · next hlt =>
          refine ih _ _ (by omega) (by omega) hsize (fun j y hj hy => ?_) habove
          rcases Nat.lt_or_eq_of_le (Nat.le_of_lt_succ hj) with hj | rfl
          · exact Nat.lt_trans (lt_of_index_lt ha hj hy hget) hlt
          · rw [hget] at hy
            cases hy
            exact hlt
        · next hge =>
          refine ih _ _ (by omega) (by omega) (Nat.le_of_lt hmid) hbelow fun j y hj hy => ?_
          have hgt : x < a[(lo + hi) / 2] := by omega
          rcases Nat.lt_or_eq_of_le hj with hj | rfl
          · exact Nat.lt_trans hgt (lt_of_index_lt ha hj hget hy)
          · rw [hget] at hy
            cases hy
            exact hgt

theorem countP_eq_of_split {i : Nat} (hi : i ≤ a.size)
    (hbelow : ∀ j y, j < i → a[j]? = some y → y ≤ x) (habove : AboveFrom a x i) :
    a.toList.countP (· ≤ x) = i := by
  rw [← take_append_drop i a.toList, countP_append]
  have htake : (a.toList.take i).countP (· ≤ x) = i := by
    rw [countP_eq_length.mpr, length_take, Array.length_toList, Nat.min_eq_left hi]
    intro y hy
    obtain ⟨j, hj, rfl⟩ := mem_take_iff_getElem.mp hy
    exact decide_eq_true (hbelow j _ (by omega) (by simp))
  have hdrop : (a.toList.drop i).countP (· ≤ x) = 0 := by
    rw [countP_eq_zero]
    intro y hy
    obtain ⟨j, hj, rfl⟩ := mem_drop_iff_getElem.mp hy
    rw [Array.length_toList] at hj
    have hlt : x < a[i + j] :=
      habove (i + j) _ (Nat.le_add_right _ _) (Array.getElem?_eq_getElem (by omega))
    simpa using hlt
  rw [htake, hdrop, Nat.add_zero]

/-- The line of an offset is one less than the number of lines that start no later. -/
theorem lineOf_eq_countP (ha : a.toList.Pairwise (· < ·)) :
    lineOf a x = a.toList.countP (· ≤ x) - 1 := by
  have hsettles := settles_searchFrom (x := x) ha a.size 0 a.size (Nat.le_refl _) (Nat.zero_le _)
    (Nat.le_refl _) (fun j _ hj => absurd hj (Nat.not_lt_zero j)) fun j y hj hy => by
      rw [Array.getElem?_eq_none hj] at hy
      cases hy
  unfold lineOf search
  cases hsearch : searchFrom a x a.size 0 a.size with
  | found i =>
    rw [hsearch] at hsettles
    have hfound : a[i]? = some x := hsettles
    obtain ⟨hi, _⟩ := Array.getElem?_eq_some_iff.mp hfound
    -- the line that starts right there counts as well
    rw [countP_eq_of_split (i := i + 1) hi, Nat.add_sub_cancel]
    · intro j y hj hy
      rcases Nat.lt_or_eq_of_le (Nat.le_of_lt_succ hj) with hj | rfl
      · exact Nat.le_of_lt (lt_of_index_lt ha hj hy hfound)
      · rw [hfound] at hy
        cases hy
        exact Nat.le_refl _
    · exact fun j y hj hy => lt_of_index_lt ha hj hfound hy
  | missing i =>
    rw [hsearch] at hsettles
    obtain ⟨hi, hbelow, habove⟩ := hsettles
    rw [countP_eq_of_split hi (fun j y hj hy => Nat.le_of_lt (hbelow j y hj hy)) habove]

end Search

/-! ## The table of line starts -/

theorem lt_of_mem_startsAfter {start s : Nat} {cs : List Char} (h : s ∈ startsAfter start cs) :
    start < s := by
  induction cs generalizing start with
  | nil => cases h
  | cons c r ih =>
    have hsize : 0 < c.utf8Size := Char.utf8Size_pos c
    unfold startsAfter at h
    dsimp only at h
    split at h
    · rcases mem_cons.mp h with rfl | h
      · omega
      · have := ih h
        omega
    · have := ih h
      omega

theorem pairwise_startsAfter (start : Nat) (cs : List Char) :
    (startsAfter start cs).Pairwise (· < ·) := by
  induction cs generalizing start with
  | nil => exact .nil
  | cons c r ih =>
    unfold startsAfter
    dsimp only
    split
    · exact .cons (fun s hs => lt_of_mem_startsAfter hs) (ih _)
    · exact ih _

/-- Only a line break has the byte 10 in its encoding. -/
theorem count_utf8EncodeChar {c : Char} (hc : c ≠ '\n') :
    (String.utf8EncodeChar c).count 10 = 0 := by
  have hval : c.val.toNat ≠ 10 := fun h => hc (Char.ext (UInt32.toNat_inj.mp h))
  have hbyte : ∀ n : Nat, n < 256 → n ≠ 10 → UInt8.ofNat n ≠ 10 := by
    intro n hn hne h
    have := congrArg UInt8.toNat h
    rw [UInt8.toNat_ofNat_of_lt' hn] at this
    exact hne this
  rw [count_eq_zero]
  unfold String.utf8EncodeChar
  dsimp only
  intro h
  split at h
  · simp only [mem_singleton] at h
    exact hbyte _ (by omega) hval h.symm
  · split at h
    · simp only [mem_cons, not_mem_nil, or_false] at h
      rcases h with h | h <;> exact hbyte _ (by omega) (by omega) h.symm
    · split at h
      · simp only [mem_cons, not_mem_nil, or_false] at h
        rcases h with h | h | h <;> exact hbyte _ (by omega) (by omega) h.symm
      · simp only [mem_cons, not_mem_nil, or_false] at h
        rcases h with h | h | h | h <;> exact hbyte _ (by omega) (by omega) h.symm

/-- As many lines start behind the beginning, up to an offset, as there are line breaks in front of
the offset. -/
theorem countP_startsAfter (cs : List Char) (start k : Nat) :
    (startsAfter start cs).countP (· ≤ start + k) =
      ((cs.flatMap String.utf8EncodeChar).take k).count 10 := by
  induction cs generalizing start k with
  | nil => simp [startsAfter]
  | cons c r ih =>
    have hlength := String.length_utf8EncodeChar c
    have hrest : (startsAfter (start + c.utf8Size) r).countP (· ≤ start + k) =
        ((r.flatMap String.utf8EncodeChar).take (k - c.utf8Size)).count 10 := by
      by_cases hk : c.utf8Size ≤ k
      · rw [← ih (start + c.utf8Size), Nat.add_assoc, Nat.add_sub_cancel' hk]
      · rw [Nat.sub_eq_zero_of_le (by omega), take_zero, count_nil, countP_eq_zero]
        intro s hs
        have := lt_of_mem_startsAfter hs
        simp only [decide_eq_true_eq]
        omega
    rw [flatMap_cons, take_append, count_append, hlength]
    unfold startsAfter
    dsimp only
    split
    · next hc =>
      subst hc
      rw [countP_cons, hrest, Nat.add_comm]
      congr 1
      have hone : '\n'.utf8Size = 1 := rfl
      have hbytes : String.utf8EncodeChar '\n' = [10] := by decide
      cases k with
      | zero => simp [hone]
      | succ k => simp [hone, hbytes]
    · next hc =>
      have hnone : ((String.utf8EncodeChar c).take k).count 10 = 0 :=
        Nat.le_zero.mp (Nat.le_trans ((take_sublist k _).count_le 10)
          (Nat.le_of_eq (count_utf8EncodeChar hc)))
      rw [hrest, hnone, Nat.zero_add]

theorem lineOf_lineStarts (source : String) (offset : Nat) :
    lineOf (lineStarts source).toArray offset = newlinesBefore source offset := by
  have hincreasing : (lineStarts source).Pairwise (· < ·) :=
    .cons (fun s hs => lt_of_mem_startsAfter hs) (pairwise_startsAfter 0 _)
  have hbytes : source.toByteArray.data.toList = source.toList.flatMap String.utf8EncodeChar := by
    rw [← String.utf8Encode_toList]
    simp [List.utf8Encode]
  have hcount := countP_startsAfter source.toList 0 offset
  rw [Nat.zero_add] at hcount
  rw [lineOf_eq_countP (by simpa using hincreasing), newlinesBefore, hbytes, ← hcount, lineStarts]
  simp

theorem newlinesBefore_mono (source : String) {m n : Nat} (h : m ≤ n) :
    newlinesBefore source m ≤ newlinesBefore source n :=
  (take_sublist_take_left h).count_le 10

/-- The last offset is counted in plain numbers as long as it is a word. -/
theorem lastOffset_eq (e : SourceEntry) : lastOffset e =
    if e.length = 0 then e.start
    else if e.start + e.length ≤ offsetLimit then max e.start (e.start + e.length - 1)
    else max e.start ((e.start + e.length - 1) % offsetLimit) := by
  unfold lastOffset
  split
  · next hzero =>
    rw [hzero]
    exact Nat.max_eq_left (Nat.mod_le _ _)
  · next hne =>
    have hsum : e.start + (e.length - 1) = e.start + e.length - 1 := by omega
    rw [hsum]
    split
    · next hfits => rw [Nat.mod_eq_of_lt (by omega)]
    · rfl

/-- Every entry keeps its place and its block. Its first line is the number of line breaks in front
of it, its last line the number of those in front of its last byte. If start and length together
exceed a word, the last byte is that of the wrapped sum, but never one in front of the start. -/
theorem ofEntries_counts_newlines (source : String) (entries : List SourceEntry) :
    ofEntries source entries = entries.map (fun e =>
      { first := newlinesBefore source e.start
        last := newlinesBefore source
          (if e.length = 0 then e.start
            else if e.start + e.length ≤ offsetLimit then max e.start (e.start + e.length - 1)
            else max e.start ((e.start + e.length - 1) % offsetLimit))
        id := e.id }) ∧
    ∀ l ∈ ofEntries source entries, l.first ≤ l.last := by
  have hlines : ofEntries source entries = entries.map fun e =>
      ⟨newlinesBefore source e.start, newlinesBefore source (lastOffset e), e.id⟩ := by
    simp only [ofEntries, lineOf_lineStarts]
  constructor
  · rw [hlines]
    refine map_congr_left fun e _ => ?_
    rw [lastOffset_eq]
  · rw [hlines]
    intro l hl
    obtain ⟨e, _, rfl⟩ := mem_map.mp hl
    exact newlinesBefore_mono source (Nat.le_max_left _ _)

end BlockProgram.LineMap
