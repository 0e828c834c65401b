import BlockProgram.Compile.EnumDeclaration
import BlockProgram.Proofs.Number.Decimal
import BlockProgram.Proofs.Sorted

/-!
# Values of enum members

The lines of an enum give values to its members, one after another (`evaluate`): a member has the
value of its initializer, and without one it is one more than the member in front of it. An
initializer is an integer or `1 << k`, which is a shift of 32 bits.

The lines for members that a program adds have the values of these members, in order, unless the
enum is one of flags and a member is a power of two that does not fit in 32 bits with a sign
(`lines_evaluate_iff`).
-/

namespace BlockProgram.EnumMember

open List

/-! ## Evaluation -/

/-- `1 << k` on 32-bit integers with a sign; only the last five bits of `k` count. -/
def shiftedOne (k : Nat) : Int :=
  ((1 : BitVec 32) <<< (k % 32)).toInt

/-- What follows a lead that the text has. -/
def withoutLead? (lead cs : List Char) : Option (List Char) :=
  if lead.isPrefixOf cs then some (cs.drop lead.length) else none

/-- The value of an integer, which is the whole text. -/
def integerValue? (cs : List Char) : Option Int :=
  (Decimal.integer? (String.ofList cs)).map fun n => if n.1 then -(n.2 : Int) else n.2

/-- The value of the expression behind the equality sign. -/
def expressionValue? (cs : List Char) : Option Int :=
  match withoutLead? "1 << ".toList cs with
  | some k => (integerValue? k).map fun n => shiftedOne n.toNat
  | none => integerValue? cs

/-- The value of a member with an initializer; `previous` is the value of the member before it. -/
def initialValue? (previous : Option Int) (cs : List Char) : Option Int :=
  if cs = [] then some ((previous.map (· + 1)).getD 0)
  else (withoutLead? " = ".toList cs).bind expressionValue?

/-- The initializer in the line of a member: what stands between its name and the comma. -/
def initializer? (name line : String) : Option (List Char) :=
  (withoutLead? name.toList line.toList).bind fun rest =>
    if rest.getLast? = some ',' then some rest.dropLast else none

/-- The values of members, given by their names and lines. -/
def evaluate (previous : Option Int) : List (String × String) → Option (List Int)
  | [] => some []
  | (name, line) :: r => do
    let v ← (initializer? name line).bind (initialValue? previous)
    let vs ← evaluate (some v) r
    return v :: vs

/-! ## Reading lines -/

theorem withoutLead?_append (lead cs : List Char) : withoutLead? lead (lead ++ cs) = some cs := by
  have hprefix : lead.isPrefixOf (lead ++ cs) = true :=
    isPrefixOf_iff_prefix.mpr (prefix_append lead cs)
  rw [withoutLead?, if_pos hprefix, drop_left]

theorem initializer?_line (name s : String) :
    initializer? name (name ++ s ++ ",") = some s.toList := by
  have hline : (name ++ s ++ ",").toList = name.toList ++ (s.toList ++ [',']) := by
    simp [String.toList_append]
  rw [initializer?, hline, withoutLead?_append, Option.bind_some, if_pos getLast?_concat,
    dropLast_concat]

theorem integerValue?_toString (x : Int) : integerValue? (toString x).toList = some x := by
  rw [integerValue?, String.ofList_toList, Decimal.integer?_toString_int, Option.map_some]
  cases x with
  | ofNat n => rfl
  | negSucc n => rw [if_pos (decide_eq_true (Int.negSucc_lt_zero n))]; rfl

theorem ne_blank_of_mem_toString {x : Int} {c : Char} (h : c ∈ (toString x).toList) : c ≠ ' ' := by
  have hdigit : ∀ n : Nat, c ∈ (toString n).toList → c ≠ ' ' := by
    rintro n hc rfl
    exact absurd (Decimal.isDigit_of_mem_toString hc) (by decide)
  cases x with
  | ofNat n => exact hdigit n h
  | negSucc n =>
    rw [Decimal.toList_toString_negSucc] at h
    rcases mem_cons.mp h with rfl | h
    · decide
    · exact hdigit (n + 1) h

theorem expressionValue?_toString (x : Int) : expressionValue? (toString x).toList = some x := by
  have hlead : withoutLead? "1 << ".toList (toString x).toList = none := by
    refine if_neg fun h => ?_
    have hlead := isPrefixOf_iff_prefix.mp h
    have hblank : ' ' ∈ (toString x).toList := hlead.subset (by decide)
    exact ne_blank_of_mem_toString hblank rfl
  rw [expressionValue?, hlead]
  exact integerValue?_toString x

theorem expressionValue?_shift (k : Nat) :
    expressionValue? ("1 << ".toList ++ (toString k).toList) = some (shiftedOne k) := by
  rw [expressionValue?, withoutLead?_append]
  exact congrArg (Option.map _) (integerValue?_toString k)

theorem initialValue?_equals (previous : Option Int) (cs : List Char) :
    initialValue? previous (" = ".toList ++ cs) = expressionValue? cs := by
  rw [initialValue?, if_neg (append_ne_nil_of_left_ne_nil (by decide) cs), withoutLead?_append,
    Option.bind_some]

/-! ## Shifts -/

theorem shiftedOne_lt (k : Nat) : shiftedOne k < 2147483648 :=
  BitVec.toInt_lt

theorem shiftedOne_of_lt {k : Nat} (hk : k < 31) : shiftedOne k = Nat.pow 2 k :=
  (by decide : ∀ k < 31, shiftedOne k = Nat.pow 2 k) k hk

/-- A shift is the power of two unless it reaches the sign. -/
theorem shiftedOne_eq_iff {value : Int} (h : isPowerOfTwo value = true) :
    shiftedOne value.toNat.log2 = value ↔ value < 2147483648 := by
  simp only [isPowerOfTwo, Bool.and_eq_true, decide_eq_true_eq, beq_iff_eq] at h
  obtain ⟨hpos, hpower⟩ := h
  refine ⟨fun heq => heq ▸ shiftedOne_lt _, fun hlt => ?_⟩
  have hlog : value.toNat.log2 < 31 := by
    refine (Nat.log2_lt (by omega)).mpr ?_
    have hbound : (2147483648 : Nat) = 2 ^ 31 := by decide
    omega
  rw [shiftedOne_of_lt hlog, hpower]
  omega

/-! ## The lines of a declaration -/

variable {info : EnumInfo}

def writtenValue (info : EnumInfo) (m : EnumMember) : Int :=
  if info.isBitmask && isPowerOfTwo m.value then shiftedOne m.value.toNat.log2 else m.value

/-- A line has its value whatever comes before it. If the line leaves it out, the line before has
the value that is counted on. -/
theorem evaluate_line (hhash : info.isHash = false) {previous evaluated : Option Int}
    (hprevious : info.isBitmask = false → evaluated = previous) (m : EnumMember) :
    (initializer? m.name (line info previous m)).bind (initialValue? evaluated) =
      some (writtenValue info m) := by
  unfold line writtenValue
  rw [hhash, if_neg (by decide)]
  split
  · have hline : m.name ++ " = 1 << " ++ toString m.value.toNat.log2 =
        m.name ++ (" = " ++ ("1 << " ++ toString m.value.toNat.log2)) := by
      simp [← String.toList_inj]
    rw [hline, initializer?_line, Option.bind_some, String.toList_append, initialValue?_equals,
      String.toList_append, expressionValue?_shift]
  · split
    · next homitted =>
      simp only [Bool.and_eq_true, Bool.not_eq_true', beq_iff_eq] at homitted
      have hempty := initializer?_line m.name ""
      rw [String.append_empty] at hempty
      rw [hempty, Option.bind_some, hprevious homitted.1, homitted.2]
      simp [initialValue?]
    · have hline : m.name ++ " = " ++ toString m.value = m.name ++ (" = " ++ toString m.value) :=
        String.append_assoc
      rw [hline, initializer?_line, Option.bind_some, String.toList_append, initialValue?_equals,
        expressionValue?_toString]

theorem evaluate_linesFrom (hhash : info.isHash = false) (l : List EnumMember)
    {previous evaluated : Option Int} (hprevious : info.isBitmask = false → evaluated = previous) :
    evaluate evaluated ((l.map (·.name)).zip (linesFrom info previous l)) =
      some (l.map (writtenValue info)) := by
  induction l generalizing previous evaluated with
  | nil => rfl
  | cons m r ih =>
    have hnext : info.isBitmask = false → some (writtenValue info m) = some m.value := by
      intro hmask
      rw [writtenValue, hmask, Bool.false_and, if_neg (by decide)]
    have hline := evaluate_line hhash hprevious m
    simp [linesFrom, evaluate, hline, ih hnext]

theorem length_linesFrom (info : EnumInfo) (previous : Option Int) (l : List EnumMember) :
    (linesFrom info previous l).length = l.length := by
  induction l generalizing previous with
  | nil => rfl
  | cons m r ih => exact congrArg (· + 1) (ih _)

theorem precedes_iff {a b : EnumMember} :
    precedes a b = true ↔ a.value < b.value ∨ a.value = b.value ∧ a.name ≤ b.name := by
  unfold precedes
  split
  · next heq => simp [heq]
  · next hne => simp [hne]

theorem pairwise_sorted (members : List EnumMember) :
    (Sorted.sort precedes members).Pairwise fun a b => precedes a b = true := by
  refine Sorted.pairwise_sort (fun a b => ?_) (fun a b c => ?_) members
  · rw [precedes_iff, precedes_iff]
    have hnames := String.le_total a.name b.name
    rcases Int.lt_trichotomy a.value b.value with hlt | heq | hgt
    · exact .inl (.inl hlt)
    · exact hnames.imp (fun h => .inr ⟨heq, h⟩) fun h => .inr ⟨heq.symm, h⟩
    · exact .inr (.inl hgt)
  · rw [precedes_iff, precedes_iff, precedes_iff]
    rintro (hab | ⟨hab, hname⟩) (hbc | ⟨hbc, hname'⟩)
    · exact .inl (Int.lt_trans hab hbc)
    · exact .inl (hbc ▸ hab)
    · exact .inl (hab ▸ hbc)
    · exact .inr ⟨hab.trans hbc, String.le_trans hname hname'⟩

/-- The lines of an enum stand for the members in increasing order, one for each. They have the
values of the members, unless a power of two among flags does not fit in a shift. -/
theorem lines_evaluate_iff (info : EnumInfo) (hhash : info.isHash = false)
    (members : List EnumMember) :
    (Sorted.sort precedes members).Perm members ∧
    ((Sorted.sort precedes members).Pairwise fun a b =>
      a.value < b.value ∨ a.value = b.value ∧ a.name ≤ b.name) ∧
    (lines info members).length = members.length ∧
    (evaluate none (((Sorted.sort precedes members).map (·.name)).zip (lines info members)) =
        some ((Sorted.sort precedes members).map (·.value)) ↔
      (info.isBitmask = true → ∀ m ∈ members, isPowerOfTwo m.value = true →
        m.value < 2147483648)) := by
  have hperm := Sorted.perm_sort precedes members
  refine ⟨hperm, (pairwise_sorted members).imp precedes_iff.mp,
    (length_linesFrom _ _ _).trans hperm.length_eq, ?_⟩
  rw [lines, evaluate_linesFrom hhash _ fun _ => rfl, Option.some.injEq, map_inj_left]
  simp only [Sorted.mem_sort, writtenValue]
  constructor
  · intro heq hmask m hm hpower
    have hm' := heq m hm
    rw [hmask, hpower, Bool.true_and, if_pos rfl] at hm'
    exact (shiftedOne_eq_iff hpower).mp hm'
  · intro hfits m hm
    split
    · next hshift =>
      obtain ⟨hmask, hpower⟩ := Bool.and_eq_true_iff.mp hshift
      exact (shiftedOne_eq_iff hpower).mpr (hfits hmask m hm hpower)
    · rfl

/-- Flags, two of them with the same value, out of order. -/
theorem lines_evaluate_flags :
    lines ⟨"Flags", true, false⟩ [⟨6, "Both"⟩, ⟨4, "C"⟩, ⟨1073741824, "Last"⟩, ⟨4, "B"⟩,
      ⟨-1, "All"⟩] =
      ["All = -1,", "B = 1 << 2,", "C = 1 << 2,", "Both = 6,", "Last = 1 << 30,"] ∧
    evaluate none [("All", "All = -1,"), ("B", "B = 1 << 2,"), ("C", "C = 1 << 2,"),
      ("Both", "Both = 6,"), ("Last", "Last = 1 << 30,")] = some [-1, 4, 4, 6, 1073741824] := by
  have hlines : lines ⟨"Flags", true, false⟩
      [⟨6, "Both"⟩, ⟨4, "C"⟩, ⟨1073741824, "Last"⟩, ⟨4, "B"⟩, ⟨-1, "All"⟩] =
      ["All = -1,", "B = 1 << 2,", "C = 1 << 2,", "Both = 6,", "Last = 1 << 30,"] := by
    decide +kernel
  refine ⟨hlines, ?_⟩
  have heval := (lines_evaluate_iff ⟨"Flags", true, false⟩ rfl
    [⟨6, "Both"⟩, ⟨4, "C"⟩, ⟨1073741824, "Last"⟩, ⟨4, "B"⟩, ⟨-1, "All"⟩]).2.2.2.mpr (by decide)
  rw [hlines] at heval
  exact heval

/-- The highest flag of 32 bits becomes negative. -/
theorem lines_lose_highest_flag :
    lines ⟨"Flags", true, false⟩ [⟨2147483648, "Top"⟩] = ["Top = 1 << 31,"] ∧
    evaluate none [("Top", "Top = 1 << 31,")] = some [-2147483648] := by
  decide +kernel

end BlockProgram.EnumMember
