import BlockProgram.Proofs.Code.Script
import BlockProgram.Proofs.Number.Decimal
import BlockProgram.Proofs.Typing.Holes
import Mathlib.Data.List.TakeWhile

/-!
# Operators keep their meaning

A tree of numbers, truth values, variables and operators stands for an expression (`Means`): a
number for its digits, a negative one for a unary minus, a variable for its output name, and a hole
for the default of its type. The code that is written for the tree expresses that, so its text is
read as the operators of the blocks and as nothing else, unless a negation or a negative number is
the base of a power, or a number is not kept (`operators_read_back`).

A number is written as the binary64 number next to it, within 64 bits. Below `2 ^ 53` it is kept
(`Term.ofNumber_of_lt`).
-/

namespace BlockProgram

open Program List Workspace Compilation

variable {n : Nat} {negative : Bool} {left op right : String}

/-! ## Integers -/

/-- The integer that is written for `± n`: the binary64 number next to it, kept within 64 bits. -/
def NumberLiteral.kept? (negative : Bool) (n : Nat) : Option Int :=
  match Binary64.ofDecimal negative n 0 with
  | .finite _ m e => some (clamp negative (Binary64.magnitudeNum m e / Binary64.magnitudeDen e))
  | _ => none

theorem Decimal.read_of_integer {text : String} (h : integer? text = some (negative, n)) :
    read text = some (.ofDecimal negative n 0) := by
  obtain ⟨cs, hread, ⟨hne, hdigits⟩, rfl⟩ := integer?_eq_some_iff.mp h
  -- a digit does not begin any of the words
  have hword : ∀ c r, Char.isDigit c = false → cs.map Char.toLower ≠ c :: r := by
    intro c r hc hmap
    obtain ⟨d, ds, rfl, hd, _⟩ := map_eq_cons_iff.mp hmap
    have hd' := hdigits d (.head _)
    have hlower : d.toLower = d := by
      have hnine : d.val ≤ '9'.val := by simpa using (Bool.and_eq_true_iff.mp hd').2
      unfold Char.toLower
      exact dif_neg fun hupper => absurd (UInt32.le_trans hupper.1 hnine) (by decide)
    rw [← hd, hlower, hd'] at hc
    cases hc
  unfold read
  rw [hread]
  dsimp only
  rw [if_neg (by rintro (h | h) <;> exact hword _ _ (by decide) h),
    if_neg (hword _ _ (by decide))]
  have htake : cs.takeWhile Char.isDigit = cs := takeWhile_eq_self_iff.mpr hdigits
  have hdrop : cs.dropWhile Char.isDigit = [] := dropWhile_eq_nil_iff.mpr hdigits
  unfold readUnsigned
  simp [htake, hdrop, splitFraction, readExponent, hne]

namespace Binary64

theorem roundHalfEven_one (n : Nat) : roundHalfEven n 1 = n := by
  simp [roundHalfEven, Nat.mod_one]

theorem floorLog2_one (hn : n ≠ 0) : floorLog2 n 1 = n.log2 := by
  have hle : 1 * twoPow (n.log2 : Int) ≤ n * twoPow (-(n.log2 : Int)) := by
    simpa [twoPow] using Nat.log2_self_le hn
  have hone : (n.log2 : Int) - (Nat.log2 1 : Nat) = n.log2 := by
    rw [show Nat.log2 1 = 0 by decide]
    rfl
  unfold floorLog2
  dsimp only
  rw [hone, if_pos hle]

/-- A natural number is read as an integer, or as infinite. Below `2 ^ 53` it is the number
itself. -/
theorem ofDecimal_integer (negative : Bool) (n : Nat) :
    (Nat.pow 2 53 ≤ n ∧ ofDecimal negative n 0 = .infinite negative) ∨
      ∃ m e k, ofDecimal negative n 0 = .finite negative m e ∧
        magnitudeNum m e = k * magnitudeDen e ∧ (n < Nat.pow 2 53 → k = n) := by
  by_cases hn : n = 0
  · subst hn
    exact .inr ⟨0, minExponent, 0, rfl, by simp [magnitudeNum], fun _ => rfl⟩
  have hof : ofDecimal negative n 0 = ofRatio negative n 1 := by
    simp [ofDecimal, hn]
  have hmax : max ((n.log2 : Int) - 52) minExponent = (n.log2 : Int) - 52 := by
    unfold minExponent
    omega
  rw [hof, ofRatio, if_neg hn, floorLog2_one hn, hmax]
  generalize he : (n.log2 : Int) - 52 = e
  dsimp only
  by_cases hsmall : n < Nat.pow 2 53
  · have hlog : n.log2 < 53 := (Nat.log2_lt hn).mpr hsmall
    obtain ⟨j, hj⟩ : ∃ j, n.log2 + j = 52 := ⟨52 - n.log2, by omega⟩
    have hup : twoPow e = 1 := congrArg (Nat.pow 2) (show e.toNat = 0 by omega)
    have hdown : twoPow (-e) = 2 ^ j := congrArg (Nat.pow 2) (show (-e).toNat = j by omega)
    have hlt : n * 2 ^ j < Nat.pow 2 53 := by
      calc n * 2 ^ j < 2 ^ (n.log2 + 1) * 2 ^ j :=
            Nat.mul_lt_mul_of_pos_right Nat.lt_log2_self (by positivity)
        _ = 2 ^ 53 := by rw [← Nat.pow_add, show n.log2 + 1 + j = 53 by omega]
    rw [hup, hdown, Nat.mul_one, roundHalfEven_one, if_neg (ne_of_lt hlt)]
    dsimp only
    rw [if_neg (by unfold maxExponent; omega)]
    refine .inr ⟨_, _, n, rfl, ?_, fun _ => rfl⟩
    rw [magnitudeNum, magnitudeDen, hup, hdown, Nat.mul_one]
  · have hlog : 53 ≤ n.log2 := (Nat.le_log2 hn).mpr (Nat.le_of_not_lt hsmall)
    have hwhole : ∀ (m : Nat) (e : Int), 0 ≤ e →
        magnitudeNum m e = magnitudeNum m e * magnitudeDen e := by
      intro m e he
      have hden : magnitudeDen e = 1 := congrArg (Nat.pow 2) (show (-e).toNat = 0 by omega)
      rw [hden, Nat.mul_one]
    generalize roundHalfEven _ _ = m
    obtain ⟨m', e', heq, he'⟩ : ∃ m' e',
        (if m = Nat.pow 2 53 then (Nat.pow 2 52, e + 1) else (m, e)) = (m', e') ∧ 0 ≤ e' := by
      split
      · exact ⟨_, _, rfl, by omega⟩
      · exact ⟨_, _, rfl, by omega⟩
    rw [heq]
    dsimp only
    split
    · exact .inl ⟨Nat.le_of_not_lt hsmall, rfl⟩
    · exact .inr ⟨m', e', _, rfl, hwhole m' e' he', fun h => absurd h hsmall⟩

end Binary64

namespace NumberLiteral

open Binary64

theorem text_of_integer {m k : Nat} {e : Int} (h : magnitudeNum m e = k * magnitudeDen e) :
    text (.finite negative m e) = toString (clamp negative k) := by
  have hden : 0 < magnitudeDen e := Nat.pow_pos (by decide)
  have hnear : isNear 0 (magnitudeDen e) = true := by
    have htolerance : tolerance = .finite false 4835703278458517 (-82) := by decide
    simp [isNear, htolerance, magnitudeNum, twoPow, hden]
  have hnearest : (2 * (k * magnitudeDen e) + magnitudeDen e) / (2 * magnitudeDen e) = k := by
    rw [show 2 * (k * magnitudeDen e) + magnitudeDen e = (2 * k + 1) * magnitudeDen e by ring,
      Nat.mul_div_mul_right _ _ hden]
    omega
  rw [text]
  dsimp only
  rw [h, hnearest, Nat.max_self, Nat.min_self, Nat.sub_self, hnear, if_pos rfl]

theorem kept?_of_lt (negative : Bool) (hn : n < Nat.pow 2 53) :
    kept? negative n = some (if negative then -(n : Int) else n) := by
  rcases ofDecimal_integer negative n with ⟨hle, _⟩ | ⟨m, e, k, hof, hk, hsame⟩
  · exact absurd hn (Nat.not_lt_of_le hle)
  · have hden : 0 < magnitudeDen e := Nat.pow_pos (by decide)
    have hbounds : min n (Nat.pow 2 63) = n ∧ min n (Nat.pow 2 63 - 1) = n := by
      have : Nat.pow 2 53 ≤ Nat.pow 2 63 - 1 := by decide
      omega
    rw [kept?, hof]
    dsimp only
    rw [hk, Nat.mul_div_cancel _ hden, hsame hn, clamp, hbounds.1, hbounds.2]

/-- A field that is an integer is written as the integer that is kept, if there is one. -/
theorem numberText_of_integer {field : String}
    (hn : Decimal.integer? (Text.trimmed field) = some (negative, n)) :
    numberText field =
      ((kept? negative n).map toString).getD (if negative then "-inf" else "inf") := by
  rw [numberText, Decimal.read_of_integer hn, Option.map_some, Option.getD_some]
  unfold kept?
  rcases ofDecimal_integer negative n with ⟨_, hof⟩ | ⟨m, e, k, hof, hk, _⟩
  · rw [hof]
    rfl
  · have hden : 0 < magnitudeDen e := Nat.pow_pos (by decide)
    rw [hof]
    dsimp only
    rw [hk, Nat.mul_div_cancel _ hden, text_of_integer hk]
    rfl

end NumberLiteral

/-! ## Words -/

namespace Expr

theorem isWord_of_isDigit {s : String} (hne : s.toList ≠ [])
    (h : ∀ c ∈ s.toList, c.isDigit = true) : isWord s = true := by
  have htake : s.toList.takeWhile Char.isDigit = s.toList := takeWhile_eq_self_iff.mpr h
  have hdrop : s.toList.dropWhile Char.isDigit = [] := dropWhile_eq_nil_iff.mpr h
  obtain ⟨c, r, hs⟩ := exists_cons_of_ne_nil hne
  have hc : c.isDigit = true := h c (hs ▸ (.head _))
  rw [hs] at htake hdrop
  simp [isWord, hs, readWord, hc, readNumber, readWhile, htake, hdrop, readFraction, readExponent]

theorem isWord_of_isIdentifier {s : String} (h : Text.IsIdentifier s) : isWord s = true := by
  obtain ⟨c, r, hs⟩ := exists_cons_of_ne_nil h.nonempty
  have hword : ∀ x ∈ c :: r, isWordChar x = true := by
    intro x hx
    have hname := h.chars x (hs ▸ hx)
    simp [isWordChar, hname, Text.isBlank_of_isNameChar hname]
  have htake := takeWhile_eq_self_iff.mpr hword
  have hdrop := dropWhile_eq_nil_iff.mpr hword
  have hc : c.isDigit = false := h.start c (by rw [hs]; rfl)
  simp [isWord, hs, readWord, hword c mem_cons_self, hc, readWhile, htake, hdrop]

end Expr

namespace Script

/-- An integer as an expression: a negative one is a unary minus in front of digits. -/
def Term.ofInt : Int → Term
  | .ofNat n => .word (toString n)
  | .negSucc n => .unary "-" (.word (toString (n + 1)))

theorem expresses_int (x : Int) : Expresses (.ofText (toString x)) (.ofInt x) := by
  have hdigits : ∀ n : Nat, ∀ c ∈ (toString n).toList, c.isDigit = true :=
    fun n c => Decimal.isDigit_of_mem_toString
  have hprimary : ∀ n : Nat, isPrimary (toString n) = true := by
    intro n
    have hreserved : ∀ w ∈ Text.reservedWords, w.toList.all Char.isDigit = false := by
      decide +kernel
    simp only [isPrimary, Bool.or_eq_true, decide_eq_true_eq]
    refine .inr fun hmem => ?_
    have hall := hreserved _ hmem
    rw [all_eq_true.mpr (hdigits n)] at hall
    cases hall
  have hword := fun n => Expr.isWord_of_isDigit (Decimal.toList_toString_ne_nil n) (hdigits n)
  cases x with
  | ofNat n => exact .word {} (hword n) (hprimary n)
  | negSucc n =>
    exact .minus {} (hword _) (hprimary _)

/-- What is written for the integer `± n`: the integer that is kept, or a name if it is too large
for a binary64 number. -/
def Term.ofNumber (negative : Bool) (n : Nat) : Term :=
  match NumberLiteral.kept? negative n with
  | some k => .ofInt k
  | none => if negative then .unary "-" (.word "inf") else .word "inf"

theorem Term.ofNumber_of_lt (negative : Bool) (hn : n < Nat.pow 2 53) :
    ofNumber negative n = .ofInt (if negative then -(n : Int) else n) := by
  rw [ofNumber, NumberLiteral.kept?_of_lt negative hn]

theorem expresses_number {field : String}
    (hn : Decimal.integer? (Text.trimmed field) = some (negative, n)) :
    Expresses (.ofText (numberText field)) (.ofNumber negative n) := by
  rw [NumberLiteral.numberText_of_integer hn, Term.ofNumber]
  cases NumberLiteral.kept? negative n with
  | some k => exact expresses_int k
  | none =>
    cases negative with
    | false => exact .word {} (by decide) (by decide)
    | true => exact .minus {} (by decide : Expr.isWord "inf" = true) (by decide)

theorem expresses_name {s : String} (hs : Text.IsIdentifier s) (hfree : s ∉ Text.reservedWords) :
    Expresses (.ofText s) (.word s) :=
  .word {} (Expr.isWord_of_isIdentifier hs) (by simp [isPrimary, hfree])

end Script

/-! ## What a tree of operators means -/

open Script

/-- The inputs of a block between which its operator is written, and the operator. -/
def BlockKind.binary? : BlockKind → Option (String × String × String)
  | .arithmetic op => some ("A", op.symbol, "B")
  | .modulo => some ("DIVIDEND", "%", "DIVISOR")
  | .boolOperation op => some ("A", op.symbol, "B")
  | .compare op => if op.isEquality then none else some ("A", op.symbol, "B")
  | _ => none

/-- The expression that a hole stands for. -/
def Compilation.hole (c : Compilation) (b : BlockRef) (input : String) : Term :=
  .word (TypeName.defaultLiteral (c.holeType b input))

/-- The expression that a tree of blocks stands for, and the one that is written for it. They differ
in the numbers that are not kept. -/
inductive Means (p : Program) (c : Compilation) : BlockRef → Term → Term → Prop where
  | number {b : BlockRef} {negative : Bool} {n : Nat} (hk : p.kind b = .numberLiteral)
      (hn : Decimal.integer? (Text.trimmed (((p.block b).field? "NUM").getD "0")) =
        some (negative, n)) :
      Means p c b (.ofInt (if negative then -(n : Int) else n)) (.ofNumber negative n)
  | truth {b : BlockRef} (hk : p.kind b = .booleanLiteral) :
      Means p c b (.word (truthText ((p.block b).field? "BOOL")))
        (.word (truthText ((p.block b).field? "BOOL")))
  | read {b : BlockRef} {n : String} {e : Term} (hk : p.kind b = .variableGet)
      (hvisited : c.blockScope.contains b = true) (hn : (p.block b).variableField? = some n)
      (he : ∀ v, c.variableAt? b n = some v → e = .word (c.outputName v)) : Means p c b e e
  | binary {b : BlockRef} {left op right : String} {x y x' y' : Term}
      (hk : (p.kind b).binary? = some (left, op, right))
      (hl : ∀ t, p.liveTarget? c b left = some t → Means p c t x x')
      (hl' : p.liveTarget? c b left = none → x = c.hole b left ∧ x' = x)
      (hr : ∀ t, p.liveTarget? c b right = some t → Means p c t y y')
      (hr' : p.liveTarget? c b right = none → y = c.hole b right ∧ y' = y) :
      Means p c b (.binary op x y) (.binary op x' y')
  | negate {b : BlockRef} {x x' : Term} (hk : p.kind b = .negate)
      (h : ∀ t, p.liveTarget? c b "BOOL" = some t → Means p c t x x')
      (h' : p.liveTarget? c b "BOOL" = none → x = c.hole b "BOOL" ∧ x' = x) :
      Means p c b (.unary "!" x) (.unary "!" x')

variable {p : Program} {c d : Compilation} {b : BlockRef} {input : String} {x y : Term}
  {e : Emitter}

theorem binary_operator {kind : BlockKind} (h : kind.binary? = some (left, op, right)) :
    kind.isOperator = true ∧ op ∈ infixes := by
  cases kind with
  | arithmetic o | boolOperation o =>
    cases h
    exact ⟨rfl, by cases o <;> decide⟩
  | modulo =>
    cases h
    exact ⟨rfl, by decide⟩
  | compare o => cases o <;> simp_all [BlockKind.binary?, CompareOp.isEquality,
    BlockKind.isOperator,
      infixes, CompareOp.symbol]
  | _ => cases h

theorem kind_ne_onStart (hop : (p.kind b).isOperator = true) : p.kind b ≠ .onStart := by
  intro h
  rw [h] at hop
  cases hop

theorem expressionStep_binary (h : (p.kind b).binary? = some (left, op, right)) :
    p.expressionStep e b = p.emitBinary e b left op right := by
  have hkind : p.kind b = (p.block b).kind := rfl
  rw [hkind] at h
  unfold expressionStep
  dsimp only
  cases hk : (p.block b).kind with
  | arithmetic o | boolOperation o | modulo =>
    rw [hk] at h
    cases h
    rfl
  | compare o =>
    rw [hk] at h
    cases o <;> cases h <;> rfl
  | _ =>
    rw [hk] at h
    cases h

/-! ## Code that is written later on -/

/-- `d` comes after `c`, and nothing has been found out in between. -/
structure Later (p : Program) (c d : Compilation) : Prop where
  consistent : Consistent p d
  advances : Advances c d
  quiet : Quiet c d

/-- At any time after `c`, the step writes code that expresses `x`. -/
def Utters (p : Program) (c : Compilation) (m : CompileM Code) (x : Term) : Prop :=
  ∀ d, Later p c d → ∃ code d', m d = .ok code d' ∧ Later p c d' ∧ Expresses code x

theorem Script.Expresses.named {code : Code} (h : Expresses code x) (id : String) :
    Expresses (code.named id) x := by
  cases h with
  | word _ hs hp => exact .word _ hs hp
  | minus _ hs hp => exact .minus _ hs hp
  | not _ h => exact .not _ h
  | binary _ hop hl hr => exact .binary _ hop hl hr

theorem utters_pure {code : Code} (h : Expresses code x) : Utters p c (pure code) x :=
  fun d hd => ⟨code, d, rfl, hd, h⟩

theorem utters_number (hk : p.kind b = .numberLiteral)
    (hn : Decimal.integer? (Text.trimmed (((p.block b).field? "NUM").getD "0")) =
      some (negative, n)) : Utters p c (p.expressionStep e b) (.ofNumber negative n) := by
  unfold expressionStep
  dsimp only
  rw [show (p.block b).kind = .numberLiteral from hk]
  exact utters_pure (expresses_number hn)

theorem utters_truth (hk : p.kind b = .booleanLiteral) : Utters p c (p.expressionStep e b)
      (.word (truthText ((p.block b).field? "BOOL"))) := by
  unfold expressionStep
  dsimp only
  rw [show (p.block b).kind = .booleanLiteral from hk]
  refine utters_pure ?_
  unfold truthText
  split
  · exact .word {} (by decide) (by decide)
  · exact .word {} (by decide) (by decide)

theorem utters_read (hk : p.kind b = .variableGet) {n : String}
    (hn : (p.block b).variableField? = some n) {v : BindingId} (hv : c.variableAt? b n = some v)
    (hid : Text.IsIdentifier (c.outputName v)) (hfree : c.outputName v ∉ Text.reservedWords) :
    Utters p c (p.expressionStep e b) (.word (c.outputName v)) := by
  unfold expressionStep
  dsimp only
  rw [show (p.block b).kind = .variableGet from hk]
  dsimp only
  rw [hn]
  intro d hd
  have hlookup : p.lookup b n d = .ok v d :=
    lookup_of_some (by rw [hd.advances.variableAt?_eq, hv])
  refine ⟨.ofText (c.outputName v), d, ?_, hd, expresses_name hid hfree⟩
  unfold variableName
  rw [bind_assoc, Option.getD_some, run_bind_of_ok hlookup, ← outputName_of_advances hd.advances]
  rfl

theorem utters_binary (hk : (p.kind b).binary? = some (left, op, right))
    (hl : Utters p c (p.emitInput e b left) x) (hr : Utters p c (p.emitInput e b right) y) :
    Utters p c (p.expressionStep e b) (.binary op x y) := by
  intro d hd
  obtain ⟨l, d1, hrun, hd1, hlcode⟩ := hl d hd
  obtain ⟨r, d2, hrun', hd2, hrcode⟩ := hr d1 hd1
  refine ⟨.infixed l op r, d2, ?_, hd2, .binary {} (binary_operator hk).2 hlcode hrcode⟩
  rw [expressionStep_binary hk]
  unfold emitBinary
  rw [run_bind_of_ok hrun, run_bind_of_ok hrun']
  rfl

theorem utters_negate (hk : p.kind b = .negate) (h : Utters p c (p.emitInput e b "BOOL") x) :
    Utters p c (p.expressionStep e b) (.unary "!" x) := by
  unfold expressionStep
  dsimp only
  rw [show (p.block b).kind = .negate from hk]
  intro d hd
  obtain ⟨code, d', hrun, hd', hcode⟩ := h d hd
  exact ⟨.prefixed "!" code, d', run_bind_of_ok hrun _, hd', .not {} hcode⟩

/-! ## Holes -/

theorem exists_placeholder {i : PlaceholderId} (hi : c.placeholderOf? b input = some i) :
    i < c.placeholders.size ∧ c.placeholder i ∈ c.placeholders ∧
      (c.placeholder i).owner = b ∧ (c.placeholder i).input = input := by
  obtain ⟨hlt, heq, _⟩ := Array.findIdx?_eq_some_iff_getElem.mp hi
  have hget : c.placeholder i = c.placeholders[i] := by
    unfold placeholder
    rw [Array.getElem?_eq_getElem hlt]
    rfl
  rw [hget]
  exact ⟨hlt, Array.getElem_mem hlt, by simpa using heq⟩

/-- Nothing is found out about a hole. -/
theorem Later.hole (hd : Later p c d) (hknown : c.HoleKnown b input) :
    d.HoleKnown b input ∧ d.holeType b input = c.holeType b input := by
  unfold HoleKnown holeType
  cases hi : c.placeholderOf? b input with
  | some i =>
    rw [hd.advances.placeholderOf?_eq hi, Option.bind_some, Option.bind_some,
      hd.advances.placeholder_eq (exists_placeholder hi).1]
    rcases hknown i hi with ⟨t, ht, hne⟩ | hblank
    · have ht' := hd.advances.graph.type_eq _ t ht hne
      refine ⟨?_, by rw [ht, ht']⟩
      rintro _ ⟨⟩
      rw [hd.advances.placeholder_eq (exists_placeholder hi).1]
      exact .inl ⟨t, ht', hne⟩
    · have hblank' := hd.quiet.graph _ hblank
      refine ⟨?_, by rw [hblank.type, hblank'.type]⟩
      rintro _ ⟨⟩
      rw [hd.advances.placeholder_eq (exists_placeholder hi).1]
      exact .inr hblank'
  | none =>
    have hnew : ∀ j, d.placeholderOf? b input = some j → d.graph.Blank (d.placeholder j).node := by
      intro j hj
      obtain ⟨_, hmem, howner, hinput⟩ := exists_placeholder hj
      refine (hd.quiet.placeholders _ hmem).resolve_left fun hold => ?_
      have hnone := Array.findIdx?_eq_none_iff.mp hi _ hold
      rw [howner, hinput] at hnone
      simp at hnone
    refine ⟨fun j hj => .inr (hnew j hj), ?_⟩
    cases hj : d.placeholderOf? b input with
    | none => rfl
    | some j => exact (hnew j hj).type

section Typed

variable {disabled : List BlockRef} {taken : List String}
  (hinfer : p.infer (p.track (.fresh disabled taken)).2 = .ok () c)
include hinfer

theorem later_infer : Later p c c ∧ Advances (p.track (.fresh disabled taken)).2 c := by
  have hstart := idle_track p disabled taken
  obtain ⟨hc, hadv⟩ := ((moves_inferFrom hstart p.workspace.refs).of_ok hinfer).1 hstart.consistent
  exact ⟨⟨hc, .refl c, .refl c⟩, hadv⟩

theorem holeKnown_operator (hop : (p.kind b).isOperator = true) (input : String) :
    c.HoleKnown b input ∧
      TypeName.defaultLiteral (c.holeType b input) ∈ ["0", "false", "null"] := by
  have hprimitives := (later_infer hinfer).1.consistent.primitives
  have htype : ∀ i, c.placeholderOf? b input = some i →
      c.graph.typeAt (c.placeholder i).node ∈ [some .number, some .boolean] := by
    intro i hi
    obtain ⟨_, hmem, howner, _⟩ := exists_placeholder hi
    rcases placeholders_operator hinfer _ hmem (howner ▸ hop) with hnode | hnode
    · rw [hnode, hprimitives.number]
      decide
    · rw [hnode, hprimitives.boolean]
      decide
  unfold HoleKnown holeType
  cases hi : c.placeholderOf? b input with
  | none => exact ⟨by rintro _ ⟨⟩, mem_of_getElem? (i := 2) rfl⟩
  | some i =>
    have ht := htype i hi
    simp only [mem_cons, not_mem_nil, or_false] at ht
    rw [Option.bind_some]
    rcases ht with ht | ht
    iterate 2 exact ⟨by rintro _ ⟨⟩; exact .inl ⟨_, ht, by decide⟩, by rw [ht]; decide⟩

/-- The code of an operand expresses what is plugged in, or the default. -/
theorem utters_emitInput (he : EmitsForward p e) (hop : (p.kind b).isOperator = true)
    (htarget : ∀ t, p.liveTarget? c b input = some t → Utters p c (e.expression t) x)
    (hhole : p.liveTarget? c b input = none → x = c.hole b input) :
    Utters p c (p.emitInput e b input) x := by
  intro d hd
  have hlive : p.liveTarget? d b input = p.liveTarget? c b input := hd.advances.liveTarget?_eq
  cases ht : p.liveTarget? c b input with
  | some t =>
    obtain ⟨code, d', hrun, hd', hcode⟩ := htarget t ht d hd
    refine ⟨code.named (p.block t).id, d', ?_, hd', hcode.named _⟩
    have hattached : p.attached? d b input = some (.block t) := by
      unfold attached?
      rw [hlive, ht]
    show p.emitTarget e (p.attach b input none d).1 (p.attach b input none d).2 = _
    rw [attach_of_attached none hattached]
    exact run_bind_of_ok hrun _
  | none =>
    obtain ⟨hknown, hword⟩ := holeKnown_operator hinfer hop input
    obtain ⟨hknown', htype⟩ := hd.hole hknown
    obtain ⟨d', hrun, hquiet⟩ := emitInput_hole hd.consistent (hlive.trans ht) hknown' e
    obtain ⟨hd', hadv⟩ :=
      (((forward_emitInput he b input).moves hd.consistent).of_ok hrun).1 hd.consistent
    rw [htype] at hrun
    refine ⟨_, d', hrun, ⟨hd', hd.advances.trans hadv, hd.quiet.trans hquiet⟩, ?_⟩
    have hliteral : ∀ s ∈ ["0", "false", "null"], Expr.isWord s = true ∧ isPrimary s = true := by
      decide
    rw [hhole ht]
    exact .word {} (hliteral _ hword).1 (hliteral _ hword).2

variable (hws : p.workspace.Sound)
include hws

omit hinfer in
/-- What is plugged into a block reaches less far. -/
theorem reach_target {t : BlockRef} (ht : p.liveTarget? c b input = some t) :
    p.workspace.reach t < p.workspace.reach b := by
  obtain ⟨i, hi, _, hit⟩ := Pairing.exists_input_of_target (Option.filter_eq_some_iff.mp ht).1
  exact reach_lt hws (Pairing.mem_children_of_input hi hit)

omit hws in
/-- The variable that a name means at a block has a legal name. -/
theorem outputName_legal {n : String} {v : BindingId} (hv : c.variableAt? b n = some v) :
    Text.IsIdentifier (c.outputName v) ∧ c.outputName v ∉ Text.reservedWords := by
  have hadv := (later_infer hinfer).2
  rw [hadv.variableAt?_eq] at hv
  obtain ⟨s, _, hfind⟩ := Option.bind_eq_some_iff.mp hv
  obtain ⟨t, ht⟩ := (finds_of_findFrom _ hfind).declared
  obtain ⟨name, hname, hid, hfree⟩ := exists_outputName p disabled taken
    (Table.mem_values_of_get? ht)
  unfold outputName
  rw [hadv.binding_eq, hname]
  exact ⟨hid, fun h => hfree (mem_append_left _ h)⟩

/-- A visited block finds the variable that it reads. -/
theorem exists_variable_read (hvisited : c.blockScope.contains b = true)
    (hk : p.kind b = .variableGet) {n : String} (hn : (p.block b).variableField? = some n) :
    ∃ v, c.variableAt? b n = some v := by
  have hadv := (later_infer hinfer).2
  rw [hadv.blockScope] at hvisited
  have hnames : n ∈ p.namesAt b := by
    refine mem_append_left _ (Option.mem_toList.mpr ?_)
    unfold Block.usedName?
    rw [show (p.block b).kind = .variableGet from hk]
    exact hn
  rw [hadv.variableAt?_eq]
  exact (track_tracked hws disabled taken rfl).finds b hvisited (by rw [hk]; decide) n hnames

/-- The code of a tree of operators expresses what is written for it. The induction is on the
meaning, with as many levels of the emitter as there are blocks below. -/
theorem utters_of_means (h : Means p c b x y) : ∀ fuel, p.workspace.reach b ≤ fuel →
    Utters p c ((p.emitterFrom fuel).expression b) y := by
  have hstep : ∀ {b : BlockRef} {x : Term}, p.kind b ≠ .onStart →
      (∀ fuel, p.workspace.reach b ≤ fuel + 1 →
        Utters p c (p.expressionStep (p.emitterFrom fuel) b) x) →
      ∀ fuel, p.workspace.reach b ≤ fuel → Utters p c ((p.emitterFrom fuel).expression b) x := by
    intro b x hkind h fuel hfuel
    have hlt : b < p.workspace.size := by
      by_contra hb
      refine hkind ?_
      show (p.workspace.block b).kind = _
      rw [block_eq_default (Nat.le_of_not_lt hb)]
      rfl
    have hpos := reach_pos hlt
    obtain ⟨fuel, rfl⟩ : ∃ n, fuel = n + 1 := ⟨fuel - 1, by omega⟩
    exact h fuel hfuel
  have hinput : ∀ {b : BlockRef} {input : String} {x : Term} {fuel : Nat},
      (p.kind b).isOperator = true → p.workspace.reach b ≤ fuel + 1 →
      (∀ t, p.liveTarget? c b input = some t → ∀ n, p.workspace.reach t ≤ n →
        Utters p c ((p.emitterFrom n).expression t) x) →
      (p.liveTarget? c b input = none → x = c.hole b input) →
      Utters p c (p.emitInput (p.emitterFrom fuel) b input) x := by
    intro b input x fuel hop hfuel hbelow hhole
    refine utters_emitInput hinfer (emitsForward_emitterFrom fuel) hop (fun t ht => ?_) hhole
    have hlt := reach_target hws ht
    exact hbelow t ht fuel (by omega)
  induction h with
  | number hk hn => exact hstep (by rw [hk]; decide) fun fuel _ => utters_number hk hn
  | truth hk => exact hstep (by rw [hk]; decide) fun fuel _ => utters_truth hk
  | read hk hvisited hn he =>
    refine hstep (by rw [hk]; decide) fun fuel _ => ?_
    obtain ⟨v, hv⟩ := exists_variable_read hinfer hws hvisited hk hn
    obtain ⟨hid, hfree⟩ := outputName_legal hinfer hv
    rw [he v hv]
    exact utters_read hk hn hv hid hfree
  | binary hk hl hl' hr hr' ihl ihr =>
    have hop := (binary_operator hk).1
    refine hstep (kind_ne_onStart hop) fun fuel hfuel => utters_binary hk ?_ ?_
    · exact hinput hop hfuel ihl fun hnone => (hl' hnone).2.trans (hl' hnone).1
    · exact hinput hop hfuel ihr fun hnone => (hr' hnone).2.trans (hr' hnone).1
  | @negate b x x' hk h h' ih =>
    have hop : (p.kind b).isOperator = true := by rw [hk]; rfl
    refine hstep (kind_ne_onStart hop) fun fuel hfuel => utters_negate hk ?_
    exact hinput hop hfuel ih fun hnone => (h' hnone).2.trans (h' hnone).1

end Typed

/-- Once a program has been typed, the text of a tree of integers, truth values, visited variables
and operators is read as the operators of the blocks exactly if no negation and no negative number
is the base of a power and every number is kept. It is read as the tree with what is kept of the
numbers and as nothing else, unless it is no expression because of a power. -/
theorem operators_read_back {surface : Surface} {specs : List BlockSpec}
    {vars : List VariableModel} (hbuild : Workspace.build surface specs vars = .ok p.workspace)
    {disabled : List BlockRef} {taken : List String}
    (hinfer : p.infer (p.track (.fresh disabled taken)).2 = .ok () c)
    (h : Means p c b x y) :
    ∃ code c', p.emitExpression b c = .ok code c' ∧
      (Reads code.source x ↔ x.isWritable = true ∧ y = x) ∧
      ∀ z, Reads code.source z ↔ z = y ∧ y.isWritable = true := by
  obtain ⟨code, c', hrun, _, hcode⟩ := utters_of_means hinfer (build_sound hbuild) h _
    (reach_le b) c (later_infer hinfer).1
  refine ⟨code, c', hrun, (reads_source hcode x).trans ?_, reads_source hcode⟩
  constructor
  · rintro ⟨rfl, hwritable⟩
    exact ⟨hwritable, rfl⟩
  · rintro ⟨hwritable, rfl⟩
    exact ⟨rfl, hwritable⟩

/-- Whether a negative number is at most a missing one. -/
def comparedBlocks : List BlockSpec :=
  [{ id := "le", tag := "logic_compare", fields := [⟨"OP", "LTE"⟩],
     inputs := [("A", .value, some "n"), ("B", .value, none)] },
   { id := "n", tag := "math_number", fields := [⟨"NUM", "-2"⟩] }]

theorem operators_read_back_compared : ∃ c code c',
    (Program.ofBlocks comparedBlocks).infer
      ((Program.ofBlocks comparedBlocks).track (.fresh [] [])).2 = .ok () c ∧
    (Program.ofBlocks comparedBlocks).emitExpression 0 c = .ok code c' ∧
    ∀ y, Reads code.source y ↔ y = .binary "<=" (.unary "-" (.word "2")) (.word "0") := by
  have hbuild : build (ofBlocks comparedBlocks).surface comparedBlocks [] =
      .ok (ofBlocks comparedBlocks).workspace := by decide +kernel
  generalize hp : ofBlocks comparedBlocks = p at hbuild ⊢
  have hrun : Succeeds p.infer (p.track (.fresh [] [])).2 fun _ c =>
      p.liveTarget? c 0 "A" = some 1 ∧ p.liveTarget? c 0 "B" = none ∧
        c.hole 0 "B" = .word "0" := by
    subst hp
    decide +kernel
  have hblocks : (p.kind 0).binary? = some ("A", "<=", "B") ∧ p.kind 1 = .numberLiteral ∧
      Decimal.integer? (Text.trimmed (((p.block 1).field? "NUM").getD "0")) = some (true, 2) := by
    subst hp
    decide +kernel
  obtain ⟨hop, hkind, hnum⟩ := hblocks
  obtain ⟨_, c, hinfer, hleft, hright, hhole⟩ := hrun.exists_ok
  have hn : Means p c 1 (.ofInt (-2)) (.ofInt (-2)) := by
    have hn := Means.number (c := c) hkind hnum
    rwa [Term.ofNumber_of_lt true (by decide)] at hn
  obtain ⟨code, c', hemit, _, hreads⟩ := operators_read_back hbuild hinfer
    (.binary hop (by rw [hleft]; rintro _ ⟨⟩; exact hn) (by rw [hleft]; rintro ⟨⟩)
      (by rw [hright]; rintro _ ⟨⟩) fun _ => ⟨hhole.symm, rfl⟩)
  exact ⟨c, code, c', hinfer, hemit, fun y => (hreads y).trans ⟨And.left, fun h => ⟨h, rfl⟩⟩⟩

/-- The square of a negative number. -/
def squareBlocks : List BlockSpec :=
  [{ id := "pow", tag := "math_arithmetic", fields := [⟨"OP", "POWER"⟩],
     inputs := [("A", .value, some "n"), ("B", .value, some "m")] },
   { id := "n", tag := "math_number", fields := [⟨"NUM", "-2"⟩] },
   { id := "m", tag := "math_number", fields := [⟨"NUM", "2"⟩] }]

/-- The power of a negative number is written without parentheses, which is no expression. -/
theorem power_not_read_back :
    let p := ofBlocks squareBlocks
    ∃ c code c', p.infer (p.track (.fresh [] [])).2 = .ok () c ∧
      p.emitExpression 0 c = .ok code c' ∧ code.source = "-2 ** 2" ∧
      ∀ y, ¬ Reads code.source y := by
  dsimp only
  generalize hp : ofBlocks squareBlocks = p
  have hrun : Succeeds p.infer (p.track (.fresh [] [])).2 fun _ c =>
      Succeeds (p.emitExpression 0) c fun code _ => code.source = "-2 ** 2" := by
    subst hp
    decide +kernel
  obtain ⟨_, c, hinfer, hrun⟩ := hrun.exists_ok
  obtain ⟨code, c', hemit, htext⟩ := hrun.exists_ok
  refine ⟨c, code, c', hinfer, hemit, htext, fun y hy => ?_⟩
  have hcode : Expresses (.binary {} "**" (.text {} ("-" ++ "2")) (.text {} "2"))
      (.binary "**" (.unary "-" (.word "2")) (.word "2")) :=
    .binary {} (by decide) (.minus {} (by decide) (by decide +kernel))
      (.word {} (by decide) (by decide))
  have hsource : Code.source (.binary {} "**" (.text {} ("-" ++ "2")) (.text {} "2")) =
      "-2 ** 2" := by decide +kernel
  rw [htext, ← hsource] at hy
  have hwritable := ((reads_source hcode y).mp hy).2
  cases hwritable

end BlockProgram
