import BlockProgram.Proofs.Code.Grammar
import BlockProgram.Proofs.Code.SourceMap
import BlockProgram.Proofs.Text.Identifier

/-!
# Written operators are read back

Code of words, binary operators and `!` is written with as few parentheses as the precedences of an
operator and of its operand ask for. The text is read back as the expression that was written, and
as no other (`parse_source`): in particular different expressions are never written alike.
-/

namespace BlockProgram

open List

namespace Expr

/-! ## Tokens one after another -/

def Lexes (cs : List Char) (ts : List Token) : Prop :=
  ∀ fuel, cs.length < fuel → tokensFrom fuel cs = some ts

theorem lexes_nil : Lexes [] [] := by
  rintro (_ | fuel) hf
  · omega
  rfl

variable {cs r rest : List Char} {ts : List Token} {t : Token} {s : String}

theorem Lexes.blank (h : Lexes r ts) : Lexes (' ' :: r) ts := by
  rintro (_ | fuel) hf
  · omega
  exact h fuel (by simpa using hf)

theorem Lexes.token {c : Char} (hc : Text.isBlank c = false)
    (hr : readToken (c :: r) = some (t, rest))
    (hle : rest.length ≤ r.length) (h : Lexes rest ts) : Lexes (c :: r) (t :: ts) := by
  rintro (_ | fuel) hf
  · omega
  have hlen : rest.length < fuel := by
    rw [length_cons] at hf
    omega
  rw [tokensFrom, hc, hr]
  simp [h fuel hlen]

theorem tokens_of_lexes {text : String} (h : Lexes text.toList ts) : tokens text = some ts :=
  h _ (Nat.lt_succ_self _)

/-! ## Words end where they did -/

/-- The text begins with nothing that a word could go on with. -/
def EndsWord (rest : List Char) : Prop :=
  ∀ c, rest.head? = some c → c = ' ' ∨ c = ')'

theorem append_ne_equals (h : ∀ r, cs ≠ '=' :: r) (hrest : EndsWord rest) :
    ∀ r, cs ++ rest ≠ '=' :: r := by
  intro r hr
  rcases append_eq_cons_iff.mp hr with ⟨_, hr⟩ | ⟨cs', rfl, _⟩
  · rcases hrest '=' (by rw [hr, head?_cons]) with hc | hc <;> exact absurd hc (by decide)
  · exact h cs' rfl

/-- A reader takes nothing of what follows. -/
def Leaves (read : List Char → List Char × List Char) (rest : List Char) : Prop :=
  ∀ cs, read (cs ++ rest) = ((read cs).1, (read cs).2 ++ rest)

theorem leaves_readWhile (p : Char → Bool) (hrest : EndsWord rest) (hblank : p ' ' = false)
    (hclosing : p ')' = false) : Leaves (readWhile p) rest := by
  intro cs
  induction cs with
  | nil =>
    cases rest with
    | nil => rfl
    | cons c r =>
      have hc : p c = false := by
        rcases hrest c rfl with rfl | rfl
        · exact hblank
        · exact hclosing
      simp [readWhile, hc]
  | cons c cs ih =>
    by_cases hc : p c = true
    · simp only [readWhile, Prod.mk.injEq] at ih
      simp [readWhile, hc, ih]
    · simp [readWhile, hc]

section

variable (hrest : EndsWord rest)
include hrest

theorem leaves_readDigits : Leaves (readWhile Char.isDigit) rest :=
  leaves_readWhile _ hrest (by decide) (by decide)

theorem leaves_readFraction : Leaves readFraction rest := by
  intro cs
  match cs with
  | [] =>
    match rest, hrest with
    | [], _ => rfl
    | c :: r, hrest => rcases hrest c rfl with rfl | rfl <;> rfl
  | c :: cs =>
    by_cases hc : c = '.'
    · subst hc
      simp [readFraction, leaves_readDigits hrest cs]
    · simp [readFraction, hc]

theorem leaves_readSign : Leaves readSign rest := by
  intro cs
  match cs with
  | [] =>
    match rest, hrest with
    | [], _ => rfl
    | c :: r, hrest => rcases hrest c rfl with rfl | rfl <;> rfl
  | c :: cs =>
    by_cases hplus : c = '+'
    · subst hplus
      rfl
    · by_cases hminus : c = '-'
      · subst hminus
        rfl
      · simp [readSign, hplus, hminus]

theorem leaves_readExponent : Leaves readExponent rest := by
  intro cs
  match cs with
  | [] =>
    match rest, hrest with
    | [], _ => rfl
    | c :: r, hrest => rcases hrest c rfl with rfl | rfl <;> simp [readExponent]
  | c :: cs =>
    simp only [cons_append, readExponent, leaves_readSign hrest cs, leaves_readDigits hrest _]
    split <;> rfl

theorem leaves_readNumber : Leaves readNumber rest := by
  intro cs
  simp only [readNumber, leaves_readDigits hrest cs, leaves_readFraction hrest _,
    leaves_readExponent hrest _]

theorem readWord_append {w : List Char} (h : readWord cs = some (w, r)) :
    readWord (cs ++ rest) = some (w, r ++ rest) := by
  match cs with
  | [] => cases h
  | c :: cs =>
    have hhead : (cs ++ rest).head?.any Char.isDigit = cs.head?.any Char.isDigit := by
      match cs, rest, hrest with
      | _ :: _, _, _ => rfl
      | [], [], _ => rfl
      | [], c :: r, hrest => rcases hrest c rfl with rfl | rfl <;> rfl
    have hname := leaves_readWhile isWordChar hrest (by decide) (by decide) (c :: cs)
    have hnumber := leaves_readNumber hrest (c :: cs)
    rw [cons_append] at hname hnumber ⊢
    rw [readWord] at h ⊢
    rw [hhead, hname, hnumber]
    split at h
    · next hc =>
      rw [if_pos hc]
      simp_all
    · next hc =>
      rw [if_neg hc]
      split at h
      · next hd =>
        rw [if_pos hd]
        simp_all
      · cases h

/-! ## Tokens of code -/

theorem readToken_word (hs : isWord s = true) :
    readToken (s.toList ++ rest) = some (.word s, rest) := by
  have hword : readWord s.toList = some (s.toList, []) := by simpa [isWord] using hs
  unfold readToken
  rw [readWord_append hrest hword]
  simp

end

/-- A word begins with no blank and no equals sign. -/
theorem head_of_isWord (hs : isWord s = true) :
    ∃ c r, s.toList = c :: r ∧ Text.isBlank c = false ∧ c ≠ '=' := by
  have hword : readWord s.toList = some (s.toList, []) := by simpa [isWord] using hs
  match hcs : s.toList with
  | [] =>
    rw [hcs] at hword
    cases hword
  | c :: r =>
    rw [hcs, readWord] at hword
    refine ⟨c, r, rfl, ?_⟩
    split at hword
    · next hc =>
      refine ⟨by simpa using (Bool.and_eq_true_iff.mp hc.1).2, ?_⟩
      rintro rfl
      exact absurd hc.1 (by decide)
    · split at hword
      · next hd =>
        rcases hd with hd | ⟨rfl, _⟩
        · refine ⟨Text.isBlank_of_isNameChar (Text.isNameChar_of_isDigit hd), ?_⟩
          rintro rfl
          exact absurd hd (by decide)
        · exact ⟨by decide, by decide⟩
      · cases hword

theorem head_of_mem_operators {op : String} (h : op ∈ operators) :
    ∃ c r, op.toList = c :: r ∧ Text.isBlank c = false := by
  have hhead := (by decide : ∀ op ∈ operators, (op.toList.head?.all Text.isBlank) = false) op h
  match hcs : op.toList with
  | [] =>
    rw [hcs] at hhead
    cases hhead
  | c :: r =>
    rw [hcs] at hhead
    exact ⟨c, r, rfl, hhead⟩

theorem readToken_operator {op : String} (h : op ∈ operators) (r : List Char) :
    readToken (op.toList ++ ' ' :: r) = some (.operator op, ' ' :: r) := by
  simp only [operators, mem_cons, not_mem_nil, or_false] at h
  rcases h with rfl | rfl | rfl | rfl | rfl | rfl | rfl | rfl | rfl | rfl | rfl | rfl | rfl | rfl |
    rfl | rfl | rfl | rfl | rfl | rfl | rfl <;> rfl

theorem readToken_not (h : ∀ r, cs ≠ '=' :: r) : readToken ('!' :: cs) = some (.not, cs) := by
  match cs with
  | [] => rfl
  | c :: r =>
    have hc : ¬ '=' = c := by
      rintro rfl
      exact h r rfl
    have hw : readWord ('!' :: c :: r) = none := rfl
    simp [readToken, hw, readSymbol, symbols, operators, hc]

theorem readToken_opening (cs : List Char) : readToken ('(' :: cs) = some (.opening, cs) := rfl

theorem readToken_closing (cs : List Char) : readToken (')' :: cs) = some (.closing, cs) := rfl

/-! ## Tokens of expressions -/

/-- How tightly the outermost operator binds. -/
def level : Expr → Nat
  | .binary op _ _ => Code.precedence op
  | .word _ | .not _ => tightest

def enclosed (wrap : Bool) (ts : List Token) : List Token :=
  if wrap then .opening :: (ts ++ [.closing]) else ts

/-- The tokens of an expression, with parentheses around the operands whose level is too low. -/
def written : Expr → List Token
  | .word s => [.word s]
  | .binary op l r =>
    enclosed (l.level < operandLevel op false) l.written ++
      .operator op :: enclosed (r.level < operandLevel op true) r.written
  | .not e => .not :: enclosed (e.level < tightest) e.written

theorem derives_enclosed {e : Expr} (h : ∀ n, n ≤ e.level → Derives n e.written e) (n : Nat) :
    Derives n (enclosed (e.level < n) e.written) e := by
  unfold enclosed
  split
  · exact Derives.group n (h 0 (Nat.zero_le _))
  · next hn => exact h n (by simpa using hn)

/-- An expression is derived from its tokens at every level up to its own. -/
theorem derives_written (e : Expr) : ∀ n, n ≤ e.level → Derives n e.written e := by
  induction e with
  | word s => exact fun n _ => Derives.word n s
  | binary op l r ihl ihr =>
    exact fun n hn => Derives.binary hn (derives_enclosed ihl _) (derives_enclosed ihr _)
  | not e ih => exact fun n _ => Derives.not n (derives_enclosed ih _)

/-! ## Text of expressions -/

/-- The characters are cut into these tokens wherever they stand as an operand. -/
structure Spells (cs : List Char) (ts : List Token) : Prop where
  lexes : ∀ rest more, EndsWord rest → Lexes rest more → Lexes (cs ++ rest) (ts ++ more)
  head : ∀ r, cs ≠ '=' :: r

theorem spells_word (hs : isWord s = true) : Spells s.toList [.word s] := by
  obtain ⟨c, r, hcr, hblank, hne⟩ := head_of_isWord hs
  constructor
  · intro rest more hrest hmore
    have hread := readToken_word hrest hs
    rw [hcr, cons_append] at hread ⊢
    exact Lexes.token hblank hread (by simp) hmore
  · intro r' h
    rw [hcr] at h
    exact hne (List.cons.inj h).1

theorem Spells.parenthesized (h : Spells cs ts) :
    Spells ('(' :: (cs ++ [')'])) (.opening :: (ts ++ [.closing])) := by
  constructor
  · intro rest more _ hmore
    have hclosing : Lexes (')' :: rest) (.closing :: more) :=
      Lexes.token (by decide) (readToken_closing rest) (Nat.le_refl _) hmore
    have hinner := h.lexes (')' :: rest) (.closing :: more) (by simp [EndsWord]) hclosing
    have hwhole := Lexes.token (by decide) (readToken_opening _) (Nat.le_refl _) hinner
    simpa using hwhole
  · intro r hr
    exact absurd (List.cons.inj hr).1 (by decide)

theorem Spells.wrapped {w : Written} (h : Spells w.text.toList ts) (wrap : Bool) :
    Spells (Code.wrapped wrap w).text.toList (enclosed wrap ts) := by
  cases wrap with
  | false => exact h
  | true => simpa [Code.wrapped, enclosed] using h.parenthesized

theorem Spells.not (h : Spells cs ts) : Spells ('!' :: cs) (.not :: ts) := by
  constructor
  · intro rest more hrest hmore
    have hread := readToken_not (append_ne_equals h.head hrest)
    exact Lexes.token (by decide) hread (Nat.le_refl _) (h.lexes rest more hrest hmore)
  · intro r hr
    exact absurd (List.cons.inj hr).1 (by decide)

theorem Spells.binary {op : String} (hop : op ∈ operators) {ds : List Char} {us : List Token}
    (hl : Spells cs ts) (hr : Spells ds us) :
    Spells (cs ++ ' ' :: (op.toList ++ ' ' :: ds)) (ts ++ .operator op :: us) := by
  obtain ⟨c, r, hcr, hblank⟩ := head_of_mem_operators hop
  constructor
  · intro rest more hrest hmore
    have hright : Lexes (' ' :: (ds ++ rest)) (us ++ more) := (hr.lexes rest more hrest hmore).blank
    have hop' : Lexes (op.toList ++ ' ' :: (ds ++ rest)) (.operator op :: (us ++ more)) := by
      have hread := readToken_operator hop (ds ++ rest)
      rw [hcr, cons_append] at hread ⊢
      exact Lexes.token hblank hread (by simp) hright
    have hwhole := hl.lexes _ _ (by simp [EndsWord]) hop'.blank
    simpa using hwhole
  · exact append_ne_equals hl.head (by simp [EndsWord])

end Expr

/-! ## Code -/

namespace Code

/-- The expression that code of words, `!` and binary operators with a precedence is, without the
tags. -/
def expr? : Code → Option Expr
  | .text _ s => if Expr.isWord s then some (.word s) else none
  | .binary _ op l r =>
    if precedence op < 10 then
      match l.expr?, r.expr? with
      | some a, some b => some (.binary op a b)
      | _, _ => none
    else none
  | .unary _ op c => if op = "!" then c.expr?.map .not else none
  | .group .. | .block .. => none

variable {c l r : Code} {e : Expr} {t : Tag} {op s : String}

theorem expr?_text (h : (Code.text t s).expr? = some e) : Expr.isWord s = true ∧ e = .word s := by
  rw [expr?] at h
  split at h
  · next hs => exact ⟨hs, (Option.some.inj h).symm⟩
  · cases h

theorem expr?_binary (h : (Code.binary t op l r).expr? = some e) :
    op ∈ Expr.operators ∧ ∃ a b, l.expr? = some a ∧ r.expr? = some b ∧ e = .binary op a b := by
  rw [expr?] at h
  split at h
  · next hop =>
    split at h
    · next a b ha hb => exact ⟨(Expr.mem_operators_iff op).mpr hop, a, b, ha, hb,
        (Option.some.inj h).symm⟩
    · cases h
  · cases h

theorem expr?_unary (h : (Code.unary t op c).expr? = some e) :
    op = "!" ∧ ∃ a, c.expr? = some a ∧ e = .not a := by
  rw [expr?] at h
  split at h
  · next hop =>
    obtain ⟨a, ha, rfl⟩ := Option.map_eq_some_iff.mp h
    exact ⟨hop, a, ha, rfl⟩
  · cases h

/-! ## Parentheses -/

theorem operandLevel_le (op : String) (isRight : Bool) :
    Expr.operandLevel op isRight ≤ Expr.tightest := by
  have := Expr.precedence_le op
  unfold Expr.operandLevel Expr.tightest
  split <;> omega

/-- How tightly the outermost operator binds: all but binary operators count as words. -/
def level : Code → Nat
  | .binary _ op _ _ => precedence op
  | .text .. | .unary .. | .group .. | .block .. => Expr.tightest

/-- An operand stands in parentheses when its level is too low for its place. -/
theorem needsParentheses_eq (op : String) (isRight : Bool) (c : Code) :
    needsParentheses op isRight c = decide (c.level < Expr.operandLevel op isRight) := by
  have hle := operandLevel_le op isRight
  rw [Bool.eq_iff_iff, decide_eq_true_iff]
  cases c with
  | binary t inner l r =>
    simp only [needsParentheses, level, Expr.operandLevel]
    by_cases hprec : precedence inner = precedence op
    · by_cases hside : isRight = associatesRight op <;> simp [hprec, hside]
    · rw [if_neg hprec, decide_eq_true_iff]
      split <;> omega
  | text | unary | group | block => simpa [needsParentheses, level] using hle

theorem isBinary_eq (c : Code) : isBinary c = decide (c.level < Expr.tightest) := by
  cases c with
  | binary t op l r =>
    simp [isBinary, level, Expr.tightest, Nat.lt_succ_of_le (Expr.precedence_le op)]
  | text | unary | group | block => simp [isBinary, level]

theorem level_eq (h : c.expr? = some e) : c.level = e.level := by
  cases c with
  | text t s =>
    obtain ⟨-, rfl⟩ := expr?_text h
    rfl
  | unary t o c =>
    obtain ⟨-, a, -, rfl⟩ := expr?_unary h
    rfl
  | binary t op l r =>
    obtain ⟨-, a, b, -, -, rfl⟩ := expr?_binary h
    rfl
  | group t ps => simp [expr?] at h
  | block t ss => simp [expr?] at h

/-! ## Reading back -/

theorem spells_write : (c : Code) → {e : Expr} → c.expr? = some e → (depth start : Nat) →
    Expr.Spells (write depth start c).text.toList e.written
  | .text t s, e, h, depth, start => by
    obtain ⟨hs, rfl⟩ := expr?_text h
    rw [write, record_text]
    exact Expr.spells_word hs
  | .binary t op l r, e, h, depth, start => by
    obtain ⟨hop, a, b, ha, hb, rfl⟩ := expr?_binary h
    have hl := fun n wrap => (spells_write l ha depth n).wrapped wrap
    have hr := fun n wrap => (spells_write r hb depth n).wrapped wrap
    have hboth := fun m v n w => Expr.Spells.binary hop (hl m v) (hr n w)
    rw [write, record_text]
    simp only [needsParentheses_eq, level_eq ha, level_eq hb]
    simpa [Expr.written] using hboth _ _ _ _
  | .unary t op c, e, h, depth, start => by
    obtain ⟨rfl, a, ha, rfl⟩ := expr?_unary h
    have hc := fun n wrap => (spells_write c ha depth n).wrapped wrap
    rw [write, record_text, isBinary_eq, level_eq ha]
    simpa [Expr.written] using (hc _ _).not
  | .group .., _, h, _, _ => by simp [expr?] at h
  | .block .., _, h, _, _ => by simp [expr?] at h

theorem reads_source (h : c.expr? = some e) : Expr.Reads c.source e := by
  have hlex := (spells_write c h 0 0).lexes [] [] (by simp [Expr.EndsWord]) Expr.lexes_nil
  rw [append_nil, append_nil] at hlex
  exact ⟨e.written, Expr.tokens_of_lexes hlex, Expr.derives_written e 0 (Nat.zero_le _)⟩

/-- Code of words, binary operators and `!` is read back as the expression it is, and as no other.
So different expressions are written differently. -/
theorem parse_source (c : Code) (e : Expr) (h : c.expr? = some e) :
    Expr.parse c.source = some e ∧ (∀ e', Expr.Reads c.source e' ↔ e' = e) ∧
      ∀ (d : Code) (f : Expr), d.expr? = some f → d.source = c.source → f = e := by
  have hparse := Expr.parse_of_reads (reads_source h)
  have honly : ∀ e', Expr.Reads c.source e' → e' = e := by
    intro e' he'
    have hparse' := Expr.parse_of_reads he'
    rw [hparse] at hparse'
    exact (Option.some.inj hparse').symm
  refine ⟨hparse, fun e' => ⟨honly e', ?_⟩, ?_⟩
  · rintro rfl
    exact reads_source h
  · intro d f hd hsource
    refine honly f ?_
    rw [← hsource]
    exact reads_source hd

/-- Powers to the right and differences to the left, with a negation of a comparison between. -/
theorem parse_source_mixed :
    ∃ (c : Code) (e : Expr), c.expr? = some e ∧
      c.source = "x = (a ** b) ** !(n1 < 1.5e-7) - (d - !!_f)" ∧ Expr.parse c.source = some e := by
  refine ⟨.binary {} "=" (.text { id := some "v" } "x") (.binary { id := some "m" } "-"
      (.binary {} "**" (.binary {} "**" (.text {} "a") (.text {} "b"))
        (.unary {} "!" (.binary { id := some "l" } "<" (.text {} "n1") (.text {} "1.5e-7"))))
      (.binary {} "-" (.text {} "d") (.unary {} "!" (.unary {} "!" (.text {} "_f"))))),
    _, rfl, by decide, (parse_source _ _ rfl).1⟩

end Code

end BlockProgram
