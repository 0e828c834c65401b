import BlockProgram.Code.Layout
import BlockProgram.Text.Identifier
import Mathlib.Tactic.ByContra

/-!
# The grammar of operators

An expression of words, binary operators and `!` is read in two steps. `tokens` cuts its text at the
longest words and symbols. `Derives` is the grammar of the tokens: one level for each precedence,
and above them the operands of `!`, which are words, negations and expressions in parentheses. On
the side to which an operator associates its operand is of its own level, on the other side it is of
a higher one.

`parse` climbs through the levels. It finds every expression that the grammar derives
(`parse_of_reads`), so there is at most one.
-/

namespace BlockProgram

open Code List

/-- An expression of words, binary operators and `!`. -/
inductive Expr where
  | word (s : String)
  | binary (op : String) (left right : Expr)
  | not (operand : Expr)
deriving Repr, DecidableEq

inductive Token where
  | word (s : String)
  | operator (op : String)
  | not
  | opening
  | closing
deriving Repr, DecidableEq

namespace Expr

/-! ## Words -/

/-- The characters of names: also all that are not in ASCII, except blanks. -/
def isWordChar (c : Char) : Bool :=
  (Text.isNameChar c || 127 < c.toNat) && !Text.isBlank c

def readWhile (p : Char → Bool) (cs : List Char) : List Char × List Char :=
  (cs.takeWhile p, cs.dropWhile p)

def readFraction : List Char → List Char × List Char
  | '.' :: r => ('.' :: (readWhile Char.isDigit r).1, (readWhile Char.isDigit r).2)
  | r => ([], r)

def readSign : List Char → List Char × List Char
  | '+' :: r => (['+'], r)
  | '-' :: r => (['-'], r)
  | r => ([], r)

/-- An exponent needs a digit. -/
def readExponent : List Char → List Char × List Char
  | [] => ([], [])
  | c :: r =>
    let sign := readSign r
    let digits := readWhile Char.isDigit sign.2
    if (c = 'e' ∨ c = 'E') ∧ digits.1 ≠ [] then (c :: sign.1 ++ digits.1, digits.2)
    else ([], c :: r)

/-- A number without a sign. -/
def readNumber (cs : List Char) : List Char × List Char :=
  let whole := readWhile Char.isDigit cs
  let fraction := readFraction whole.2
  let exponent := readExponent fraction.2
  (whole.1 ++ fraction.1 ++ exponent.1, exponent.2)

/-- The name or number in front, and the rest. -/
def readWord : List Char → Option (List Char × List Char)
  | [] => none
  | c :: r =>
    if isWordChar c ∧ ¬ c.isDigit then some (readWhile isWordChar (c :: r))
    else if c.isDigit ∨ (c = '.' ∧ r.head?.any Char.isDigit) then some (readNumber (c :: r))
    else none

/-- A single name or number. -/
def isWord (s : String) : Bool :=
  readWord s.toList == some (s.toList, [])

/-! ## Symbols -/

/-- The operators that have a precedence, none before one that it is the beginning of. -/
def operators : List String :=
  ["===", "!==", "+=", "-=", "||", "&&", "==", "!=", "<=", ">=", "<<", ">>", "**",
   "=", "<", ">", "+", "-", "*", "/", "%"]

def symbols : List (String × Token) :=
  operators.map (fun op => (op, .operator op)) ++ [("!", .not), ("(", .opening), (")", .closing)]

/-- The longest symbol in front, and the rest. -/
def readSymbol (cs : List Char) : Option (Token × List Char) :=
  symbols.findSome? fun (s, t) =>
    if s.toList.isPrefixOf cs then some (t, cs.drop s.toList.length) else none

theorem mem_operators_iff (op : String) : op ∈ operators ↔ precedence op < 10 := by
  constructor
  · exact (by decide : ∀ op ∈ operators, precedence op < 10) op
  · intro h
    unfold precedence at h
    unfold operators
    simp only [mem_cons, not_mem_nil, or_false] at h ⊢
    grind

/-- The word or symbol in front, and the rest. -/
def readToken (cs : List Char) : Option (Token × List Char) :=
  match readWord cs with
  | some (w, r) => some (.word (String.ofList w), r)
  | none => readSymbol cs

/-- Cuts a text into at most `fuel` blanks and tokens. -/
def tokensFrom : Nat → List Char → Option (List Token)
  | 0, _ => none
  | _ + 1, [] => some []
  | fuel + 1, c :: r =>
    if Text.isBlank c then tokensFrom fuel r
    else
      match readToken (c :: r) with
      | none => none
      | some (t, rest) => (tokensFrom fuel rest).map (t :: ·)

def tokens (text : String) : Option (List Token) :=
  tokensFrom (text.toList.length + 1) text.toList

/-! ## Grammar -/

/-- The level of the operands of `!`. -/
def tightest : Nat := 11

/-- The level of the left or the right operand of an operator. -/
def operandLevel (op : String) (isRight : Bool) : Nat :=
  if isRight = associatesRight op then precedence op else precedence op + 1

/-- The tokens are an expression of the given level or a higher one. -/
inductive Derives : Nat → List Token → Expr → Prop where
  | word (n : Nat) (s : String) : Derives n [.word s] (.word s)
  | not (n : Nat) {ts : List Token} {e : Expr} (h : Derives tightest ts e) :
      Derives n (.not :: ts) (.not e)
  | group (n : Nat) {ts : List Token} {e : Expr} (h : Derives 0 ts e) :
      Derives n (.opening :: (ts ++ [.closing])) e
  | binary {n : Nat} {op : String} {l r : List Token} {a b : Expr} (hn : n ≤ precedence op)
      (hl : Derives (operandLevel op false) l a) (hr : Derives (operandLevel op true) r b) :
      Derives n (l ++ .operator op :: r) (.binary op a b)

/-- An expression that a text stands for by the grammar. -/
def Reads (text : String) (e : Expr) : Prop :=
  ∃ ts, tokens text = some ts ∧ Derives 0 ts e

/-! ## Parsing -/

mutual

/-- The longest expression of level `n` in front, and the rest. -/
def climb : Nat → Nat → List Token → Option (Expr × List Token)
  | fuel + 1, n, .word s :: r => extend fuel n (.word s) r
  | fuel + 1, n, .not :: r =>
    match climb fuel tightest r with
    | some (e, r) => extend fuel n (.not e) r
    | none => none
  | fuel + 1, n, .opening :: r =>
    match climb fuel 0 r with
    | some (e, .closing :: r) => extend fuel n e r
    | _ => none
  | _, _, _ => none

/-- Goes on with the operators of level `n` or higher that follow the expression `l`. -/
def extend : Nat → Nat → Expr → List Token → Option (Expr × List Token)
  | 0, _, _, _ => none
  | fuel + 1, n, l, .operator op :: r =>
    if n ≤ precedence op then
      match climb fuel (operandLevel op true) r with
      | some (e, r) => extend fuel n (.binary op l e) r
      | none => none
    else some (l, .operator op :: r)
  | _ + 1, _, l, r => some (l, r)

end

def parseTokens (ts : List Token) : Option Expr :=
  match climb (ts.length + 1) 0 ts with
  | some (e, []) => some e
  | _ => none

def parse (text : String) : Option Expr :=
  (tokens text).bind parseTokens

/-! ## The parser follows the grammar -/

theorem precedence_le (op : String) : precedence op ≤ 10 := by
  unfold precedence
  repeat' split
  all_goals decide

theorem precedence_eq_nine_iff (op : String) : precedence op = 9 ↔ op = "**" := by
  constructor
  · intro h
    by_contra hne
    unfold precedence at h
    rw [if_neg hne] at h
    repeat' split at h
    all_goals exact absurd h (by decide)
  · rintro rfl
    decide

/-- Operators of one level associate to one side. -/
theorem associatesRight_congr {op op' : String} (h : precedence op = precedence op') :
    associatesRight op = associatesRight op' := by
  have hpower : (op == "**") = (op' == "**") := by
    rw [Bool.eq_iff_iff, beq_iff_eq, beq_iff_eq, ← precedence_eq_nine_iff,
      ← precedence_eq_nine_iff, h]
  unfold associatesRight
  rw [hpower, h]

/-- With a token of fuel to spare, the parser reads an expression of level `n` and stops at
`res`. -/
def Climbs (n : Nat) (ts : List Token) (res : Expr × List Token) : Prop :=
  ∀ fuel, ts.length < fuel → climb fuel n ts = some res

/-- With a token of fuel to spare, the parser goes on from `l` and stops at `res`. -/
def GoesOn (n : Nat) (l : Expr) (ts : List Token) (res : Expr × List Token) : Prop :=
  ∀ fuel, ts.length < fuel → extend fuel n l ts = some res

/-- The operator in front, if there is one, does not belong to an expression of level `n`, unless it
comes after one. -/
def Stops (n : Nat) (rest : List Token) : Prop :=
  ∀ op r, rest = .operator op :: r →
    precedence op < n ∨ (precedence op = n ∧ associatesRight op = false)

variable {n m : Nat} {e l : Expr} {ts rest r : List Token} {res : Expr × List Token} {op : String}

/-- One step of fuel goes with one token. -/
theorem forall_fuel_cons {P : Nat → Prop} {t : Token} (h : ∀ fuel, r.length < fuel → P (fuel + 1)) :
    ∀ fuel, (t :: r).length < fuel → P fuel := by
  rintro (_ | fuel) hf
  · cases hf
  · exact h fuel (by simpa using hf)

theorem climbs_word {s : String} (h : GoesOn n (.word s) r res) : Climbs n (.word s :: r) res := by
  refine forall_fuel_cons fun fuel hr => ?_
  rw [climb]
  exact h fuel hr

theorem climbs_not (h : Climbs tightest r (e, rest)) (hle : rest.length ≤ r.length)
    (hgo : GoesOn n (.not e) rest res) : Climbs n (.not :: r) res := by
  refine forall_fuel_cons fun fuel hr => ?_
  rw [climb, h fuel hr]
  exact hgo fuel (by omega)

theorem climbs_group (h : Climbs 0 r (e, .closing :: rest)) (hle : rest.length < r.length)
    (hgo : GoesOn n e rest res) : Climbs n (.opening :: r) res := by
  refine forall_fuel_cons fun fuel hr => ?_
  rw [climb, h fuel hr]
  exact hgo fuel (by omega)

theorem goesOn_binary (hn : n ≤ precedence op) (h : Climbs (operandLevel op true) r (e, rest))
    (hle : rest.length ≤ r.length) (hgo : GoesOn n (.binary op l e) rest res) :
    GoesOn n l (.operator op :: r) res := by
  refine forall_fuel_cons fun fuel hr => ?_
  rw [extend, if_pos hn, h fuel hr]
  exact hgo fuel (by omega)

theorem goesOn_stop (h : ∀ op r, rest = .operator op :: r → precedence op < n) :
    GoesOn n l rest (l, rest) := by
  rintro (_ | fuel) hf
  · cases hf
  match rest with
  | [] | .word _ :: _ | .not :: _ | .opening :: _ | .closing :: _ => rw [extend]; simp
  | .operator op :: r =>
    have hop := h op r rfl
    rw [extend, if_neg (by omega)]

/-- What the parser does after an expression of level `n` is what it does from there on. The rest
decides where it stops, so the induction on the derivation leaves it open. -/
theorem climbs_of_derives (h : Derives n ts e) :
    ∀ m rest res, m ≤ n → Stops n rest → GoesOn m e rest res → Climbs m (ts ++ rest) res := by
  induction h with
  | word n s => exact fun m rest res _ _ hgo => climbs_word hgo
  | not n h ih =>
    intro m rest res _ _ hgo
    refine climbs_not (ih tightest rest _ (Nat.le_refl _) ?_ (goesOn_stop ?_)) (by simp) hgo
    iterate 2
      intro op r _
      have := precedence_le op
      unfold tightest
      omega
  | @group n ts e h ih =>
    intro m rest res _ _ hgo
    rw [cons_append, append_assoc]
    refine climbs_group (ih 0 (.closing :: rest) _ (Nat.le_refl _) ?_ (goesOn_stop ?_)) ?_ hgo
    · exact fun _ _ hr => by cases hr
    · exact fun _ _ hr => by cases hr
    · simp only [singleton_append, length_append, length_cons]
      omega
  | @binary n op l r a b hn hl hr ihl ihr =>
    intro m rest res hm hstop hgo
    rw [append_assoc, cons_append]
    have hbelow : ∀ o t, rest = .operator o :: t → precedence o < operandLevel op true := by
      intro o t ho
      unfold operandLevel
      rcases hstop o t ho with hlt | ⟨heq, hassoc⟩
      · split <;> omega
      · -- an operator of the same level associates to the same side
        split
        · next hright =>
          rcases Nat.lt_or_ge (precedence o) (precedence op) with hlt | hge
          · exact hlt
          · have hsame : associatesRight o = associatesRight op :=
              associatesRight_congr (by omega)
            rw [hassoc, ← hright] at hsame
            cases hsame
        · omega
    refine ihl m _ res ?_ ?_ (goesOn_binary (Nat.le_trans hm hn) ?_ (by simp) hgo)
    · unfold operandLevel
      split <;> omega
    · intro o t ho
      cases ho
      unfold operandLevel
      split
      · next hleft => exact .inr ⟨rfl, hleft.symm⟩
      · exact .inl (Nat.lt_succ_self _)
    · exact ihr _ _ _ (Nat.le_refl _) (fun o t ho => .inl (hbelow o t ho)) (goesOn_stop hbelow)

theorem parseTokens_of_derives (h : Derives 0 ts e) : parseTokens ts = some e := by
  have hend : GoesOn 0 e [] (e, []) := goesOn_stop fun _ _ hr => by cases hr
  have hclimb := climbs_of_derives h 0 [] (e, []) (Nat.le_refl _) (fun _ _ hr => by cases hr) hend
  rw [append_nil] at hclimb
  unfold parseTokens
  rw [hclimb _ (Nat.lt_succ_self _)]

/-- What the grammar derives is what the parser finds. -/
theorem parse_of_reads {text : String} (h : Reads text e) : parse text = some e := by
  obtain ⟨ts, hts, hd⟩ := h
  unfold parse
  rw [hts]
  exact parseTokens_of_derives hd

end Expr

end BlockProgram
