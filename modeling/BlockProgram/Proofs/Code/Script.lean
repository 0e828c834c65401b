import BlockProgram.Proofs.Code.Reading

/-!
# Operators of the target language

The generated program is ECMAScript. The tokens of its expressions are words and punctuators, the
longest ones that fit (`Cuts`). `Term.Fits` is the grammar of operators over them: binary operators
by level, above them unary operators, and above these words and expressions in parentheses. A power
stands between: its exponent may be a power or a unary expression, its base must be a word or stand
in parentheses.

A text has at most one parse (`eq_of_tokens_eq`). What `Code.write` makes of operators is read as
the operators that were written, unless a unary expression is the base of a power: it stands there
without parentheses, and the text has no parse at all (`reads_source`).
-/

namespace BlockProgram.Script

open Code List

variable {n : Nat} {e : Term} {op s : String}

/-- An expression of words and operators, with its parentheses. -/
inductive Term where
  | word (s : String)
  | group (e : Term)
  | unary (op : String) (operand : Term)
  | binary (op : String) (left right : Term)
deriving Repr, DecidableEq

inductive Token where
  | word (s : String)
  | mark (s : String)
deriving Repr, DecidableEq

/-! ## Tokens -/

/-- The punctuators and the beginnings of comments, none before one that it is the beginning of. -/
def marks : List String :=
  [">>>=", "===", "!==", "**=", "<<=", ">>=", ">>>", "&&=", "||=", "??=", "...",
   "==", "!=", "=>", "<=", ">=", "<<", ">>", "++", "--", "+=", "-=", "**", "*=", "//", "/*", "/=",
   "%=", "&&", "&=", "||", "|=", "^=", "??", "?.",
   "=", "<", ">", "+", "-", "*", "/", "%", "&", "|", "^", "~", "!", "?", ":", ";", ",", ".",
   "(", ")", "[", "]", "\x7b", "\x7d"]

/-- The blank, word or punctuator in front, and the rest. -/
def next : List Char → Option (Option Token × List Char)
  | [] => none
  | c :: r =>
    if Text.isBlank c then some (none, r)
    else
      match Expr.readWord (c :: r) with
      | some (w, rest) => some (some (.word (String.ofList w)), rest)
      | none => marks.findSome? fun s =>
          if s.toList.isPrefixOf (c :: r) then
            some (some (.mark s), (c :: r).drop s.toList.length)
          else none

/-- The characters are cut into these tokens. -/
inductive Cuts : List Char → List Token → Prop where
  | nil : Cuts [] []
  | step {cs r : List Char} {t : Option Token} {ts : List Token} (h : next cs = some (t, r))
      (hr : Cuts r ts) : Cuts cs (t.toList ++ ts)

theorem Cuts.unique {cs : List Char} {ts us : List Token} (h : Cuts cs ts) (h' : Cuts cs us) :
    ts = us := by
  induction h generalizing us with
  | nil =>
    cases h' with
    | nil => rfl
    | step h _ => cases h
  | step h _ ih =>
    cases h' with
    | nil => cases h
    | step h' hr' =>
      rw [h] at h'
      cases h'
      rw [ih hr']

/-! ## Grammar -/

namespace Term

def tokens : Term → List Token
  | .word s => [.word s]
  | .group e => .mark "(" :: (e.tokens ++ [.mark ")"])
  | .unary op e => .mark op :: e.tokens
  | .binary op l r => l.tokens ++ .mark op :: r.tokens

/-- The operators without the parentheses. -/
def bare : Term → Term
  | .word s => .word s
  | .group e => e.bare
  | .unary op e => .unary op e.bare
  | .binary op l r => .binary op l.bare r.bare

end Term

/-- The binary operators with their levels and the levels of their right operands. -/
def operators : List (String × Nat × Nat) :=
  [("||", 2, 3), ("&&", 3, 4), ("==", 4, 5), ("!=", 4, 5), ("===", 4, 5), ("!==", 4, 5),
   ("<", 5, 6), (">", 5, 6), ("<=", 5, 6), (">=", 5, 6), ("<<", 6, 7), (">>", 6, 7), (">>>", 6, 7),
   ("+", 7, 8), ("-", 7, 8), ("*", 8, 9), ("/", 8, 9), ("%", 8, 9), ("**", 9, 9)]

def unaries : List String := ["!", "-", "+", "~"]

def unaryLevel : Nat := 10

def primaryLevel : Nat := 11

/-- Literals and names. -/
def isPrimary (s : String) : Bool :=
  s ∈ ["true", "false", "null"] || s ∉ Text.reservedWords

/-- The expression is of level `n` or a higher one, if the bases of powers are of level `base`. -/
inductive Term.Fits (base : Nat) : Nat → Term → Prop where
  | word (n : Nat) {s : String} (hs : isPrimary s = true) : Fits base n (.word s)
  | group (n : Nat) {e : Term} (h : Fits base 0 e) : Fits base n (.group e)
  | unary {n : Nat} {op : String} {e : Term} (hop : op ∈ unaries) (hn : n ≤ unaryLevel)
      (h : Fits base unaryLevel e) : Fits base n (.unary op e)
  | binary {n k j : Nat} {op : String} {l r : Term} (hop : (op, k, j) ∈ operators) (hn : n ≤ k)
      (hl : Fits base (if op = "**" then base else k) l) (hr : Fits base j r) :
      Fits base n (.binary op l r)

/-- The operators that a text stands for. -/
def Reads (text : String) (e : Term) : Prop :=
  ∃ t : Term, Cuts text.toList t.tokens ∧ t.Fits primaryLevel 0 ∧ t.bare = e

/-! ## At most one parse -/

theorem operator_unique {x y : String × Nat × Nat} (hx : x ∈ operators) (hy : y ∈ operators)
    (h : x.1 = y.1) : x = y :=
  (by decide : ∀ x ∈ operators, ∀ y ∈ operators, x.1 = y.1 → x = y) x hx y hy h

theorem operator_levels {k j : Nat} (hop : (op, k, j) ∈ operators) :
    op ≠ ")" ∧ k < unaryLevel ∧ (op = "**" ∧ k = 9 ∧ j = 9 ∨ op ≠ "**" ∧ k < 9 ∧ j = k + 1) :=
  (by decide : ∀ x ∈ operators, x.1 ≠ ")" ∧ x.2.1 < unaryLevel ∧
    (x.1 = "**" ∧ x.2.1 = 9 ∧ x.2.2 = 9 ∨ x.1 ≠ "**" ∧ x.2.1 < 9 ∧ x.2.2 = x.2.1 + 1)) _ hop

/-- No operator of level `n` or higher is in front. -/
def Stops (n : Nat) (rest : List Token) : Prop :=
  ∀ op k j r, (op, k, j) ∈ operators → rest = .mark op :: r → k < n

/-- The longest expression of level `n` in front and the rest, in front of which the expression
`left`, if there is one, has been read already. -/
inductive Climbs : Nat → (left : Option Term) → List Token → Term × List Token → Prop where
  | word {n : Nat} {s : String} {r : List Token} {res : Term × List Token}
      (h : Climbs n (some (.word s)) r res) : Climbs n none (.word s :: r) res
  | group {n : Nat} {e : Term} {r rest : List Token} {res : Term × List Token}
      (h : Climbs 0 none r (e, .mark ")" :: rest)) (hgo : Climbs n (some (.group e)) rest res) :
      Climbs n none (.mark "(" :: r) res
  | unary {n : Nat} {op : String} {e : Term} {r rest : List Token} {res : Term × List Token}
      (hop : op ∈ unaries) (h : Climbs unaryLevel none r (e, rest))
      (hgo : Climbs n (some (.unary op e)) rest res) : Climbs n none (.mark op :: r) res
  | binary {n k j : Nat} {op : String} {a b : Term} {r rest : List Token}
      {res : Term × List Token} (hop : (op, k, j) ∈ operators) (hn : n ≤ k)
      (h : Climbs j none r (b, rest)) (hgo : Climbs n (some (.binary op a b)) rest res) :
      Climbs n (some a) (.mark op :: r) res
  | stop {n : Nat} {a : Term} {rest : List Token} (h : Stops n rest) :
      Climbs n (some a) rest (a, rest)

theorem Climbs.unique {left : Option Term} {ts : List Token} {x y : Term × List Token}
    (hx : Climbs n left ts x) (hy : Climbs n left ts y) : x = y := by
  have hgroup : "(" ∉ unaries := by decide
  induction hx generalizing y with
  | word h ih =>
    cases hy with
    | word h' => exact ih h'
  | group h hgo ih ihgo =>
    cases hy with
    | group h' hgo' =>
      cases ih h'
      exact ihgo hgo'
    | unary hop => exact absurd hop hgroup
  | unary hop h hgo ih ihgo =>
    cases hy with
    | group => exact absurd hop hgroup
    | unary _ h' hgo' =>
      cases ih h'
      exact ihgo hgo'
  | binary hop hn h hgo ih ihgo =>
    cases hy with
    | binary hop' hn' h' hgo' =>
      cases operator_unique hop hop' rfl
      cases ih h'
      exact ihgo hgo'
    | stop h' => exact absurd (h' _ _ _ _ hop rfl) (Nat.not_lt_of_le hn)
  | stop h =>
    cases hy with
    | binary hop hn => exact absurd (h _ _ _ _ hop rfl) (Nat.not_lt_of_le hn)
    | stop => rfl

/-- The operator in front, if there is one, does not belong to an expression of level `n`, unless it
comes after one. -/
def Ends (n : Nat) (rest : List Token) : Prop :=
  ∀ op k j r, (op, k, j) ∈ operators → rest = .mark op :: r → k < n ∨ k = n ∧ j = n + 1

/-- What is read from an expression of level `n` on is what is read after it. The rest decides how
far that goes, so the induction on the expression leaves it open. -/
theorem climbs_tokens {base n : Nat} (hbase : unaryLevel ≤ base) (h : e.Fits base n) :
    ∀ m rest res, m ≤ n → Ends n rest → Climbs m (some e) rest res →
      Climbs m none (e.tokens ++ rest) res := by
  induction h with
  | word n => exact fun m rest res _ _ hgo => .word hgo
  | group n h ih =>
    intro m rest res _ _ hgo
    have hclosing : ∀ op k j r, (op, k, j) ∈ operators →
        Token.mark ")" :: rest ≠ .mark op :: r := by
      intro op k j r hop heq
      cases heq
      exact (operator_levels hop).1 rfl
    rw [Term.tokens, cons_append, append_assoc]
    refine .group (ih 0 (.mark ")" :: rest) _ (Nat.le_refl _) ?_ (.stop ?_)) hgo
    iterate 2 exact fun op k j r hop heq => absurd heq (hclosing op k j r hop)
  | unary hop hn h ih =>
    intro m rest res _ _ hgo
    have hbelow : Stops unaryLevel rest := fun op k j r hop _ => (operator_levels hop).2.1
    refine .unary hop (ih unaryLevel rest _ (Nat.le_refl _) ?_ (.stop hbelow)) hgo
    exact fun op k j r hop heq => .inl (hbelow op k j r hop heq)
  | @binary n k j op l r hop hn hl hr ihl ihr =>
    intro m rest res hm hends hgo
    obtain ⟨_, hk, hlevels⟩ := operator_levels hop
    -- the right operand stops where the whole does
    have hbelow : Stops j rest := by
      intro o k' j' t ho heq
      obtain ⟨_, _, hlevels'⟩ := operator_levels ho
      rcases hends o k' j' t ho heq with hlt | ⟨hk', hright⟩ <;>
        rcases hlevels with ⟨_, _, _⟩ | ⟨_, _, _⟩ <;>
        rcases hlevels' with ⟨_, _, _⟩ | ⟨_, _, _⟩ <;> omega
    rw [Term.tokens, append_assoc, cons_append]
    refine ihl m _ res ?_ ?_ (.binary hop (Nat.le_trans hm hn)
      (ihr j rest _ (Nat.le_refl _) (fun o k' j' t ho heq => .inl (hbelow o k' j' t ho heq))
        (.stop hbelow)) hgo)
    · split <;> omega
    · intro o k' j' t ho heq
      cases heq
      cases operator_unique ho hop rfl
      split
      · exact .inl (Nat.lt_of_lt_of_le hk hbase)
      · next hne =>
        rcases hlevels with ⟨heq, _⟩ | ⟨_, _, hj⟩
        · exact absurd heq hne
        · exact .inr ⟨rfl, hj⟩

theorem climbs_all {base : Nat} (hbase : unaryLevel ≤ base) (h : e.Fits base 0) :
    Climbs 0 none e.tokens (e, []) := by
  have hclimbs := climbs_tokens hbase h 0 [] (e, []) (Nat.le_refl _)
    (fun _ _ _ _ _ heq => by cases heq) (.stop fun _ _ _ _ _ heq => by cases heq)
  rwa [append_nil] at hclimbs

theorem eq_of_tokens_eq {b b' : Nat} (hb : unaryLevel ≤ b) (hb' : unaryLevel ≤ b') {e e' : Term}
    (he : e.Fits b 0) (he' : e'.Fits b' 0) (h : e.tokens = e'.tokens) : e = e' := by
  have hclimbs := climbs_all hb he
  rw [h] at hclimbs
  exact (Prod.mk.inj (hclimbs.unique (climbs_all hb' he'))).1

/-! ## Parentheses of code -/

namespace Term

/-- How tightly the outermost operator binds, as far as `Code.write` knows: it takes all but binary
operators for words. -/
def level : Term → Nat
  | .binary op _ _ => precedence op
  | .word _ | .group _ | .unary _ _ => Expr.tightest

def enclosed (wrap : Bool) (e : Term) : Term :=
  if wrap then .group e else e

/-- The expression with the parentheses that `Code.write` gives it. -/
def written : Term → Term
  | .word s => .word s
  | .group e => .group e.written
  | .unary op e => .unary op (enclosed (e.level < Expr.tightest) e.written)
  | .binary op l r =>
    .binary op (enclosed (l.level < Expr.operandLevel op false) l.written)
      (enclosed (r.level < Expr.operandLevel op true) r.written)

def isUnary : Term → Bool
  | .unary _ _ => true
  | _ => false

/-- No unary expression is the base of a power. -/
def isWritable : Term → Bool
  | .word _ => true
  | .group e => e.isWritable
  | .unary _ e => e.isWritable
  | .binary op l r => !(op == "**" && l.isUnary) && l.isWritable && r.isWritable

end Term

def infixes : List String :=
  ["+", "-", "*", "/", "**", "%", "<", "<=", ">", ">=", "&&", "||"]

/-- The code is made of names and numbers, binary operators, `!` and minus signs of words. -/
inductive Expresses : Code → Term → Prop where
  | word (t : Tag) {s : String} (hs : Expr.isWord s = true) (hp : isPrimary s = true) :
      Expresses (.text t s) (.word s)
  | minus (t : Tag) {s : String} (hs : Expr.isWord s = true) (hp : isPrimary s = true) :
      Expresses (.text t ("-" ++ s)) (.unary "-" (.word s))
  | not (t : Tag) {c : Code} {e : Term} (h : Expresses c e) :
      Expresses (.unary t "!" c) (.unary "!" e)
  | binary (t : Tag) {op : String} {l r : Code} {a b : Term} (hop : op ∈ infixes)
      (hl : Expresses l a) (hr : Expresses r b) : Expresses (.binary t op l r) (.binary op a b)

theorem infix_levels (hop : op ∈ infixes) :
    (op, precedence op, Expr.operandLevel op true) ∈ operators ∧
      precedence op < unaryLevel ∧ Expr.operandLevel op true ≤ unaryLevel ∧
      Expr.operandLevel op false = if op = "**" then unaryLevel else precedence op :=
  (by decide : ∀ op ∈ infixes, (op, precedence op, Expr.operandLevel op true) ∈ operators ∧
    precedence op < unaryLevel ∧ Expr.operandLevel op true ≤ unaryLevel ∧
    Expr.operandLevel op false = if op = "**" then unaryLevel else precedence op) op hop

/-- The level of an expression without parentheses around it. -/
def Term.grade : Term → Nat
  | .word _ | .group _ => primaryLevel
  | .unary _ _ => unaryLevel
  | .binary op _ _ => precedence op

theorem Term.le_grade (hn : n ≤ unaryLevel) (h : n ≤ e.level) : n ≤ e.grade := by
  cases e with
  | word | group => exact Nat.le_trans hn (Nat.le_succ _)
  | unary => exact hn
  | binary => exact h

section Parentheses

variable {base : Nat} {c : Code} {e : Term}

theorem fits_enclosed (h : ∀ n ≤ e.grade, e.written.Fits base n) {wrap : Bool}
    (hn : wrap = false → n ≤ e.grade) : (Term.enclosed wrap e.written).Fits base n := by
  cases wrap with
  | false => exact h n (hn rfl)
  | true => exact .group n (h 0 (Nat.zero_le _))

/-- What is written is an expression of the grammar, if unary expressions may be bases of powers or
none of them is. -/
theorem fits_written (h : Expresses c e)
    (hbase : base = unaryLevel ∨ base = primaryLevel ∧ e.isWritable = true) :
    ∀ n ≤ e.grade, e.written.Fits base n := by
  induction h with
  | word _ _ hp => exact fun n _ => .word n hp
  | minus _ _ hp => exact fun n hn => .unary (by decide) hn (.word _ hp)
  | not _ h ih =>
    refine fun n hn => .unary (by decide) hn (fits_enclosed (ih hbase) fun hwrap => ?_)
    rw [decide_eq_false_iff_not, Nat.not_lt] at hwrap
    exact Term.le_grade (Nat.le_refl _) (Nat.le_trans (Nat.le_succ _) hwrap)
  | @binary _ op l r a b hop hl hr ihl ihr =>
    intro n hn
    obtain ⟨hmem, hk, hj, hleft⟩ := infix_levels hop
    have hparts : (base = unaryLevel ∨ base = primaryLevel ∧ a.isWritable = true) ∧
        (base = unaryLevel ∨ base = primaryLevel ∧ b.isWritable = true) ∧
        (base = unaryLevel ∨ base = primaryLevel ∧ (op = "**" → a.isUnary = false)) := by
      simp only [Term.isWritable, Bool.and_eq_true, Bool.not_eq_true', Bool.and_eq_false_iff,
        beq_eq_false_iff_ne] at hbase
      grind
    refine .binary hmem hn (fits_enclosed (ihl hparts.1) fun hwrap => ?_)
      (fits_enclosed (ihr hparts.2.1) fun hwrap => ?_)
    · rw [decide_eq_false_iff_not, Nat.not_lt, hleft] at hwrap
      split
      · next hpower =>
        rw [if_pos hpower] at hwrap
        rcases hparts.2.2 with rfl | ⟨rfl, hnot⟩
        · exact Term.le_grade (Nat.le_refl _) hwrap
        · cases hl with
          | word => exact Nat.le_refl _
          | minus | not => cases hnot hpower
          | binary _ hop' => exact absurd hwrap (Nat.not_le_of_lt (infix_levels hop').2.1)
      · next hpower =>
        rw [if_neg hpower] at hwrap
        exact Term.le_grade (Nat.le_of_lt hk) hwrap
    · exact Term.le_grade hj (by simpa using hwrap)

theorem exists_fits_of_enclosed {wrap : Bool} (h : (Term.enclosed wrap e).Fits base n) :
    ∃ m, e.Fits base m := by
  cases wrap with
  | false => exact ⟨n, h⟩
  | true =>
    cases h with
    | group _ h => exact ⟨0, h⟩

/-- No parentheses are written around a unary expression, so it is no base of a power. -/
theorem isWritable_of_fits (h : Expresses c e) :
    ∀ n, e.written.Fits primaryLevel n → e.isWritable = true := by
  induction h with
  | word | minus => exact fun _ _ => rfl
  | not _ _ ih =>
    intro n hfits
    cases hfits with
    | unary _ _ hfits =>
      obtain ⟨m, hm⟩ := exists_fits_of_enclosed hfits
      exact ih m hm
  | @binary _ op l r a b hop hl _ ihl ihr =>
    intro n hfits
    cases hfits with
    | binary _ _ hfl hfr =>
      obtain ⟨m, hm⟩ := exists_fits_of_enclosed hfl
      obtain ⟨m', hm'⟩ := exists_fits_of_enclosed hfr
      have hbase : (op == "**" && a.isUnary) = false := by
        rw [Bool.and_eq_false_iff, beq_eq_false_iff_ne]
        by_cases hpower : op = "**"
        · subst hpower
          right
          cases hl with
          | word | binary => rfl
          | minus | not =>
            -- the base is written as it is, and its level is too low
            cases hfl with
            | unary _ hn =>
              rw [if_pos rfl] at hn
              exact absurd hn (by decide)
        · exact .inl hpower
      simp [Term.isWritable, hbase, ihl m hm, ihr m' hm']

end Parentheses

/-! ## Text of code -/

/-- The characters are cut into these tokens wherever they stand as an operand. -/
structure Spells (cs : List Char) (ts : List Token) : Prop where
  cuts : ∀ rest more, Expr.EndsWord rest → Cuts rest more → Cuts (cs ++ rest) (ts ++ more)
  head : ∀ r, cs ≠ '=' :: r

theorem next_word (hs : Expr.isWord s = true) {rest : List Char} (hrest : Expr.EndsWord rest) :
    next (s.toList ++ rest) = some (some (.word s), rest) := by
  obtain ⟨c, r, hcr, hblank, _⟩ := Expr.head_of_isWord hs
  have hword : Expr.readWord s.toList = some (s.toList, []) := by simpa [Expr.isWord] using hs
  have hread := Expr.readWord_append hrest hword
  rw [hcr, cons_append] at hread ⊢
  simp [next, hblank, hread, ← hcr]

theorem next_not {cs : List Char} (h : ∀ r, cs ≠ '=' :: r) :
    next ('!' :: cs) = some (some (.mark "!"), cs) := by
  match cs with
  | [] => rfl
  | c :: r =>
    have hc : ¬ '=' = c := by
      rintro rfl
      exact h r rfl
    have hword : Expr.readWord ('!' :: c :: r) = none := rfl
    have hblank : Text.isBlank '!' = false := by decide
    simp [next, hword, hblank, marks, hc]

theorem next_minus (hs : Expr.isWord s = true) (rest : List Char) :
    next ('-' :: (s.toList ++ rest)) = some (some (.mark "-"), s.toList ++ rest) := by
  obtain ⟨c, r, hcr, _⟩ := Expr.head_of_isWord hs
  unfold Expr.isWord at hs
  rw [hcr] at hs ⊢
  -- no mark begins like a word after its minus
  have hne : ¬ '=' = c ∧ ¬ '-' = c ∧ ¬ '>' = c := by
    refine ⟨?_, ?_, ?_⟩ <;>
    · rintro rfl
      cases hs
  have hword : Expr.readWord ('-' :: c :: (r ++ rest)) = none := rfl
  have hblank : Text.isBlank '-' = false := by decide
  simp [next, hword, hblank, marks, hne]

theorem next_operator (hop : op ∈ infixes) (r : List Char) :
    next (op.toList ++ ' ' :: r) = some (some (.mark op), ' ' :: r) := by
  simp only [infixes, mem_cons, not_mem_nil, or_false] at hop
  rcases hop with rfl | rfl | rfl | rfl | rfl | rfl | rfl | rfl | rfl | rfl | rfl | rfl <;> rfl

theorem Cuts.blank {r : List Char} {ts : List Token} (h : Cuts r ts) : Cuts (' ' :: r) ts :=
  .step (t := none) rfl h

section Text

variable {cs ds : List Char} {ts us : List Token}

theorem spells_word (hs : Expr.isWord s = true) : Spells s.toList [.word s] := by
  obtain ⟨c, r, hcr, _, hne⟩ := Expr.head_of_isWord hs
  refine ⟨fun rest more hrest hmore => .step (next_word hs hrest) hmore, fun r' h => ?_⟩
  rw [hcr] at h
  exact hne (List.cons.inj h).1

theorem spells_minus (hs : Expr.isWord s = true) :
    Spells ('-' :: s.toList) [.mark "-", .word s] := by
  refine ⟨fun rest more hrest hmore => ?_, fun r hr => absurd (List.cons.inj hr).1 (by decide)⟩
  exact .step (t := some _) (next_minus hs rest) ((spells_word hs).cuts rest more hrest hmore)

theorem Spells.enclosed {w : Written} (h : Spells w.text.toList e.tokens) (wrap : Bool) :
    Spells (wrapped wrap w).text.toList (Term.enclosed wrap e).tokens := by
  cases wrap with
  | false => exact h
  | true =>
    refine ⟨fun rest more _ hmore => ?_, fun r hr => ?_⟩
    · have hclosing : Cuts (')' :: rest) (.mark ")" :: more) := .step (t := some _) rfl hmore
      have hinner := h.cuts (')' :: rest) (.mark ")" :: more) (by simp [Expr.EndsWord]) hclosing
      have hwhole : Cuts ('(' :: _) (.mark "(" :: _) := .step (t := some _) rfl hinner
      simpa [wrapped, Term.enclosed, Term.tokens] using hwhole
    · simp [wrapped] at hr

theorem Spells.not (h : Spells cs ts) : Spells ('!' :: cs) (.mark "!" :: ts) := by
  refine ⟨fun rest more hrest hmore => ?_, fun r hr => absurd (List.cons.inj hr).1 (by decide)⟩
  exact .step (t := some _) (next_not (Expr.append_ne_equals h.head hrest))
    (h.cuts rest more hrest hmore)

theorem Spells.binary (hop : op ∈ infixes) (hl : Spells cs ts) (hr : Spells ds us) :
    Spells (cs ++ ' ' :: (op.toList ++ ' ' :: ds)) (ts ++ .mark op :: us) := by
  refine ⟨fun rest more hrest hmore => ?_, Expr.append_ne_equals hl.head (by simp [Expr.EndsWord])⟩
  have hright := (hr.cuts rest more hrest hmore).blank
  have hop' : Cuts (op.toList ++ ' ' :: (ds ++ rest)) (.mark op :: (us ++ more)) :=
    .step (t := some _) (next_operator hop _) hright
  have hwhole := hl.cuts _ _ (by simp [Expr.EndsWord]) hop'.blank
  simpa using hwhole

end Text

section Source

variable {c : Code} {e : Term}

theorem Expresses.level_eq (h : Expresses c e) : c.level = e.level := by
  cases h <;> rfl

theorem Expresses.bare_written (h : Expresses c e) : e.written.bare = e := by
  have henclosed : ∀ (wrap : Bool) (t : Term), (Term.enclosed wrap t).bare = t.bare := by
    intro wrap t
    cases wrap <;> rfl
  induction h with
  | word | minus => rfl
  | not _ _ ih => rw [Term.written, Term.bare, henclosed, ih]
  | binary _ _ _ _ ihl ihr => rw [Term.written, Term.bare, henclosed, henclosed, ihl, ihr]

theorem spells_write (h : Expresses c e) (depth start : Nat) :
    Spells (write depth start c).text.toList e.written.tokens := by
  induction h generalizing start with
  | word _ hs =>
    rw [write, record_text]
    exact spells_word hs
  | minus _ hs =>
    rw [write, record_text]
    simpa [Term.written, Term.tokens, Term.enclosed, Term.level] using spells_minus hs
  | not _ h ih =>
    have hc := fun n wrap => (ih n).enclosed wrap
    rw [write, record_text, isBinary_eq, h.level_eq]
    simpa [Term.written, Term.tokens] using (hc _ _).not
  | binary _ hop hl hr ihl ihr =>
    have hboth := fun m v n w => Spells.binary hop ((ihl m).enclosed v) ((ihr n).enclosed w)
    rw [write, record_text]
    simp only [needsParentheses_eq, hl.level_eq, hr.level_eq]
    simpa [Term.written, Term.tokens] using hboth _ _ _ _

/-- Written operators are read as they are, if no unary expression is the base of a power. The text
has no parse if one is. -/
theorem reads_source (h : Expresses c e) (e' : Term) :
    Reads c.source e' ↔ e' = e ∧ e.isWritable = true := by
  have hcuts := (spells_write h 0 0).cuts [] [] (by simp [Expr.EndsWord]) .nil
  rw [append_nil, append_nil] at hcuts
  constructor
  · rintro ⟨t, ht, hfits, rfl⟩
    have hloose := fits_written h (.inl rfl) 0 (Nat.zero_le _)
    have heq := eq_of_tokens_eq (Nat.le_succ _) (Nat.le_refl _) hfits hloose (ht.unique hcuts)
    subst heq
    exact ⟨h.bare_written, isWritable_of_fits h 0 hfits⟩
  · rintro ⟨rfl, hw⟩
    exact ⟨_, hcuts, fits_written h (.inr ⟨rfl, hw⟩) 0 (Nat.zero_le _), h.bare_written⟩

end Source

end BlockProgram.Script
