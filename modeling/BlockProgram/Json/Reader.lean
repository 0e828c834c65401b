import BlockProgram.Json.Number

/-!
# Reading JSON

A text is first cut into tokens by an automaton that takes one character at a time, then the tokens
are put together on a stack of open lists and objects. Anything but one value with blanks around it
is refused, and so is nesting deeper than `maxDepth`.
-/

namespace BlockProgram.Json

/-! ## Tokens -/

/-- A bracket or separator, a text, or another value without parts. -/
inductive Token where
  | mark (c : Char)
  | text (s : String)
  | plain (v : Json)
deriving Repr, Inhabited

/-- Where the automaton stands. Texts and words read so far are kept backwards. -/
inductive Mode where
  | between
  | word (read : List Char)
  | text (read : List Char)
  | escape (read : List Char)
  /-- In `\uXXXX`: the first half of a pair, if one came before, the number so far and the digits
  that are missing. -/
  | code (read : List Char) (high : Option Nat) (value missing : Nat)
  /-- After the first half of a pair, before the `\` or the `u` of the second. -/
  | pair (read : List Char) (high : Nat) (slashSeen : Bool)
deriving Repr, Inhabited

def isSpace (c : Char) : Bool :=
  c == ' ' || c == '\n' || c == '\t' || c == '\r'

def isMark (c : Char) : Bool :=
  c == '[' || c == ']' || c == '\x7b' || c == '\x7d' || c == ',' || c == ':'

/-- Characters of numbers and of `null`, `true`, `false`. -/
def isWordChar (c : Char) : Bool :=
  c.isAlphanum || c == '+' || c == '-' || c == '.'

def hexValue? (c : Char) : Option Nat :=
  if '0' ≤ c ∧ c ≤ '9' then some (c.toNat - '0'.toNat)
  else if 'a' ≤ c ∧ c ≤ 'f' then some (c.toNat - 'a'.toNat + 10)
  else if 'A' ≤ c ∧ c ≤ 'F' then some (c.toNat - 'A'.toNat + 10)
  else none

def wordValue (word : List Char) : Option Json :=
  if word = ['n', 'u', 'l', 'l'] then some .null
  else if word = ['t', 'r', 'u', 'e'] then some (.bool true)
  else if word = ['f', 'a', 'l', 's', 'e'] then some (.bool false)
  else readNumber word

/-- The character that a one-letter escape stands for. -/
def escapeValue (c : Char) : Option Char :=
  if c = '"' ∨ c = '\\' ∨ c = '/' then some c
  else if c = 'b' then some (Char.ofNat 8)
  else if c = 'f' then some (Char.ofNat 12)
  else if c = 'n' then some '\n'
  else if c = 'r' then some '\r'
  else if c = 't' then some '\t'
  else none

def isHighHalf (n : Nat) : Bool := 0xD800 ≤ n && n ≤ 0xDBFF

def isLowHalf (n : Nat) : Bool := 0xDC00 ≤ n && n ≤ 0xDFFF

/-- What follows a complete `\uXXXX`. -/
def codeDone (read : List Char) (high : Option Nat) (n : Nat) : Option Mode :=
  match high with
  | some h =>
    if isLowHalf n then
      some (.text (Char.ofNat (0x10000 + (h - 0xD800) * 0x400 + (n - 0xDC00)) :: read))
    else none
  | none =>
    if isHighHalf n then some (.pair read n false)
    else if isLowHalf n then none
    else some (.text (Char.ofNat n :: read))

/-- A character between tokens. -/
def stepBetween (c : Char) : Option (Mode × List Token) :=
  if isSpace c then some (.between, [])
  else if isMark c then some (.between, [.mark c])
  else if c = '"' then some (.text [], [])
  else if isWordChar c then some (.word [c], [])
  else none

/-- One character: the next mode and the tokens that end before it. -/
def step : Mode → Char → Option (Mode × List Token)
  | .between, c => stepBetween c
  | .word read, c =>
    if isWordChar c then some (.word (c :: read), [])
    else do
      let v ← wordValue read.reverse
      let (mode, tokens) ← stepBetween c
      return (mode, .plain v :: tokens)
  | .text read, c =>
    if c = '"' then some (.between, [.text (String.ofList read.reverse)])
    else if c = '\\' then some (.escape read, [])
    else if c.toNat < 32 then none
    else some (.text (c :: read), [])
  | .escape read, c =>
    if c = 'u' then some (.code read none 0 4, [])
    else (escapeValue c).map fun e => (.text (e :: read), [])
  | .code read high value missing, c => do
    let d ← hexValue? c
    if missing = 1 then (codeDone read high (16 * value + d)).map fun mode => (mode, [])
    else some (.code read high (16 * value + d) (missing - 1), [])
  | .pair read high slashSeen, c =>
    if slashSeen then if c = 'u' then some (.code read (some high) 0 4, []) else none
    else if c = '\\' then some (.pair read high true, [])
    else none

/-- The tokens of a text, after those in `done`, which are kept backwards. -/
def tokensFrom (mode : Mode) (done : List Token) : List Char → Option (List Token)
  | [] =>
    match mode with
    | .between => some done.reverse
    | .word read => (wordValue read.reverse).map fun v => (Token.plain v :: done).reverse
    | _ => none
  | c :: r =>
    match step mode c with
    | none => none
    | some (mode', ts) => tokensFrom mode' (ts.reverse ++ done) r

def tokens (text : String) : Option (List Token) :=
  tokensFrom .between [] text.toList

/-! ## Values -/

def maxDepth : Nat := 127

/-- An open list or object with what it holds so far, backwards, or the key of an open field. -/
inductive Frame where
  | list (items : List Json)
  | fields (fields : List (String × Json))
  | field (key : String)
deriving Inhabited

/-- What may come next. -/
inductive Expect where
  | value
  | firstItem
  | firstField
  | key
  | colon
  | separator
  | nothing (result : Json)
deriving Inhabited

/-- Open frames, innermost first, their depth, and what may come next. -/
structure Assembly where
  frames : List Frame := []
  depth : Nat := 0
  expect : Expect := .value
deriving Inhabited

namespace Assembly

/-- Hands a complete value to the innermost frame. -/
def deliver (a : Assembly) (v : Json) : Option Assembly :=
  match a.frames with
  | [] => some { a with expect := .nothing v }
  | .list items :: r => some { a with frames := .list (v :: items) :: r, expect := .separator }
  | .field key :: .fields done :: r =>
    some { a with frames := .fields ((key, v) :: done) :: r, expect := .separator }
  | _ => none

def openFrame (a : Assembly) (f : Frame) (e : Expect) : Option Assembly :=
  if a.depth < maxDepth then some ⟨f :: a.frames, a.depth + 1, e⟩ else none

/-- Closes the innermost list or object and delivers it. -/
def close (a : Assembly) : Option Assembly :=
  match a.frames with
  | .list items :: r => deliver { a with frames := r, depth := a.depth - 1 } (.arr items.reverse)
  | .fields done :: r => deliver { a with frames := r, depth := a.depth - 1 } (object done.reverse)
  | _ => none

def takeValue (a : Assembly) : Token → Option Assembly
  | .plain v => a.deliver v
  | .text s => a.deliver (.str s)
  | .mark c =>
    if c = '[' then a.openFrame (.list []) .firstItem
    else if c = '\x7b' then a.openFrame (.fields []) .firstField
    else none

def takeKey (a : Assembly) : Token → Option Assembly
  | .text s => some { a with frames := .field s :: a.frames, expect := .colon }
  | _ => none

/-- A token after a complete item or field. -/
def takeSeparator (a : Assembly) (c : Char) : Option Assembly :=
  match a.frames with
  | .list _ :: _ =>
    if c = ',' then some { a with expect := .value } else if c = ']' then a.close else none
  | .fields _ :: _ =>
    if c = ',' then some { a with expect := .key } else if c = '\x7d' then a.close else none
  | _ => none

def take (a : Assembly) (t : Token) : Option Assembly :=
  match a.expect, t with
  | .value, t => a.takeValue t
  | .firstItem, .mark ']' => a.close
  | .firstItem, t => a.takeValue t
  | .firstField, .mark '\x7d' => a.close
  | .firstField, t => a.takeKey t
  | .key, t => a.takeKey t
  | .colon, .mark ':' => some { a with expect := .value }
  | .separator, .mark c => a.takeSeparator c
  | _, _ => none

def finish : Assembly → List Token → Option Json
  | a, [] =>
    match a.expect with
    | .nothing v => some v
    | _ => none
  | a, t :: r =>
    match a.take t with
    | none => none
    | some a' => finish a' r

end Assembly

/-- The value that a text holds, if it is JSON. -/
def read (text : String) : Option Json := do
  Assembly.finish {} (← tokens text)

end BlockProgram.Json
