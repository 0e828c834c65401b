import BlockProgram.Proofs.Compile.Functions
import BlockProgram.Proofs.Workspace.Layout

/-!
# Structural keys

The key of a registration is written without escapes, so it can be read in more than one way: a
registration may be switched off although it differs from all earlier ones
(`selectTops_drops_differing`). If the names and values in it are such that one can tell where they
end (`KeyText.IsName`, `KeyText.IsLegible`), a key stands for one shape only
(`structuralKey_eq_iff`), and a registration is switched off exactly if it repeats an earlier one
(`registrations_apart`).
-/

namespace BlockProgram

open Program Workspace List

variable {r r' s : List Char} {specs : List BlockSpec} {vars : List VariableModel}

/-! ## Texts in keys -/

namespace KeyText

/-- A text holds one of the signs after which a key goes on with a value. -/
def Marked (l : List Char) : Prop :=
  '=' ∈ l ∨ [':', '('] <:+: l

instance decidableMarked (l : List Char) : Decidable (Marked l) :=
  inferInstanceAs (Decidable (_ ∨ _))

/-- The sign after the name of a field or of an input. -/
inductive IsMark : List Char → Prop where
  | field : IsMark ['=']
  | input : IsMark [':', '(']

/-- A name that can be told from what follows it in a key. -/
def IsName (n : List Char) : Prop :=
  ' ' ∉ n ∧ ¬ Marked n

instance decidableIsName (n : List Char) : Decidable (IsName n) :=
  inferInstanceAs (Decidable (_ ∧ _))

/-- A text that can be told from what follows it in a key: it does not end like an input, and no
word in it but the first looks like a field or an input. -/
def IsLegible (t : List Char) : Prop :=
  t.getLast? ≠ some ')' ∧ ¬ Marked (t.dropWhile fun c => decide (c ≠ ' '))

instance decidableIsLegible (t : List Char) : Decidable (IsLegible t) :=
  inferInstanceAs (Decidable (_ ∧ _))

/-- What can follow a text in a key: the ends of the inputs that it stands in, and then the end of
the key, or another field or input. -/
inductive Tail : List Char → Prop where
  | done : Tail []
  | close {s : List Char} (h : Tail s) : Tail (')' :: s)
  | item {n m : List Char} (hn : IsName n) (hm : IsMark m) (r : List Char) :
      Tail (' ' :: (n ++ m ++ r))

variable {l l' m m' n n' r r' s s' t t' d e : List Char}

theorem Marked.mono (h : Marked l) (hl : l <:+: l') : Marked l' := by
  rcases h with h | h
  · exact .inl (hl.subset h)
  · exact .inr (h.trans hl)

theorem IsMark.marked (h : IsMark m) : Marked m := by
  cases h <;> decide

/-- Where a name ends is where its sign begins. -/
theorem name_append_cancel (hn : ¬ Marked n) (hn' : ¬ Marked n') (hm : IsMark m) (hm' : IsMark m')
    (h : n ++ m ++ r = n' ++ m' ++ r') : n = n' ∧ m = m' ∧ r = r' := by
  -- a name that went on past the end of the other would hold the other's sign
  have hlonger : ∀ {n n' d m m' r r'}, ¬ Marked n' → IsMark m → IsMark m' → n' = n ++ d →
      m ++ r = d ++ (m' ++ r') → d = [] := by
    intro n n' d m m' r r' hn' hm hm' hd h
    cases d with
    | nil => rfl
    | cons c d =>
      exfalso
      apply hn'
      rw [hd]
      cases hm with
      | field =>
        obtain ⟨rfl, _⟩ := List.cons.inj h
        exact .inl (by simp)
      | input =>
        obtain ⟨rfl, hrest⟩ := List.cons.inj h
        cases d with
        | nil => cases hm' <;> simp at hrest
        | cons c d =>
          obtain ⟨rfl, _⟩ := List.cons.inj hrest
          exact .inr ⟨n, d, by simp⟩
  have hname : n = n' := by
    rw [append_assoc, append_assoc] at h
    rcases append_eq_append_iff.mp h with ⟨d, hd, h⟩ | ⟨d, hd, h⟩
    · rw [hd, hlonger hn' hm hm' hd h, append_nil]
    · rw [hd, hlonger hn hm' hm hd h, append_nil]
  subst hname
  rw [append_assoc, append_assoc] at h
  have h := append_cancel_left h
  cases hm <;> cases hm' <;> simp_all

/-- What follows a text goes on with no more than closing signs, up to its end or a blank. -/
theorem Tail.all_close (h : Tail (e ++ r)) (he : ' ' ∉ e) : ∀ c ∈ e, c = ')' := by
  induction e with
  | nil => simp
  | cons c e ih =>
    rw [cons_append] at h
    generalize hrest : e ++ r = rest at h
    cases h with
    | close h => simpa using ih (hrest ▸ h) fun hb => he (.tail _ hb)
    | item hn hm r => simp at he

/-- A part of what follows a text that is cut off where something may follow a text is itself seen
as the end of an input, or as a field or input after a blank. -/
theorem Tail.cut (h : Tail (d ++ s)) (hs : Tail s) (hd : d ≠ []) :
    d.getLast? = some ')' ∨ Marked (d.dropWhile fun c => decide (c ≠ ' ')) := by
  induction d with
  | nil => exact absurd rfl hd
  | cons c d ih =>
    rw [cons_append] at h
    generalize hrest : d ++ s = rest at h
    cases h with
    | close h =>
      subst hrest
      cases d with
      | nil => exact .inl rfl
      | cons c d => exact (ih h (by simp)).imp (by simp) (by simp)
    | @item n m hn hm r =>
      right
      show Marked (' ' :: d)
      refine Marked.mono (l := d) ?_ ⟨[' '], [], by simp⟩
      rcases append_eq_append_iff.mp hrest with ⟨e, he, hcut⟩ | ⟨e, he, _⟩
      · -- the cut would leave the sign, or the end of the name with it, where only closing
        -- signs may stand
        have hmark : ∃ a b, m = a ++ [b] ∧ b ≠ ')' ∧ b ≠ ' ' ∧ ' ' ∉ a := by
          cases hm
          · exact ⟨[], '=', rfl, by decide⟩
          · exact ⟨[':'], '(', rfl, by decide⟩
        obtain ⟨a, b, rfl, hb, hb', ha⟩ := hmark
        rw [hcut] at hs
        have hblank : ' ' ∉ e := by
          intro h
          have : ' ' ∈ n ++ (a ++ [b]) := he ▸ mem_append_right d h
          simp [hn.1, ha, Ne.symm hb'] at this
        cases e using List.reverseRecOn with
        | nil =>
          rw [append_nil] at he
          exact he ▸ hm.marked.mono ⟨n, [], by simp⟩
        | append_singleton e x =>
          have hx : x = b := by
            have := congrArg List.getLast? he
            simpa [← append_assoc] using this.symm
          exact absurd (hx ▸ hs.all_close hblank x (by simp)) hb
      · exact hm.marked.mono ⟨n, e, he.symm⟩

theorem IsLegible.not_cut (h : IsLegible (t ++ d)) (hd : d.getLast? = some ')' ∨
    Marked (d.dropWhile fun c => decide (c ≠ ' '))) : False := by
  rcases hd with hd | hd
  · apply h.1
    rw [getLast?_append, hd]
    rfl
  · apply h.2
    refine hd.mono ?_
    rw [dropWhile_append]
    split
    · exact infix_rfl
    · exact (dropWhile_suffix _).isInfix.trans (suffix_append _ _).isInfix

/-- Where a legible text ends is decided by what stands there. -/
theorem text_append_cancel (ht : IsLegible t) (ht' : IsLegible t') (hs : Tail s) (hs' : Tail s')
    (h : t ++ s = t' ++ s') : t = t' ∧ s = s' := by
  have hlonger : ∀ {t t' d s s'}, IsLegible t' → Tail s → Tail s' → t' = t ++ d → s = d ++ s' →
      d = [] := by
    intro t t' d s s' ht' hs hs' hd h
    by_contra hne
    exact (hd ▸ ht').not_cut ((h ▸ hs).cut hs' hne)
  have htext : t = t' := by
    rcases append_eq_append_iff.mp h with ⟨d, hd, h⟩ | ⟨d, hd, h⟩
    · rw [hd, hlonger ht' hs hs' hd h, append_nil]
    · rw [hd, hlonger ht hs' hs hd h, append_nil]
  subst htext
  exact ⟨rfl, append_cancel_left h⟩

end KeyText


/-! ## Shapes of blocks -/

/-- The enabled block that is plugged into an input. -/
def Program.plugged? (p : Program) (i : Input) : Option BlockRef :=
  i.target.filter p.workspace.isEnabled

/-- Two blocks of the same type have the same fields and the same value inputs, and what is plugged
into these has the same shape again. -/
inductive SameShape (p : Program) : BlockRef → BlockRef → Prop where
  | intro {a b : BlockRef} (tag : (p.block a).tag = (p.block b).tag)
      (fields : (p.block a).fields = (p.block b).fields)
      (names : (p.block a).valueInputs.map (·.name) = (p.block b).valueInputs.map (·.name))
      (plugged : List.Forall₂ (Option.Rel (SameShape p)) ((p.block a).valueInputs.map p.plugged?)
        ((p.block b).valueInputs.map p.plugged?)) : SameShape p a b

/-- A block whose key can be read back: it is not of a kind with a key of its own, and its texts and
those of the blocks plugged into it are legible. -/
inductive IsReadable (p : Program) : BlockRef → Prop where
  | intro {b : BlockRef} (function : (p.block b).kind ≠ .functionDefinition)
      (start : (p.block b).kind ≠ .onStart) (tag_ne : (p.block b).tag ≠ "")
      (tag : KeyText.IsLegible (p.block b).tag.toList)
      (fields : ∀ f ∈ (p.block b).fields, KeyText.IsName f.name.toList ∧
        KeyText.IsLegible f.value.toList)
      (names : ∀ i ∈ (p.block b).valueInputs, KeyText.IsName i.name.toList)
      (plugged : ∀ i ∈ (p.block b).valueInputs, ∀ t, p.plugged? i = some t → IsReadable p t) :
      IsReadable p b

/-- Checks that a block with at most `depth` levels plugged into it can be read back. -/
def Program.readableWithin (p : Program) : (depth : Nat) → BlockRef → Bool
  | 0, _ => false
  | depth + 1, b =>
    decide ((p.block b).kind ≠ .functionDefinition ∧ (p.block b).kind ≠ .onStart ∧
      (p.block b).tag ≠ "" ∧ KeyText.IsLegible (p.block b).tag.toList ∧
      (∀ f ∈ (p.block b).fields, KeyText.IsName f.name.toList ∧ KeyText.IsLegible f.value.toList) ∧
      ∀ i ∈ (p.block b).valueInputs, KeyText.IsName i.name.toList) &&
    ((p.block b).valueInputs.filterMap p.plugged?).all (p.readableWithin depth)

theorem isReadable_of_readableWithin {p : Program} {depth : Nat} {b : BlockRef}
    (h : p.readableWithin depth b = true) : IsReadable p b := by
  induction depth generalizing b with
  | zero => cases h
  | succ depth ih =>
    obtain ⟨hblock, hplugged⟩ := Bool.and_eq_true_iff.mp h
    obtain ⟨hfunction, hstart, htag_ne, htag, hfields, hnames⟩ := of_decide_eq_true hblock
    refine .intro hfunction hstart htag_ne htag hfields hnames fun i hi t ht => ih ?_
    exact all_eq_true.mp hplugged t (mem_filterMap.mpr ⟨i, hi, ht⟩)

section Shapes

open KeyText

variable {p : Program} {a b : BlockRef} {f : Field} {i j : Input} {keyOf : BlockRef → String}

theorem fieldKey_append (f : Field) (r : List Char) : (fieldKey f).toList ++ r =
    ' ' :: (f.name.toList ++ ['='] ++ (f.value.toList ++ r)) := by
  simp [fieldKey]

def Program.pluggedKey (p : Program) (keyOf : BlockRef → String) (i : Input) : List Char :=
  (((p.plugged? i).map keyOf).getD "").toList

theorem inputKey_append (i : Input) (r : List Char) : (p.inputKey keyOf i).toList ++ r =
    ' ' :: (i.name.toList ++ [':', '('] ++ (p.pluggedKey keyOf i ++ ')' :: r)) := by
  simp [inputKey, pluggedKey, plugged?]

theorem toList_keyStep (keyOf : BlockRef → String)
    (hfunction : (p.block b).kind ≠ .functionDefinition) (hstart : (p.block b).kind ≠ .onStart) :
    (p.keyStep keyOf b).toList = (p.block b).tag.toList ++
      ((p.block b).fields.flatMap (fun f => (fieldKey f).toList) ++
        (p.block b).valueInputs.flatMap fun i => (p.inputKey keyOf i).toList) := by
  unfold keyStep
  dsimp only
  rw [if_neg hfunction, if_neg hstart]
  simp [String.toList_join, flatMap_map]

/-- What follows the key of a block: the end of the whole key, or that of the input it is in. -/
def Closing (s : List Char) : Prop :=
  s = [] ∨ ∃ r, Tail r ∧ s = ')' :: r

theorem Closing.tail (h : Closing s) : Tail s := by
  obtain rfl | ⟨r, hr, rfl⟩ := h
  · exact .done
  · exact .close hr

theorem Closing.ne_cons {s r : List Char} (h : Closing s) : ' ' :: r ≠ s := by
  rcases h with rfl | ⟨r', _, rfl⟩ <;> simp

theorem flatMap_induction {α : Type} {T : List Char → Prop} {g : α → List Char} {l : List α}
    (hg : ∀ x ∈ l, ∀ r, T (g x ++ r)) (hs : T s) : T (l.flatMap g ++ s) := by
  cases l with
  | nil => exact hs
  | cons x l =>
    rw [flatMap_cons, append_assoc]
    exact hg x (.head _) _

theorem tail_fieldKey (hf : IsName f.name.toList) (r : List Char) :
    Tail ((fieldKey f).toList ++ r) := by
  rw [fieldKey_append]
  exact .item hf .field _

theorem tail_inputKey (keyOf : BlockRef → String) (hi : IsName i.name.toList) (r : List Char) :
    Tail ((p.inputKey keyOf i).toList ++ r) := by
  rw [inputKey_append]
  exact .item hi .input _

/-- Lists of parts that can be told from each other and from what follows them agree one by one. -/
theorem forall₂_of_flatMap {α : Type} {g : α → List Char} {R : α → α → Prop} {l l' : List α}
    {s s' : List Char} (hl : ∀ x ∈ l, ∀ r, Tail (g x ++ r)) (hl' : ∀ x ∈ l', ∀ r, Tail (g x ++ r))
    (hs : Tail s) (hs' : Tail s')
    (hcancel : ∀ x ∈ l, ∀ x' ∈ l', ∀ r r', Tail r → Tail r' → g x ++ r = g x' ++ r' →
      R x x' ∧ r = r')
    (hapart : ∀ x ∈ l, ∀ r, g x ++ r ≠ s') (hapart' : ∀ x ∈ l', ∀ r, g x ++ r ≠ s)
    (h : l.flatMap g ++ s = l'.flatMap g ++ s') : List.Forall₂ R l l' ∧ s = s' := by
  induction l generalizing l' with
  | nil =>
    cases l' with
    | nil => exact ⟨.nil, h⟩
    | cons x' l' =>
      rw [flatMap_cons, append_assoc] at h
      exact absurd h.symm (hapart' x' (.head _) _)
  | cons x l ih =>
    rw [flatMap_cons, append_assoc] at h
    cases l' with
    | nil => exact absurd h (hapart x (.head _) _)
    | cons x' l' =>
      rw [flatMap_cons, append_assoc] at h
      have hin : ∀ {y}, y ∈ l → y ∈ x :: l := .tail x
      have hin' : ∀ {y}, y ∈ l' → y ∈ x' :: l' := .tail x'
      obtain ⟨hxx, hrest⟩ := hcancel x (.head _) x' (.head _) _ _
        (flatMap_induction (fun y hy => hl y (hin hy)) hs)
        (flatMap_induction (fun y hy => hl' y (hin' hy)) hs') h
      obtain ⟨hll, hss⟩ := ih (fun y hy => hl y (hin hy)) (fun y hy => hl' y (hin' hy))
        (fun y hy y' hy' => hcancel y (hin hy) y' (hin' hy')) (fun y hy => hapart y (hin hy))
        (fun y hy => hapart' y (hin' hy)) hrest
      exact ⟨.cons hxx hll, hss⟩

theorem fieldKey_cancel {f f' : Field} (hf : IsName f.name.toList ∧
    IsLegible f.value.toList) (hf' : IsName f'.name.toList ∧ IsLegible f'.value.toList)
    (hr : Tail r) (hr' : Tail r')
    (h : (fieldKey f).toList ++ r = (fieldKey f').toList ++ r') : f = f' ∧ r = r' := by
  rw [fieldKey_append, fieldKey_append] at h
  obtain ⟨hname, _, hvalue⟩ := name_append_cancel hf.1.2 hf'.1.2 .field .field (List.cons.inj h).2
  obtain ⟨hvalue, hrest⟩ := text_append_cancel hf.2 hf'.2 hr hr' hvalue
  cases f
  cases f'
  cases String.toList_inj.mp hname
  cases String.toList_inj.mp hvalue
  exact ⟨rfl, hrest⟩

/-- A field is not taken for an input. -/
theorem fieldKey_ne_inputKey (hf : IsName f.name.toList) (hi : IsName i.name.toList) :
    (fieldKey f).toList ++ r ≠ (p.inputKey keyOf i).toList ++ r' := by
  intro h
  rw [fieldKey_append, inputKey_append] at h
  obtain ⟨_, hmark, _⟩ := name_append_cancel hf.2 hi.2 .field .input (List.cons.inj h).2
  cases hmark

/-- The key of a readable block is its type and something that can follow a text. -/
theorem exists_tail_keyStep (keyOf : BlockRef → String) (hb : IsReadable p b) (hs : Tail s) :
    ∃ r, Tail r ∧ (p.keyStep keyOf b).toList ++ s = (p.block b).tag.toList ++ r := by
  obtain ⟨hfunction, hstart, _, _, hfields, hnames, _⟩ := hb
  rw [toList_keyStep keyOf hfunction hstart, append_assoc, append_assoc]
  refine ⟨_, ?_, rfl⟩
  refine flatMap_induction (fun f hf => tail_fieldKey (hfields f hf).1) ?_
  exact flatMap_induction (fun i hi => tail_inputKey keyOf (hnames i hi)) hs

/-- An input with a block is not taken for an empty one. -/
theorem keyStep_append_ne (hb : IsReadable p b) {s s' : List Char} (hs : Tail s) (hs' : Tail s') :
    (p.keyStep keyOf b).toList ++ s ≠ s' := by
  intro h
  obtain ⟨r, hr, hkey⟩ := exists_tail_keyStep keyOf hb hs
  obtain ⟨_, _, htag_ne, htag, _, _, _⟩ := hb
  have hnil : [] ++ s' = (p.block b).tag.toList ++ r := h.symm.trans hkey
  obtain ⟨hempty, _⟩ := text_append_cancel (by decide) htag hs' hr hnil
  exact htag_ne (String.toList_eq_nil_iff.mp hempty.symm)

/-- Keys tell two blocks apart, whatever follows them, unless the blocks have the same shape. -/
def TellsApart (p : Program) (keyOf : BlockRef → String) (a b : BlockRef) : Prop :=
  ∀ s s', Closing s → Closing s' → (keyOf a).toList ++ s = (keyOf b).toList ++ s' →
    SameShape p a b ∧ s = s'

/-- A key is never taken for no key at all. -/
def IsSeen (keyOf : BlockRef → String) (b : BlockRef) : Prop :=
  ∀ s s', Tail s → Tail s' → (keyOf b).toList ++ s ≠ s'

theorem inputKey_cancel (hi : IsName i.name.toList) (hj : IsName j.name.toList)
    (hseen : ∀ x, p.plugged? i = some x → IsSeen keyOf x)
    (hseen' : ∀ y, p.plugged? j = some y → IsSeen keyOf y)
    (hplugged : ∀ x y, p.plugged? i = some x → p.plugged? j = some y → TellsApart p keyOf x y)
    (hr : Tail r) (hr' : Tail r')
    (h : (p.inputKey keyOf i).toList ++ r = (p.inputKey keyOf j).toList ++ r') :
    (i.name = j.name ∧ Option.Rel (SameShape p) (p.plugged? i) (p.plugged? j)) ∧ r = r' := by
  rw [inputKey_append, inputKey_append] at h
  obtain ⟨hname, _, hrest⟩ := name_append_cancel hi.2 hj.2 .input .input (List.cons.inj h).2
  unfold pluggedKey at hrest
  cases hx : p.plugged? i with
  | none =>
    cases hy : p.plugged? j with
    | none =>
      rw [hx, hy] at hrest
      exact ⟨⟨String.toList_inj.mp hname, .none⟩, (List.cons.inj hrest).2⟩
    | some y =>
      rw [hx, hy] at hrest
      exact absurd hrest.symm (hseen' y hy _ _ (.close hr') (.close hr))
  | some x =>
    cases hy : p.plugged? j with
    | none =>
      rw [hx, hy] at hrest
      exact absurd hrest (hseen x hx _ _ (.close hr) (.close hr'))
    | some y =>
      rw [hx, hy] at hrest
      obtain ⟨hshape, hrest⟩ := hplugged x y hx hy _ _ (.inr ⟨r, hr, rfl⟩)
        (.inr ⟨r', hr', rfl⟩) hrest
      exact ⟨⟨String.toList_inj.mp hname, .some hshape⟩, (List.cons.inj hrest).2⟩

theorem tellsApart_keyStep (ha : IsReadable p a) (hb : IsReadable p b)
    (hseen : ∀ i ∈ (p.block a).valueInputs, ∀ x, p.plugged? i = some x → IsSeen keyOf x)
    (hseen' : ∀ j ∈ (p.block b).valueInputs, ∀ y, p.plugged? j = some y → IsSeen keyOf y)
    (hplugged : ∀ i ∈ (p.block a).valueInputs, ∀ j ∈ (p.block b).valueInputs, ∀ x y,
      p.plugged? i = some x → p.plugged? j = some y → TellsApart p keyOf x y) :
    TellsApart p (p.keyStep keyOf) a b := by
  intro s s' hs hs' h
  obtain ⟨hfunction, hstart, _, htag, hfields, hnames, _⟩ := ha
  obtain ⟨hfunction', hstart', _, htag', hfields', hnames', _⟩ := hb
  rw [toList_keyStep keyOf hfunction hstart, toList_keyStep keyOf hfunction' hstart',
    append_assoc, append_assoc, append_assoc, append_assoc] at h
  have hinputs := flatMap_induction (fun i hi => tail_inputKey (p := p) keyOf (hnames i hi)) hs.tail
  have hinputs' := flatMap_induction
    (fun i hi => tail_inputKey (p := p) keyOf (hnames' i hi)) hs'.tail
  obtain ⟨htags, h⟩ := text_append_cancel htag htag'
    (flatMap_induction (fun f hf => tail_fieldKey (hfields f hf).1) hinputs)
    (flatMap_induction (fun f hf => tail_fieldKey (hfields' f hf).1) hinputs') h
  -- after its last field, a block has an input or ends
  have hends : ∀ {f : Field} {l : List Input} {r s : List Char}, IsName f.name.toList →
      (∀ i ∈ l, IsName i.name.toList) → Closing s →
      (fieldKey f).toList ++ r ≠ l.flatMap (fun i => (p.inputKey keyOf i).toList) ++ s := by
    intro f l r s hf hl hs
    cases l with
    | nil =>
      rw [fieldKey_append]
      exact hs.ne_cons
    | cons i l =>
      rw [flatMap_cons, append_assoc]
      exact fieldKey_ne_inputKey hf (hl i (.head _))
  obtain ⟨hfieldEq, h⟩ := forall₂_of_flatMap (R := Eq)
    (fun f hf => tail_fieldKey (hfields f hf).1) (fun f hf => tail_fieldKey (hfields' f hf).1)
    hinputs hinputs'
    (fun f hf f' hf' _ _ hr hr' => fieldKey_cancel (hfields f hf) (hfields' f' hf') hr hr')
    (fun f hf r => hends (hfields f hf).1 hnames' hs')
    (fun f hf r => hends (hfields' f hf).1 hnames hs) h
  obtain ⟨hinputEq, h⟩ := forall₂_of_flatMap
    (R := fun i j => i.name = j.name ∧ Option.Rel (SameShape p) (p.plugged? i) (p.plugged? j))
    (fun i hi => tail_inputKey keyOf (hnames i hi)) (fun j hj => tail_inputKey keyOf (hnames' j hj))
    hs.tail hs'.tail
    (fun i hi j hj _ _ hr hr' => inputKey_cancel (hnames i hi) (hnames' j hj) (hseen i hi)
      (hseen' j hj) (hplugged i hi j hj) hr hr')
    (fun i hi r => by rw [inputKey_append]; exact hs'.ne_cons)
    (fun j hj r => by rw [inputKey_append]; exact hs.ne_cons) h
  refine ⟨.intro (String.toList_inj.mp htags) (forall₂_eq_eq_eq ▸ hfieldEq) ?_ ?_, h⟩
  · rw [← forall₂_eq_eq_eq, forall₂_map_left_iff, forall₂_map_right_iff]
    exact hinputEq.imp fun _ _ h => h.1
  · rw [forall₂_map_left_iff, forall₂_map_right_iff]
    exact hinputEq.imp fun _ _ h => h.2

theorem plugged?_mem_children {x : BlockRef} (hi : i ∈ (p.block b).valueInputs)
    (hx : p.plugged? i = some x) : x ∈ p.workspace.children b := by
  obtain ⟨hi, _⟩ := mem_filter.mp hi
  exact mem_append_left _ (mem_targets hi (Option.filter_eq_some_iff.mp hx).1)

theorem tellsApart_structuralKeyFrom (hws : p.workspace.Sound) (n : Nat) :
    ∀ a b, a < p.workspace.size → b < p.workspace.size → p.workspace.reach a ≤ n →
      p.workspace.reach b ≤ n → IsReadable p a → IsReadable p b →
        TellsApart p (p.structuralKeyFrom n) a b := by
  induction n with
  | zero =>
    intro a b ha _ hn
    have := reach_pos ha
    omega
  | succ n ih =>
    intro a b ha hb hn hn' hreadable hreadable'
    have hstep : ∀ {b}, b < p.workspace.size → p.workspace.reach b ≤ n + 1 → IsReadable p b →
        ∀ i ∈ (p.block b).valueInputs, ∀ x, p.plugged? i = some x →
          x < p.workspace.size ∧ p.workspace.reach x ≤ n ∧ IsReadable p x := by
      intro b hb hn h i hi x hx
      have hchild := plugged?_mem_children hi hx
      have hlt := reach_lt hws hchild
      obtain ⟨_, _, _, _, _, _, hplugged⟩ := h
      exact ⟨hws.child_lt b x hchild, by omega, hplugged i hi x hx⟩
    have hseen : ∀ {x}, x < p.workspace.size → p.workspace.reach x ≤ n → IsReadable p x →
        IsSeen (p.structuralKeyFrom n) x := by
      intro x hx hn h
      cases n with
      | zero =>
        have := reach_pos hx
        omega
      | succ n => exact fun s s' hs hs' => keyStep_append_ne h hs hs'
    refine tellsApart_keyStep hreadable hreadable' ?_ ?_ ?_
    · intro i hi x hx
      obtain ⟨hlt, hreach, h⟩ := hstep ha hn hreadable i hi x hx
      exact hseen hlt hreach h
    · intro i hi x hx
      obtain ⟨hlt, hreach, h⟩ := hstep hb hn' hreadable' i hi x hx
      exact hseen hlt hreach h
    · intro i hi j hj x y hx hy
      obtain ⟨hlt, hreach, h⟩ := hstep ha hn hreadable i hi x hx
      obtain ⟨hlt', hreach', h'⟩ := hstep hb hn' hreadable' j hj y hy
      exact ih x y hlt hlt' hreach hreach' h h'

theorem structuralKeyFrom_eq (n : Nat) : ∀ a b, IsReadable p a → IsReadable p b →
    SameShape p a b → p.structuralKeyFrom n a = p.structuralKeyFrom n b := by
  induction n with
  | zero => exact fun _ _ _ _ _ => rfl
  | succ n ih =>
    rintro a b ⟨hfunction, hstart, _, _, _, _, hplugged⟩
      ⟨hfunction', hstart', _, _, _, _, hplugged'⟩ ⟨htag, hfields, hnames, hshapes⟩
    have hinputs : (p.block a).valueInputs.map (p.inputKey (p.structuralKeyFrom n)) =
        (p.block b).valueInputs.map (p.inputKey (p.structuralKeyFrom n)) := by
      rw [← forall₂_eq_eq_eq, forall₂_map_left_iff, forall₂_map_right_iff]
        at hnames ⊢
      rw [forall₂_map_left_iff, forall₂_map_right_iff] at hshapes
      rw [forall₂_iff_zip] at hnames hshapes ⊢
      refine ⟨hnames.1, fun {i j} hij => ?_⟩
      obtain ⟨hi, hj⟩ := of_mem_zip hij
      have hchild : (p.plugged? i).map (p.structuralKeyFrom n) =
          (p.plugged? j).map (p.structuralKeyFrom n) := by
        have hshape := hshapes.2 hij
        have hx := hplugged i hi
        have hy := hplugged' j hj
        generalize p.plugged? i = o, p.plugged? j = o' at hshape hx hy
        cases hshape with
        | none => rfl
        | some hshape => exact congrArg some (ih _ _ (hx _ rfl) (hy _ rfl) hshape)
      unfold inputKey
      rw [hnames.2 hij]
      exact congrArg (fun o : Option String => " " ++ j.name ++ ":(" ++ o.getD "" ++ ")") hchild
    show p.keyStep _ a = p.keyStep _ b
    unfold keyStep
    dsimp only
    rw [if_neg hfunction, if_neg hstart, if_neg hfunction', if_neg hstart', htag, hfields, hinputs]

/-- Keys of readable blocks agree exactly if the blocks have the same shape. -/
theorem structuralKey_eq_iff (hws : p.workspace.Sound) (ha : a < p.workspace.size)
    (hb : b < p.workspace.size) (hreadable : IsReadable p a) (hreadable' : IsReadable p b) :
    p.structuralKey a = p.structuralKey b ↔ SameShape p a b := by
  constructor
  · intro h
    have happart := tellsApart_structuralKeyFrom hws p.workspace.size a b ha hb
      (reach_le a) (reach_le b) hreadable hreadable'
    refine (happart [] [] (.inl rfl) (.inl rfl) ?_).1
    rw [append_nil, append_nil]
    exact congrArg String.toList h
  · exact structuralKeyFrom_eq p.workspace.size a b hreadable hreadable'

end Shapes

/-! ## Registrations -/

structure Program.IsRegistration (p : Program) (b : BlockRef) : Prop where
  top : b ∈ p.workspace.topBlocks
  enabled : p.workspace.isEnabled b = true
  event : (p.symbolOf? b).any (·.isEvent) = true

def KeyText.firstWord (t : List Char) : List Char :=
  t.takeWhile fun c => decide (c ≠ ' ')

section Registrations

open KeyText

variable {p : Program} {a b : BlockRef}

theorem Program.IsRegistration.kind_eq (h : p.IsRegistration b) :
    ∃ name, p.kind b = .hostCall name := by
  have hevent := h.event
  unfold symbolOf? at hevent
  split at hevent
  · next name hname => exact ⟨name, hname⟩
  · cases hevent

theorem Program.IsRegistration.role?_eq (h : p.IsRegistration b) : p.role? b = some .container := by
  obtain ⟨name, hkind⟩ := h.kind_eq
  have hcontainer : p.isContainer b = true := by
    have hevent := h.event
    unfold symbolOf? at hevent
    unfold isContainer
    rw [hkind] at hevent ⊢
    exact hevent
  unfold role?
  rw [if_neg (by rw [hkind]; exact nofun), if_pos hcontainer]

theorem Program.IsRegistration.lt_size (h : p.IsRegistration b) : b < p.workspace.size :=
  mem_range.mp (mem_filter.mp h.top).1

theorem Program.IsRegistration.mem (h : p.IsRegistration b) : b ∈ p.enabledTops :=
  mem_filter.mpr ⟨h.top, h.enabled⟩

/-- The container that is no function definition is a registration. -/
theorem isRegistration_of_role? (hb : b ∈ p.enabledTops) (hrole : p.role? b = some .container)
    (hkind : p.kind b ≠ .functionDefinition) : p.IsRegistration b := by
  obtain ⟨htop, henabled⟩ := mem_filter.mp hb
  have hcontainer : p.isContainer b = true := BlockProgram.role?_eq hrole
  refine ⟨htop, henabled, ?_⟩
  unfold isContainer at hcontainer
  unfold symbolOf?
  split at hcontainer
  · next hfunction => exact absurd hfunction hkind
  · next name hname =>
    rw [hname]
    exact hcontainer
  · cases hcontainer

/-- The key of a block begins with its type. Fields and inputs begin with a blank. -/
theorem exists_items_structuralKey (hb : b < p.workspace.size)
    (hfunction : (p.block b).kind ≠ .functionDefinition) (hstart : (p.block b).kind ≠ .onStart) :
    ∃ r, (r = [] ∨ r.head? = some ' ') ∧
      (p.structuralKey b).toList = (p.block b).tag.toList ++ r := by
  obtain ⟨n, hn⟩ := Nat.exists_eq_succ_of_ne_zero (Nat.ne_zero_of_lt hb)
  have hkey : p.structuralKey b = p.keyStep (p.structuralKeyFrom n) b := by
    unfold structuralKey
    rw [hn]
    rfl
  rw [hkey, toList_keyStep _ hfunction hstart]
  refine ⟨_, ?_, rfl⟩
  rw [← append_nil ((p.block b).fields.flatMap _ ++ _), append_assoc]
  refine flatMap_induction (T := fun r => r = [] ∨ r.head? = some ' ') (fun f _ r => .inr ?_)
    (flatMap_induction (T := fun r => r = [] ∨ r.head? = some ' ') (fun i _ r => .inr ?_)
      (.inl rfl))
  · rw [fieldKey_append]
    rfl
  · rw [inputKey_append]
    rfl

/-- A block of the start block's type is one. -/
theorem kind_of_onStartTag {surface : Surface} {ws : Workspace}
    (h : build surface specs vars = .ok ws) (hb : b < ws.size)
    (htag : (ws.block b).tag = onStartTag) : ws.kind b = .onStart := by
  have hdescribes := (build_describes h).2
  have hlt : b < specs.length := hdescribes.size_eq ▸ hb
  obtain ⟨block, hblock, hresolve⟩ := hdescribes.resolve_eq b _ (getElem?_eq_getElem hlt)
  have heq : ws.block b = block := by
    unfold Workspace.block
    rw [hblock]
    rfl
  have hspec : block.tag = specs[b].tag := by
    unfold resolveBlock at hresolve
    obtain ⟨inputs, _, hresolve⟩ := ok_of_bind hresolve
    obtain ⟨next, _, hresolve⟩ := ok_of_bind hresolve
    cases hresolve
    rfl
  show (ws.block b).kind = .onStart
  rw [heq] at htag ⊢
  rw [resolveBlock_kind hresolve]
  unfold resolveKind
  dsimp only
  rw [← hspec, htag]
  rfl

/-- A registration does not share its key with a start block. -/
theorem onStartTag_ne_structuralKey {surface : Surface} {specs : List BlockSpec}
    {vars : List VariableModel} (hbuild : build surface specs vars = .ok p.workspace)
    (hb : p.IsRegistration b) :
    onStartTag ≠ p.structuralKey b := by
  intro heq
  obtain ⟨name, hname⟩ := hb.kind_eq
  have hkind : (p.block b).kind = .hostCall name := hname
  obtain ⟨r, hr, hkey⟩ := exists_items_structuralKey hb.lt_size (by simp [hkind]) (by simp [hkind])
  rw [← heq] at hkey
  rcases hr with rfl | hr
  · have htag : (p.block b).tag = onStartTag := by
      rw [append_nil] at hkey
      exact String.toList_inj.mp hkey.symm
    cases (kind_of_onStartTag hbuild hb.lt_size htag).symm.trans hname
  · have hblank : ' ' ∈ onStartTag.toList :=
      hkey ▸ mem_append_right _ (mem_of_head? hr)
    exact absurd hblank (by decide)

/-- The first word of a block's key is that of its type. -/
theorem firstWord_structuralKey (hb : b < p.workspace.size)
    (hfunction : (p.block b).kind ≠ .functionDefinition) (hstart : (p.block b).kind ≠ .onStart) :
    firstWord (p.structuralKey b).toList = firstWord (p.block b).tag.toList := by
  obtain ⟨r, hr, hkey⟩ := exists_items_structuralKey hb hfunction hstart
  rw [hkey]
  unfold firstWord
  rw [takeWhile_append]
  split
  · next h =>
    have hnil : r.takeWhile (fun c => decide (c ≠ ' ')) = [] := by
      rcases hr with rfl | hr
      · rfl
      · obtain ⟨r', rfl⟩ := head?_eq_some_iff.mp hr
        rfl
    rw [hnil, append_nil, (takeWhile_sublist _).eq_of_length h]
  · rfl

/-- A registration does not share its key with a function definition. -/
theorem structuralKey_function_ne (ha : a < p.workspace.size)
    (hkind : p.kind a = .functionDefinition) (hb : b < p.workspace.size) (h : IsReadable p b)
    (hword : firstWord (p.block b).tag.toList ≠ "function".toList) :
    p.structuralKey a ≠ p.structuralKey b := by
  intro heq
  obtain ⟨hfunction, hstart, _, _, _, _, _⟩ := h
  apply hword
  rw [← firstWord_structuralKey hb hfunction hstart, ← heq, structuralKey_function ha hkind,
    String.toList_append]
  rfl

/-- Registrations that can be read back share a key exactly if they have the same shape. Such a
registration is switched off exactly if it may not be repeated and has the shape of an earlier one,
unless its type begins like the key of a function. -/
theorem registrations_apart {surface : Surface} {specs : List BlockSpec}
    {vars : List VariableModel} (hbuild : Workspace.build surface specs vars = .ok p.workspace) :
    (∀ a b, p.IsRegistration a → p.IsRegistration b → IsReadable p a → IsReadable p b →
      (p.structuralKey a = p.structuralKey b ↔ SameShape p a b)) ∧
    ∀ b, p.IsRegistration b → firstWord (p.block b).tag.toList ≠ "function".toList →
      (∀ a ≤ b, p.IsRegistration a → IsReadable p a) →
      (b ∈ p.selectTops.disabled ↔ p.allowsMultiple b = false ∧
        ∃ a < b, p.IsRegistration a ∧ p.allowsMultiple a = false ∧ SameShape p a b) := by
  have hkeys : ∀ a b, p.IsRegistration a → p.IsRegistration b → IsReadable p a →
      IsReadable p b → (p.structuralKey a = p.structuralKey b ↔ SameShape p a b) :=
    fun a b ha hb => structuralKey_eq_iff (build_sound hbuild) ha.lt_size hb.lt_size
  refine ⟨hkeys, fun b hb hword hreadable => ?_⟩
  have hb' := hreadable b (Nat.le_refl b) hb
  rw [container_mem_disabled hb.mem hb.role?_eq]
  refine and_congr_right fun _ => ?_
  constructor
  · rintro ⟨a, ha, hlt, ⟨hrole, hmultiple⟩, hkey⟩
    have hsize := lt_size_of_enabledTop ha
    rcases hrole with hrole | hrole
    · rw [structuralKey_start hsize (role?_eq hrole)] at hkey
      exact absurd hkey (onStartTag_ne_structuralKey hbuild hb)
    · by_cases hfunction : p.kind a = .functionDefinition
      · exact absurd hkey (structuralKey_function_ne hsize hfunction hb.lt_size hb' hword)
      · have hregistration := isRegistration_of_role? ha hrole hfunction
        have ha' := hreadable a (Nat.le_of_lt hlt) hregistration
        exact ⟨a, hlt, hregistration, hmultiple, (hkeys a b hregistration hb ha' hb').mp hkey⟩
  · rintro ⟨a, hlt, ha, hmultiple, hshape⟩
    have ha' := hreadable a (Nat.le_of_lt hlt) ha
    exact ⟨a, ha.mem, hlt, ⟨Or.inr ha.role?_eq, hmultiple⟩, (hkeys a b ha hb ha' hb').mpr hshape⟩

end Registrations

def buttonHost : Surface :=
  Surface.addSymbol {}
    { nameSpace := "input", name := "onButton", result := .void, handler := some []
      blockType := some "button_event" }

def buttonProgram (specs : List BlockSpec) : Program where
  workspace :=
    match build buttonHost specs [] with
    | .ok ws => ws
    | .error _ => {}
  surface := buttonHost

/-- A registration for a button, with a number plugged into it. -/
def buttonBlocks (id button number : String) : List BlockSpec :=
  [{ id := id, tag := "button_event", fields := [⟨"NAME", button⟩]
     inputs := [("TIMES", .value, some (id ++ "_times")), ("HANDLER", .statement, none)] },
   { id := id ++ "_times", tag := "math_number", fields := [⟨"NUM", number⟩] }]

/-- Registrations for the same button once and twice, and once again. -/
def repeatedBlocks : List BlockSpec :=
  buttonBlocks "first" "A=(left) or so" "1" ++ buttonBlocks "second" "A=(left) or so" "2" ++
    buttonBlocks "third" "A=(left) or so" "1"

/-- Only the third of the registrations is switched off. -/
theorem registrations_apart_repeated :
    let p := buttonProgram repeatedBlocks
    p.IsRegistration 0 ∧ p.IsRegistration 2 ∧ p.IsRegistration 4 ∧ SameShape p 0 4 ∧
      4 ∈ p.selectTops.disabled ∧ ¬ SameShape p 0 2 ∧ 2 ∉ p.selectTops.disabled := by
  intro p
  have hbuild : build p.surface repeatedBlocks [] = .ok p.workspace := by decide +kernel
  have htops : p.workspace.topBlocks = [0, 2, 4] := by decide +kernel
  have hevents : ∀ b ∈ [0, 2, 4], p.workspace.isEnabled b = true ∧
      (p.symbolOf? b).any (·.isEvent) = true ∧ p.allowsMultiple b = false ∧
      KeyText.firstWord (p.block b).tag.toList ≠ "function".toList ∧
      p.readableWithin 2 b = true := by
    decide +kernel
  have hkey : p.structuralKey 0 = p.structuralKey 4 ∧ p.structuralKey 0 ≠ p.structuralKey 2 := by
    decide +kernel
  have hregistration : ∀ b ∈ [0, 2, 4], p.IsRegistration b := fun b hb =>
    ⟨htops ▸ hb, (hevents b hb).1, (hevents b hb).2.1⟩
  have hreadable : ∀ b, p.IsRegistration b → IsReadable p b := fun b hb =>
    isReadable_of_readableWithin (hevents b (htops ▸ hb.top)).2.2.2.2
  have h0 := hregistration 0 (by decide)
  have h2 := hregistration 2 (by decide)
  have h4 := hregistration 4 (by decide)
  obtain ⟨hshapes, hoff⟩ := registrations_apart hbuild
  have hsame : SameShape p 0 4 :=
    (hshapes 0 4 h0 h4 (hreadable 0 h0) (hreadable 4 h4)).mp hkey.1
  have hapart : ¬ SameShape p 0 2 := fun h =>
    hkey.2 ((hshapes 0 2 h0 h2 (hreadable 0 h0) (hreadable 2 h2)).mpr h)
  refine ⟨h0, h2, h4, hsame, ?_, hapart, ?_⟩
  · obtain ⟨_, _, hsingle, hword, _⟩ := hevents 4 (by decide)
    exact (hoff 4 h4 hword fun a _ => hreadable a).mpr
      ⟨hsingle, 0, by decide, h0, (hevents 0 (by decide)).2.2.1, hsame⟩
  · intro h
    obtain ⟨_, _, _, hword, _⟩ := hevents 2 (by decide)
    obtain ⟨_, a, hlt, ha, _, hshape⟩ := (hoff 2 h2 hword fun a _ => hreadable a).mp h
    have hfirst : ∀ a ∈ [0, 2, 4], a < 2 → a = 0 := by decide
    exact hapart (hfirst a (htops ▸ ha.top) hlt ▸ hshape)

def ambiguousBlocks : List BlockSpec :=
  [{ id := "first", tag := "button_event", fields := [⟨"A", "1 B=2"⟩]
     inputs := [("HANDLER", .statement, none)] },
   { id := "second", tag := "button_event", fields := [⟨"A", "1"⟩, ⟨"B", "2"⟩]
     inputs := [("HANDLER", .statement, none)] }]

/-- Registrations that differ share a key, and the second of them is switched off. -/
theorem selectTops_drops_differing :
    let p := buttonProgram ambiguousBlocks
    build p.surface ambiguousBlocks [] = .ok p.workspace ∧
      p.IsRegistration 0 ∧ p.IsRegistration 1 ∧ ¬ SameShape p 0 1 ∧
      p.structuralKey 0 = p.structuralKey 1 ∧ p.selectTops.disabled = [1] := by
  intro p
  have hevents : ∀ b ∈ [0, 1], b ∈ p.workspace.topBlocks ∧ p.workspace.isEnabled b = true ∧
      (p.symbolOf? b).any (·.isEvent) = true := by
    decide +kernel
  have hregistration : ∀ b ∈ [0, 1], p.IsRegistration b := fun b hb =>
    ⟨(hevents b hb).1, (hevents b hb).2.1, (hevents b hb).2.2⟩
  have hfields : (p.block 0).fields ≠ (p.block 1).fields := by decide +kernel
  refine ⟨by decide +kernel, hregistration 0 (by decide), hregistration 1 (by decide),
    fun ⟨_, h, _, _⟩ => hfields h, ?_⟩
  decide +kernel

end BlockProgram
