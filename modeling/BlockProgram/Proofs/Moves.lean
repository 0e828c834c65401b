import BlockProgram.Compilation.State
import Mathlib.Order.Defs.Unbundled

/-!
# Steps that move the state along a relation

Most of what is known about a step is how it may change the state, and that holds whether it fails
or not. `Moves R m s Q` says: run in `s`, step `m` ends in a state that `R` leads to, and if it does
not fail, `Q` holds of its value and of that state. `Runs R m s Q` says the same of a step that
cannot fail. The relation is reflexive and transitive, so what is known of single steps carries over
to sequences of them.
-/

namespace BlockProgram

open List

variable {ε σ α β : Type} {R R' : σ → σ → Prop} {s s' : σ} {a : α} {I : σ → Prop}
  {T : β → σ → Prop} {m : EStateM ε σ α} {f : α → EStateM ε σ β}

/-! ## Steps that always succeed -/

/-- Run in `s`, step `m` goes along `R`, and `Q` holds of what it yields. -/
def Runs (R : σ → σ → Prop) (m : StateM σ α) (s : σ) (Q : α → σ → Prop) : Prop :=
  R s (m s).2 ∧ Q (m s).1 (m s).2

namespace Runs

variable {m : StateM σ α} {s : σ} {Q Q' : α → σ → Prop}

theorem imp (h : Runs R m s Q) (hQ : ∀ a s', R s s' → Q a s' → Q' a s') : Runs R m s Q' :=
  ⟨h.1, hQ _ _ h.1 h.2⟩

theorem mono (h : Runs R m s Q) (hR : ∀ s', R s s' → R' s s') : Runs R' m s Q :=
  ⟨hR _ h.1, h.2⟩

/-- Two facts about one step. -/
theorem and (h : Runs R m s Q) (h' : Runs R' m s Q') : Runs R m s (fun a s' => Q a s' ∧ Q' a s') :=
  ⟨h.1, h.2, h'.2⟩

/-- A step along one relation as one along another, with the first as a fact about the result. -/
theorem widen (h : Runs R m s Q) (hR : ∀ s', R s s' → R' s s') :
    Runs R' m s (fun a s' => R s s' ∧ Q a s') :=
  ⟨hR _ h.1, h.1, h.2⟩

theorem pure [Std.Refl R] (a : α) (h : Q a s) : Runs R (Pure.pure a : StateM σ α) s Q :=
  ⟨Std.Refl.refl s, h⟩

theorem bind [IsTrans σ R] {f : α → StateM σ β} (h : Runs R m s Q)
    (hf : ∀ a s', R s s' → Q a s' → Runs R (f a) s' T) : Runs R (m >>= f) s T := by
  have hrest := hf _ _ h.1 h.2
  exact ⟨trans_of R h.1 hrest.1, hrest.2⟩

theorem bind_get {f : σ → StateM σ β} (h : Runs R (f s) s T) : Runs R (MonadState.get >>= f) s T :=
  h

theorem of_modify {Q : PUnit → σ → Prop} (f : σ → σ) (hR : R s (f s)) (h : Q ⟨⟩ (f s)) :
    Runs R (modify f : StateM σ PUnit) s Q :=
  ⟨hR, h⟩

theorem bind_modify [IsTrans σ R] {k : PUnit → StateM σ β} (f : σ → σ) (hR : R s (f s))
    (h : Runs R (k ⟨⟩) (f s) T) : Runs R (modify f >>= k) s T :=
  ⟨trans_of R hR h.1, h.2⟩

end Runs

theorem run_get_bind (f : σ → StateM σ β) (s : σ) : (MonadState.get >>= f : StateM σ β) s = f s s :=
  rfl

/-! ## Steps that may fail -/

theorem run_bind_get (f : σ → EStateM ε σ β) (s : σ) :
    (MonadState.get >>= f : EStateM ε σ β) s = f s s :=
  rfl

theorem run_bind_of_ok (hm : m s = .ok a s') (f : α → EStateM ε σ β) : (m >>= f) s = f a s' := by
  show EStateM.bind m f s = f a s'
  unfold EStateM.bind
  rw [hm]

theorem exists_of_bind_ok {b : β} (h : (m >>= f) s = .ok b s') :
    ∃ a s1, m s = .ok a s1 ∧ f a s1 = .ok b s' := by
  change EStateM.bind m f s = _ at h
  unfold EStateM.bind at h
  cases hm : m s with
  | ok a s1 =>
    rw [hm] at h
    exact ⟨a, s1, rfl, h⟩
  | error e s1 =>
    rw [hm] at h
    cases h

theorem run_bind_of_error {e : ε} (hm : m s = .error e s') (f : α → EStateM ε σ β) :
    (m >>= f) s = .error e s' := by
  show EStateM.bind m f s = .error e s'
  unfold EStateM.bind
  rw [hm]

/-- Run in `s`, step `m` yields what `Q` says, or fails as `E` says. -/
def Ensures (m : EStateM ε σ α) (s : σ) (Q : α → σ → Prop) (E : ε → σ → Prop) : Prop :=
  match m s with
  | .ok a s' => Q a s'
  | .error e s' => E e s'

namespace Ensures

variable {m : EStateM ε σ α} {s : σ} {Q Q' : α → σ → Prop} {E E' : ε → σ → Prop}

theorem of_ok (h : Ensures m s Q E) {s' : σ} (hm : m s = .ok a s') : Q a s' := by
  unfold Ensures at h
  rw [hm] at h
  exact h

theorem of_error (h : Ensures m s Q E) {e : ε} {s' : σ} (hm : m s = .error e s') : E e s' := by
  unfold Ensures at h
  rw [hm] at h
  exact h

theorem intro (hQ : ∀ a s', m s = .ok a s' → Q a s') (hE : ∀ e s', m s = .error e s' → E e s') :
    Ensures m s Q E := by
  unfold Ensures
  split
  · next a s' hm => exact hQ a s' hm
  · next e s' hm => exact hE e s' hm

theorem imp (h : Ensures m s Q E) (hQ : ∀ a s', Q a s' → Q' a s')
    (hE : ∀ e s', E e s' → E' e s') : Ensures m s Q' E' :=
  intro (fun a s' hm => hQ a s' (h.of_ok hm)) (fun e s' hm => hE e s' (h.of_error hm))

theorem and (h : Ensures m s Q E) (h' : Ensures m s Q' E') :
    Ensures m s (fun a s' => Q a s' ∧ Q' a s') (fun e s' => E e s' ∧ E' e s') :=
  intro (fun _ _ hm => ⟨h.of_ok hm, h'.of_ok hm⟩) (fun _ _ hm => ⟨h.of_error hm, h'.of_error hm⟩)

theorem bind (h : Ensures m s Q E) (hf : ∀ a s', Q a s' → Ensures (f a) s' T E) :
    Ensures (m >>= f) s T E := by
  show Ensures (EStateM.bind m f) s T E
  unfold Ensures EStateM.bind
  cases hm : m s with
  | error e s' => exact h.of_error hm
  | ok a s' => exact hf a s' (h.of_ok hm)

theorem bind_get {f : σ → EStateM ε σ β} (h : Ensures (f s) s T E) : Ensures (get >>= f) s T E :=
  h

theorem bind_set {f : PUnit → EStateM ε σ β} (s' : σ) (h : Ensures (f ⟨⟩) s' T E) :
    Ensures (set s' >>= f) s T E :=
  h

theorem bind_lift {m : StateM σ α} (h : Ensures (f (m s).1) (m s).2 T E) :
    Ensures (liftM m >>= f) s T E :=
  h

end Ensures

/-- Run in `s`, step `m` does not fail, and `Q` holds of what it yields. -/
def Succeeds (m : EStateM ε σ α) (s : σ) (Q : α → σ → Prop) : Prop :=
  Ensures m s Q (fun _ _ => False)

namespace Succeeds

variable {Q : α → σ → Prop}

theorem bind_of_ok (hm : m s = .ok a s') (h : Succeeds (f a) s' T) : Succeeds (m >>= f) s T := by
  unfold Succeeds Ensures
  rw [run_bind_of_ok hm]
  exact h

theorem of_ok (hm : m s = .ok a s') (h : Q a s') : Succeeds m s Q := by
  unfold Succeeds Ensures
  rw [hm]
  exact h

theorem of_run_eq {m' : EStateM ε σ α} (hm : m s = m' s) (h : Succeeds m' s Q) :
    Succeeds m s Q := by
  unfold Succeeds Ensures at h ⊢
  rw [hm]
  exact h

instance decidable [∀ a s', Decidable (Q a s')] : Decidable (Succeeds m s Q) :=
  match hm : m s with
  | .ok a s' => decidable_of_iff (Q a s') ⟨of_ok hm, fun h => Ensures.of_ok h hm⟩
  | .error _ _ => .isFalse fun h => Ensures.of_error h hm

theorem exists_ok (h : Succeeds m s Q) : ∃ a s', m s = .ok a s' ∧ Q a s' := by
  cases hr : m s with
  | ok a s' => exact ⟨a, s', rfl, Ensures.of_ok h hr⟩
  | error e s' => exact (Ensures.of_error h hr).elim

end Succeeds

/-- Run in `s`, step `m` goes along `R` even if it fails, and `Q` holds of what it yields. -/
def Moves (R : σ → σ → Prop) (m : EStateM ε σ α) (s : σ) (Q : α → σ → Prop) : Prop :=
  Ensures m s (fun a s' => R s s' ∧ Q a s') (fun _ s' => R s s')

namespace Moves

variable {m : EStateM ε σ α} {s : σ} {Q Q' : α → σ → Prop}

theorem imp (h : Moves R m s Q) (hQ : ∀ a s', R s s' → Q a s' → Q' a s') : Moves R m s Q' :=
  Ensures.imp h (fun a s' ha => ⟨ha.1, hQ a s' ha.1 ha.2⟩) (fun _ _ he => he)

/-- A step along one relation is one along any other that holds more often. -/
theorem mono (h : Moves R m s Q) (hR : ∀ s', R s s' → R' s s') : Moves R' m s Q :=
  Ensures.imp h (fun _ s' ha => ⟨hR s' ha.1, ha.2⟩) (fun _ s' he => hR s' he)

theorem pure [Std.Refl R] (a : α) (h : Q a s) : Moves R (Pure.pure a : EStateM ε σ α) s Q :=
  ⟨Std.Refl.refl s, h⟩

theorem bind [IsTrans σ R] (h : Moves R m s Q) (hf : ∀ a s', R s s' → Q a s' → Moves R (f a) s' T) :
    Moves R (m >>= f) s T := by
  refine Ensures.bind h ?_
  rintro a s' ⟨hR, hQ⟩
  refine Ensures.imp (hf a s' hR hQ) ?_ ?_
  · rintro b s'' ⟨hR', hT⟩
    exact ⟨trans_of R hR hR', hT⟩
  · intro e s'' hR'
    exact trans_of R hR hR'

theorem bind_get {f : σ → EStateM ε σ β} (h : Moves R (f s) s T) : Moves R (get >>= f) s T :=
  h

theorem of_set {Q : PUnit → σ → Prop} (s' : σ) (hR : R s s') (h : Q ⟨⟩ s') :
    Moves R (set s' : EStateM ε σ PUnit) s Q :=
  ⟨hR, h⟩

theorem bind_set [IsTrans σ R] {f : PUnit → EStateM ε σ β} (s' : σ) (hR : R s s')
    (h : Moves R (f ⟨⟩) s' T) : Moves R (set s' >>= f) s T := by
  have hset : Moves R (set s' : EStateM ε σ PUnit) s (fun _ x => x = s') := of_set s' hR rfl
  refine bind hset ?_
  rintro _ _ _ rfl
  exact h

theorem lift {m : StateM σ α} (h : Runs R m s Q) : Moves R (liftM m : EStateM ε σ α) s Q :=
  h

/-- A loop: what each round finds out, later rounds keep. -/
theorem forM [Std.Refl R] [IsTrans σ R] {f : α → EStateM ε σ PUnit} {P : α → σ → Prop}
    (hI : ∀ s s', I s → R s s' → I s') (hP : ∀ a s s', I s → P a s → R s s' → P a s') (l : List α)
    (hf : ∀ a ∈ l, ∀ s, I s → Moves R (f a) s (fun _ s' => P a s')) (hs : I s) :
    Moves R (l.forM f) s (fun _ s' => ∀ a ∈ l, P a s') := by
  induction l generalizing s with
  | nil => exact pure _ (fun a ha => by cases ha)
  | cons a r ih =>
    show Moves R (f a >>= fun _ => r.forM f) s _
    refine bind (hf a (.head _) s hs) ?_
    intro _ s1 h1 ha
    have hs1 := hI s s1 hs h1
    refine imp (ih (fun x hx => hf x (.tail a hx)) hs1) ?_
    intro _ s2 h2 hr x hx
    rcases mem_cons.mp hx with rfl | hx
    · exact hP x s1 s2 hs1 ha h2
    · exact hr x hx

/-- A loop that only keeps an invariant. -/
theorem loop [Std.Refl R] [IsTrans σ R] {f : α → EStateM ε σ PUnit}
    (hI : ∀ s s', I s → R s s' → I s') (l : List α)
    (hf : ∀ a ∈ l, ∀ s, I s → Moves R (f a) s (fun _ _ => True)) (hs : I s) :
    Moves R (l.forM f) s (fun _ _ => True) :=
  imp (forM hI (fun _ _ _ _ _ _ => trivial) l hf hs) fun _ _ _ _ => trivial

theorem mapM [Std.Refl R] [IsTrans σ R] {P : β → σ → Prop} (hI : ∀ s s', I s → R s s' → I s')
    (hP : ∀ b s s', I s → P b s → R s s' → P b s') (l : List α)
    (hf : ∀ a ∈ l, ∀ s, I s → Moves R (f a) s P) (hs : I s) :
    Moves R (l.mapM f) s (fun bs s' => ∀ b ∈ bs, P b s') := by
  induction l generalizing s with
  | nil =>
    rw [mapM_nil]
    exact pure _ (fun b hb => by cases hb)
  | cons a r ih =>
    rw [mapM_cons]
    refine bind (hf a (.head _) s hs) ?_
    intro b s1 h1 hb
    have hs1 := hI s s1 hs h1
    refine bind (ih (fun x hx => hf x (.tail a hx)) hs1) ?_
    intro bs s2 h2 hbs
    refine pure _ ?_
    intro x hx
    rcases mem_cons.mp hx with rfl | hx
    · exact hP x s1 s2 hs1 hb h2
    · exact hbs x hx

end Moves

/-! ## Loops of steps that always succeed -/

/-- Steps that never fail, one after another, as steps that might. -/
theorem liftM_mapM (f : α → StateM σ β) (l : List α) :
    (liftM (l.mapM f) : EStateM ε σ (List β)) = l.mapM fun a => liftM (f a) := by
  induction l with
  | nil => rfl
  | cons a r ih =>
    rw [mapM_cons, mapM_cons, ← ih]
    rfl

theorem liftM_forM (f : α → StateM σ PUnit) (l : List α) :
    (liftM (l.forM f) : EStateM ε σ PUnit) = l.forM fun a => liftM (f a) := by
  induction l with
  | nil => rfl
  | cons a r ih =>
    show (liftM (f a) >>= fun _ => liftM (r.forM f) : EStateM ε σ PUnit) = _
    rw [ih]
    rfl

theorem Runs.loop [Std.Refl R] [IsTrans σ R] {f : α → StateM σ PUnit}
    (hI : ∀ s s', I s → R s s' → I s') (l : List α)
    (hf : ∀ a ∈ l, ∀ s, I s → Runs R (f a) s (fun _ _ => True)) (hs : I s) :
    Runs R (l.forM f) s (fun _ _ => True) := by
  have h : Moves R (l.forM fun a => liftM (f a) : EStateM Empty σ PUnit) s _ :=
    Moves.loop hI l (fun a ha s hs => .lift (hf a ha s hs)) hs
  rw [← liftM_forM] at h
  exact h

/-! ## Steps that keep a property of the state -/

/-- Run in a state with property `I`, step `m` ends in one, and `Q` holds of its value. -/
def Preserves (I : σ → Prop) (m : StateM σ α) (Q : α → Prop) : Prop :=
  ∀ s, I s → Runs (fun _ s' => I s') m s (fun a _ => Q a)

namespace Preserves

variable {I : σ → Prop} {m : StateM σ α} {Q Q' : α → Prop} {T : β → Prop}

theorem pure (h : Q a) : Preserves I (Pure.pure a) Q :=
  fun _ hs => ⟨hs, h⟩

theorem bind {f : α → StateM σ β} (h : Preserves I m Q) (hf : ∀ a, Q a → Preserves I (f a) T) :
    Preserves I (m >>= f) T :=
  fun s hs => hf _ (h s hs).2 _ (h s hs).1

theorem bind_get {f : σ → StateM σ β} (hf : ∀ s, I s → Preserves I (f s) T) :
    Preserves I (MonadState.get >>= f) T :=
  fun s hs => hf s hs s hs

theorem map {f : α → β} (h : Preserves I m Q) (hf : ∀ a, Q a → T (f a)) :
    Preserves I (f <$> m) T := by
  rw [map_eq_pure_bind]
  exact h.bind fun a ha => pure (hf a ha)

theorem of_modify {f : σ → σ} (hf : ∀ s, I s → I (f s)) :
    Preserves I (modify f : StateM σ PUnit) fun _ => True :=
  fun s hs => ⟨hf s hs, trivial⟩

end Preserves

/-- Run in a state with property `I`, step `m` ends in one even if it fails, and `Q` holds of what
it yields. -/
def Gives (I : σ → Prop) (m : EStateM ε σ α) (Q : α → Prop) : Prop :=
  ∀ s, I s → Moves (fun _ s' => I s') m s (fun a _ => Q a)

namespace Gives

variable {I : σ → Prop} {m : EStateM ε σ α} {Q Q' : α → Prop} {T : β → Prop}

theorem imp (h : Gives I m Q) (hQ : ∀ a, Q a → Q' a) : Gives I m Q' :=
  fun s hs => (h s hs).imp fun a _ _ => hQ a

theorem of_ok (h : Gives I m Q) (hs : I s) (hm : m s = .ok a s') : I s' ∧ Q a :=
  Ensures.of_ok (h s hs) hm

theorem pure (h : Q a) : Gives I (Pure.pure a : EStateM ε σ α) Q :=
  fun _ hs => ⟨hs, h⟩

theorem of_set {s' : σ} (hs : I s') : Gives I (set s' : EStateM ε σ PUnit) fun _ => True :=
  fun _ _ => ⟨hs, trivial⟩

theorem lift {m : StateM σ α} (h : Preserves I m Q) : Gives I (liftM m : EStateM ε σ α) Q :=
  fun s hs => h s hs

theorem bind (h : Gives I m Q) (hf : ∀ a, Q a → Gives I (f a) T) : Gives I (m >>= f) T :=
  fun s hs => Ensures.bind (h s hs) fun a s' ha => hf a ha.2 s' ha.1

theorem bind_get {f : σ → EStateM ε σ β} (hf : ∀ s, I s → Gives I (f s) T) :
    Gives I (MonadState.get >>= f) T :=
  fun s hs => hf s hs s hs

theorem map {f : α → β} (h : Gives I m Q) (hf : ∀ a, Q a → T (f a)) : Gives I (f <$> m) T := by
  rw [map_eq_pure_bind]
  exact h.bind fun a ha => pure (hf a ha)

theorem mapM (l : List α) (hf : ∀ a ∈ l, Gives I (f a) T) :
    Gives I (l.mapM f) fun bs => ∀ b ∈ bs, T b := by
  induction l with
  | nil =>
    rw [mapM_nil]
    exact pure fun b hb => by cases hb
  | cons a r ih =>
    rw [mapM_cons]
    refine bind (hf a (.head _)) fun b hb => ?_
    refine bind (ih fun x hx => hf x (.tail a hx)) fun bs hbs => pure ?_
    exact forall_mem_cons.mpr ⟨hb, hbs⟩

theorem forM {f : α → EStateM ε σ PUnit} (l : List α) (hf : ∀ a ∈ l, Gives I (f a) fun _ => True) :
    Gives I (l.forM f) fun _ => True := by
  induction l with
  | nil => exact pure trivial
  | cons a r ih =>
    show Gives I (f a >>= fun _ => r.forM f) _
    exact bind (hf a (.head _)) fun _ _ => ih fun x hx => hf x (.tail a hx)

end Gives

theorem Preserves.mapM {T : β → Prop} {f : α → StateM σ β} (l : List α)
    (hf : ∀ a ∈ l, Preserves I (f a) T) : Preserves I (l.mapM f) fun bs => ∀ b ∈ bs, T b := by
  have h : Gives I (l.mapM fun a => liftM (f a) : EStateM Empty σ (List β)) _ :=
    Gives.mapM l fun a ha => .lift (hf a ha)
  rw [← liftM_mapM] at h
  exact h

end BlockProgram
