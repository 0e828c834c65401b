import BlockProgram.Proofs.Moves
import Mathlib.Data.List.Forall2

/-!
# Two runs side by side

`Pairs S V m n` says of two steps that cannot fail: run in states that `S` relates, they end in such
states and yield values that `V` relates. `Twins F S V m n` says the same of steps that may fail:
either both succeed like that, or both fail with one error, which `F` allows.

The rules below follow the ways in which steps are put together, so that two long programs are
compared part by part.
-/

namespace BlockProgram

open List

variable {ε σ α β α' β' : Type} {S : σ → σ → Prop} {l : List α} {k : List β}
  {f : α → EStateM ε σ α'}

/-! ## Steps that always succeed -/

/-- Run in related states, the steps end in related states with related values. -/
def Pairs (S : σ → σ → Prop) (V : α → β → Prop) (m : StateM σ α) (n : StateM σ β) : Prop :=
  ∀ s t, S s t → V (m s).1 (n t).1 ∧ S (m s).2 (n t).2

namespace Pairs

variable {V : α → β → Prop} {W : α' → β' → Prop} {m : StateM σ α} {n : StateM σ β}

theorem pure {a : α} {b : β} (h : V a b) :
    Pairs S V (Pure.pure a : StateM σ α) (Pure.pure b : StateM σ β) :=
  fun _ _ hS => ⟨h, hS⟩

theorem bind {f : α → StateM σ α'} {g : β → StateM σ β'} (h : Pairs S V m n)
    (hf : ∀ a b, V a b → Pairs S W (f a) (g b)) : Pairs S W (m >>= f) (n >>= g) := by
  intro s t hS
  obtain ⟨hV, hS'⟩ := h s t hS
  exact hf _ _ hV _ _ hS'

theorem bind_get {f g : σ → StateM σ α'} {W : α' → α' → Prop}
    (h : ∀ s t, S s t → Pairs S W (f s) (g t)) :
    Pairs S W (MonadState.get >>= f) (MonadState.get >>= g) :=
  fun s t hS => h s t hS s t hS

theorem of_modify {f g : σ → σ} (h : ∀ s t, S s t → S (f s) (g t)) :
    Pairs S Eq (modify f : StateM σ PUnit) (modify g : StateM σ PUnit) :=
  fun s t hS => ⟨rfl, h s t hS⟩

end Pairs

/-! ## Steps that may fail -/

/-- Both runs succeed with related values, or both fail with one error. -/
inductive Alike (F : ε → Prop) (S : σ → σ → Prop) (V : α → β → Prop) :
    EStateM.Result ε σ α → EStateM.Result ε σ β → Prop
  | ok {a : α} {b : β} {s t : σ} : V a b → S s t → Alike F S V (.ok a s) (.ok b t)
  | error {e : ε} {s t : σ} : F e → S s t → Alike F S V (.error e s) (.error e t)

/-- Run in related states, the steps end alike. -/
def Twins (F : ε → Prop) (S : σ → σ → Prop) (V : α → β → Prop) (m : EStateM ε σ α)
    (n : EStateM ε σ β) : Prop :=
  ∀ s t, S s t → Alike F S V (m s) (n t)

namespace Twins

variable {F : ε → Prop} {V : α → β → Prop} {W : α' → β' → Prop} {m : EStateM ε σ α}
  {n : EStateM ε σ β}

theorem pure {a : α} {b : β} (h : V a b) :
    Twins F S V (Pure.pure a : EStateM ε σ α) (Pure.pure b : EStateM ε σ β) :=
  fun _ _ hS => .ok h hS

theorem throw {e : ε} (h : F e) : Twins F S V (throw e : EStateM ε σ α) (throw e : EStateM ε σ β) :=
  fun _ _ hS => .error h hS

theorem imp {V' : α → β → Prop} (h : Twins F S V m n) (hV : ∀ a b, V a b → V' a b) :
    Twins F S V' m n := by
  intro s t hS
  have hmn := h s t hS
  generalize m s = x, n t = y at hmn ⊢
  cases hmn with
  | ok hab hS' => exact .ok (hV _ _ hab) hS'
  | error he hS' => exact .error he hS'

theorem bind {g : β → EStateM ε σ β'} (h : Twins F S V m n)
    (hf : ∀ a b, V a b → Twins F S W (f a) (g b)) : Twins F S W (m >>= f) (n >>= g) := by
  intro s t hS
  have hmn := h s t hS
  generalize hm : m s = x at hmn
  generalize hn : n t = y at hmn
  cases hmn with
  | ok hV hS' =>
    rw [run_bind_of_ok hm, run_bind_of_ok hn]
    exact hf _ _ hV _ _ hS'
  | error he hS' =>
    rw [run_bind_of_error hm, run_bind_of_error hn]
    exact .error he hS'

/-- Steps that yield the same, followed by steps that use it. -/
theorem bind_eq {g : α → EStateM ε σ β'} {n : EStateM ε σ α} (h : Twins F S Eq m n)
    (hf : ∀ a, Twins F S W (f a) (g a)) : Twins F S W (m >>= f) (n >>= g) := by
  refine bind h ?_
  rintro a _ rfl
  exact hf a

theorem bind_pure {n : EStateM ε σ α} {f : α → β} (h : Twins F S Eq m n) :
    Twins F S Eq (m >>= fun a => Pure.pure (f a)) (n >>= fun a => Pure.pure (f a)) :=
  bind_eq h fun _ => pure rfl

theorem map {f : α → α'} {g : β → β'} (h : Twins F S V m n) (hf : ∀ a b, V a b → W (f a) (g b)) :
    Twins F S W (f <$> m) (g <$> n) := by
  rw [map_eq_pure_bind, map_eq_pure_bind]
  exact bind h fun a b hab => pure (hf a b hab)

theorem bind_get {f : σ → EStateM ε σ α'} {g : σ → EStateM ε σ β'}
    (h : ∀ s t, S s t → Twins F S W (f s) (g t)) :
    Twins F S W (MonadState.get >>= f) (MonadState.get >>= g) :=
  fun s t hS => h s t hS s t hS

theorem lift {m : StateM σ α} {n : StateM σ β} (h : Pairs S V m n) :
    Twins F S V (liftM m : EStateM ε σ α) (liftM n : EStateM ε σ β) :=
  fun s t hS => .ok (h s t hS).1 (h s t hS).2

/-- Two loops over lists with related items. -/
theorem mapM {g : β → EStateM ε σ β'} (h : List.Forall₂ (fun a b => Twins F S W (f a) (g b)) l k) :
    Twins F S (List.Forall₂ W) (l.mapM f) (k.mapM g) := by
  induction h with
  | nil =>
    rw [mapM_nil, mapM_nil]
    exact pure .nil
  | cons hab _ ih =>
    rw [mapM_cons, mapM_cons]
    refine bind hab ?_
    intro a b hV
    refine bind ih ?_
    intro as bs hVs
    exact pure (.cons hV hVs)

/-- Two loops over related lists that yield the same. -/
theorem mapM_eq {γ : Type} {f : α → EStateM ε σ γ} {g : β → EStateM ε σ γ}
    (h : List.Forall₂ (fun a b => Twins F S Eq (f a) (g b)) l k) :
    Twins F S Eq (l.mapM f) (k.mapM g) :=
  (mapM h).imp fun _ _ h => forall₂_eq_eq_eq ▸ h

theorem forM {f : α → EStateM ε σ PUnit} {g : β → EStateM ε σ PUnit}
    (h : List.Forall₂ (fun a b => Twins F S Eq (f a) (g b)) l k) :
    Twins F S Eq (l.forM f) (k.forM g) := by
  induction h with
  | nil => exact pure rfl
  | cons hab _ ih => exact bind hab (fun _ _ _ => ih)

/-- Two loops over lists with related items, apart from items that both loops pass over. -/
theorem forM_filter {f : α → EStateM ε σ PUnit} {g : β → EStateM ε σ PUnit} {p : α → Bool}
    {q : β → Bool} (l : List α) (k : List β)
    (hf : ∀ a, p a = false → ∀ s t, S s t → f a s = .ok ⟨⟩ s)
    (hg : ∀ b, q b = false → ∀ s t, S s t → g b t = .ok ⟨⟩ t)
    (h : List.Forall₂ (fun a b => Twins F S Eq (f a) (g b)) (l.filter p) (k.filter q)) :
    Twins F S Eq (l.forM f) (k.forM g) := by
  -- an item that the right loop passes over
  have hright : ∀ (m : EStateM ε σ PUnit) b k, q b = false → Twins F S Eq m (k.forM g) →
      Twins F S Eq m ((b :: k).forM g) := by
    intro m b k hb hm s t hS
    show Alike F S Eq (m s) ((g b >>= fun _ => k.forM g) t)
    rw [run_bind_of_ok (hg b hb s t hS)]
    exact hm s t hS
  induction l generalizing k with
  | nil =>
    induction k with
    | nil => exact pure rfl
    | cons b k ih =>
      cases hb : q b with
      | true =>
        rw [filter_cons_of_pos hb] at h
        cases h
      | false =>
        rw [filter_cons_of_neg (by simp [hb])] at h
        exact hright _ b k hb (ih h)
  | cons a l ih =>
    cases ha : p a with
    | false =>
      rw [filter_cons_of_neg (by simp [ha])] at h
      intro s t hS
      show Alike F S Eq ((f a >>= fun _ => l.forM f) s) (k.forM g t)
      rw [run_bind_of_ok (hf a ha s t hS)]
      exact ih k h s t hS
    | true =>
      rw [filter_cons_of_pos ha] at h
      induction k with
      | nil => cases h
      | cons b k ihk =>
        cases hb : q b with
        | true =>
          rw [filter_cons_of_pos hb] at h
          cases h with
          | cons hab h => exact bind hab fun _ _ _ => ih k h
        | false =>
          rw [filter_cons_of_neg (by simp [hb])] at h
          exact hright _ b k hb (ihk h)

/-- Two loops over the same list that carry related values along. -/
theorem foldlM {γ : Type} {f : α → γ → EStateM ε σ α} {g : β → γ → EStateM ε σ β} {l : List γ}
    (h : ∀ x ∈ l, ∀ a b, V a b → Twins F S V (f a x) (g b x)) {a : α} {b : β} (hab : V a b) :
    Twins F S V (l.foldlM f a) (l.foldlM g b) := by
  induction l generalizing a b with
  | nil => exact pure hab
  | cons x r ih =>
    rw [foldlM_cons, foldlM_cons]
    refine bind (h x (.head _) a b hab) ?_
    intro a' b' hab'
    exact ih (fun y hy => h y (.tail x hy)) hab'

end Twins

namespace Pairs

/-- Steps that cannot fail are alike if they are so as steps that can. -/
theorem of_lift {V : α → β → Prop} {m : StateM σ α} {n : StateM σ β}
    (h : Twins (fun _ : Empty => True) S V (liftM m) (liftM n)) : Pairs S V m n := by
  intro s t hS
  cases h s t hS with
  | ok hV hS' => exact ⟨hV, hS'⟩

theorem mapM_eq {γ : Type} {f : α → StateM σ γ} {g : β → StateM σ γ}
    (h : List.Forall₂ (fun a b => Pairs S Eq (f a) (g b)) l k) :
    Pairs S Eq (l.mapM f) (k.mapM g) := by
  apply of_lift
  rw [liftM_mapM, liftM_mapM]
  exact .mapM_eq (h.imp fun _ _ => .lift)

theorem forM {f : α → StateM σ PUnit} {g : β → StateM σ PUnit}
    (h : List.Forall₂ (fun a b => Pairs S Eq (f a) (g b)) l k) :
    Pairs S Eq (l.forM f) (k.forM g) := by
  apply of_lift
  rw [liftM_forM, liftM_forM]
  exact .forM (h.imp fun _ _ => .lift)

end Pairs

end BlockProgram
