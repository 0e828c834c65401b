import BlockProgram.Proofs.Agreement.Selection
import BlockProgram.Proofs.Compilation.Access

/-!
# Scopes side by side

Programs that agree where they are enabled open the same scopes, with one exception: where a body
holds nothing but removed statements, only the larger program opens a scope, and nothing ever
happens in it. A `ScopeMap` says which scope of the larger program stands for a scope of the smaller
one, and `Parallel` relates the states of the two runs.

While a body is entered, its first statement may differ in the two runs. From the moment on at which
a statement is found live, the scope is headed by the same statement; `ScopeMap.headed` records
this.
-/

namespace BlockProgram

open Compilation List Program

/-! ## Lists side by side -/

/-- Two lists whose items correspond by `f`, up to items that are skipped on either side. -/
inductive Woven {α β : Type} (f : β → α) (skip : α → Prop) (skip' keep : β → Prop) :
    List α → List β → Prop
  | nil : Woven f skip skip' keep [] []
  | left {x : α} {l : List α} {k : List β} (hx : skip x) (h : Woven f skip skip' keep l k) :
      Woven f skip skip' keep (x :: l) k
  | right {y : β} {l : List α} {k : List β} (hy : skip' y) (h : Woven f skip skip' keep l k) :
      Woven f skip skip' keep l (y :: k)
  | both {y : β} {l : List α} {k : List β} (hy : keep y) (h : Woven f skip skip' keep l k) :
      Woven f skip skip' keep (f y :: l) (y :: k)

namespace Woven

variable {α β : Type} {f : β → α} {skip : α → Prop} {skip' keep : β → Prop} {l : List α}
  {k : List β}

theorem append {l' : List α} {k' : List β} (h : Woven f skip skip' keep l k)
    (h' : Woven f skip skip' keep l' k') : Woven f skip skip' keep (l ++ l') (k ++ k') := by
  induction h with
  | nil => exact h'
  | left hx _ ih => exact .left hx ih
  | right hy _ ih => exact .right hy ih
  | both hy _ ih => exact .both hy ih

/-- The items of the second list may be mapped and the skipped items described in another way. -/
theorem imp {f' : β → α} {skip₁ : α → Prop} (h : Woven f skip skip' keep l k)
    (hskip : ∀ x, skip x → skip₁ x) (hf : ∀ y ∈ k, f' y = f y) : Woven f' skip₁ skip' keep l k := by
  induction h with
  | nil => exact .nil
  | left hx _ ih => exact .left (hskip _ hx) (ih hf)
  | right hy _ ih => exact .right hy (ih fun z hz => hf z (.tail _ hz))
  | both hy _ ih =>
    rw [← hf _ (.head _)]
    exact .both hy (ih fun z hz => hf z (.tail _ hz))

/-- Lists that are the same once some items are left out. -/
theorem of_filter {P : α → Bool} {Q : β → Bool} (h : l.filter P = (k.filter Q).map f) :
    Woven f (P · = false) (Q · = false) (Q · = true) l k := by
  induction k generalizing l with
  | nil =>
    have hskip : ∀ x ∈ l, P x = false := by simpa using h
    clear h
    induction l with
    | nil => exact .nil
    | cons x r ih =>
      exact .left (hskip x (.head _)) (ih fun a ha => hskip a (.tail x ha))
  | cons y r ihk =>
    cases hy : Q y with
    | false =>
      rw [filter_cons_of_neg (by simp [hy])] at h
      exact .right hy (ihk h)
    | true =>
      rw [filter_cons_of_pos hy, map_cons] at h
      induction l with
      | nil => cases h
      | cons x l ihl =>
        cases hx : P x with
        | false =>
          rw [filter_cons_of_neg (by simp [hx])] at h
          exact .left hx (ihl h)
        | true =>
          rw [filter_cons_of_pos hx] at h
          obtain ⟨rfl, htail⟩ := List.cons.inj h
          exact .both hy (ihk htail)

end Woven

/-! ## Scopes -/

structure Scope.IsBlank (s : Scope) : Prop where
  children : s.children = []
  declared : s.declared = {}
  referenced : s.referenced = []
  assigned : s.assigned = []

/-- Which scopes of the larger program stand for those of the smaller one, and which of these are
headed by the same statement in both. -/
structure ScopeMap where
  image : Nat → Nat
  headed : Nat → Prop

/-- Leaves out the image of scope `n` and moves up those after it. -/
def ScopeMap.skip (w : ScopeMap) (n : Nat) : ScopeMap :=
  { w with image := fun s => if s < n then w.image s else w.image s + 1 }

theorem ScopeMap.skip_of_lt (w : ScopeMap) {n s : Nat} (hs : s < n) :
    (w.skip n).image s = w.image s :=
  if_pos hs

theorem ScopeMap.skip_of_le (w : ScopeMap) {n s : Nat} (hs : n ≤ s) :
    (w.skip n).image s = w.image s + 1 :=
  if_neg (Nat.not_lt_of_le hs)

/-- A map that goes on where another one ends. -/
structure ScopeMap.Extends (w w' : ScopeMap) (n : Nat) : Prop where
  image : ∀ s < n, w'.image s = w.image s
  headed : ∀ s < n, w.headed s → w'.headed s

/-- Children side by side: the larger program may have further ones. -/
def Children (f : Nat → Nat) : List Nat → List Nat → Prop :=
  Woven f (fun t => ∀ s, f s ≠ t) (fun _ => False) (fun _ => True)

/-- Scope `s` of `n` scopes of the smaller program beside its image. -/
structure ScopeAlike (e : BlockRef → BlockRef) (q : Program) (w : ScopeMap) (n : Nat) (s : Nat)
    (x y : Scope) : Prop where
  parent : x.parent = y.parent.map w.image
  parent_lt : ∀ t : Nat, y.parent = some t → t < s
  children : Children w.image x.children y.children
  child_lt : ∀ t : Nat, t ∈ y.children → s < t ∧ t < n
  declared : x.declared = y.declared
  referenced : x.referenced = y.referenced
  assigned : x.assigned = y.assigned
  statements : x.statements = y.statements.map e
  enabled : ∀ b ∈ y.statements, b < q.workspace.size ∧ q.workspace.isEnabled b = true
  head : Program.scopeHead? x = (Program.scopeHead? y).map e ∨ ¬w.headed s ∧ y.IsBlank
  first : ∀ d, q.kind d = .functionDefinition → (x.first = some (e d) ↔ y.first = some d)

/-- The states of the two runs while scopes are opened; the blocks `off` are switched off. -/
structure Parallel (e : BlockRef → BlockRef) (q : Program) (off : List BlockRef) (w : ScopeMap)
    (c d : Compilation) : Prop where
  mono : StrictMono w.image
  root : w.image rootScope = rootScope
  root_lt : rootScope < d.scopes.size
  root_headed : w.headed rootScope
  fresh : ∀ k, w.image (d.scopes.size + k) = c.scopes.size + k
  scopes : ∀ s < d.scopes.size, ScopeAlike e q w d.scopes.size s (c.scope (w.image s)) (d.scope s)
  blank : ∀ t, (∀ s, w.image s ≠ t) → (c.scope t).IsBlank
  graph : c.graph = d.graph
  bindings : c.bindings = d.bindings.map (Binding.rename e)
  blockScope : ∀ b, c.blockScope.get? (e b) = (d.blockScope.get? b).map w.image
  placed_lt : ∀ b (s : Nat), d.blockScope.get? b = some s → s < d.scopes.size
  declarations : ∀ b, c.blockDeclarations.get? (e b) = d.blockDeclarations.get? b
  rootDeclarations : c.rootDeclarations = d.rootDeclarations
  leftOff : c.disabled = off.map e
  rightOff : d.disabled = off
  taken : c.taken = d.taken

variable {e : BlockRef → BlockRef} {p q : Program} {off : List BlockRef} {w : ScopeMap}
  {c d : Compilation} {s : Nat} {b : BlockRef}

theorem ScopeMap.Extends.refl (w : ScopeMap) (n : Nat) : w.Extends w n :=
  ⟨fun _ _ => rfl, fun _ _ h => h⟩

theorem ScopeMap.Extends.trans {w₁ w₂ w₃ : ScopeMap} {m n : Nat} (h : w₁.Extends w₂ m)
    (h' : w₂.Extends w₃ n) (hmn : m ≤ n) : w₁.Extends w₃ m where
  image s hs := (h'.image s (by omega)).trans (h.image s hs)
  headed s hs hw := h'.headed s (by omega) (h.headed s hs hw)

namespace Parallel

variable (h : Parallel e q off w c d)
include h

theorem image_lt (hs : s < d.scopes.size) : w.image s < c.scopes.size := by
  have hlt := h.mono hs
  have hfresh := h.fresh 0
  simp only [Nat.add_zero] at hfresh
  omega

theorem image_size : w.image d.scopes.size = c.scopes.size := by
  have hfresh := h.fresh 0
  simpa using hfresh

theorem image_ne {t : Nat} (hst : s ≠ t) : w.image s ≠ w.image t :=
  fun himage => hst (h.mono.injective himage)

theorem find?_eq (hs : s < d.scopes.size) (name : String) :
    c.find? (w.image s) name = d.find? s name := by
  have hfrom : ∀ n m s, s < d.scopes.size → s < n → w.image s < m →
      c.findFrom name m (w.image s) = d.findFrom name n s := by
    intro n
    induction n with
    | zero => intro m s _ hn; omega
    | succ n ih =>
      intro m s hs hn hm
      cases m with
      | zero => omega
      | succ m =>
        have halike := h.scopes s hs
        unfold findFrom
        rw [halike.declared, halike.parent]
        cases (d.scope s).declared.get? name with
        | some v => rfl
        | none =>
          cases hparent : (d.scope s).parent with
          | none => rfl
          | some t =>
            have hts := halike.parent_lt t hparent
            have himage := h.mono hts
            exact ih m t (by omega) (by omega) (by omega)
  exact hfrom _ _ s hs hs (h.image_lt hs)

theorem binding_eq (v : BindingId) : c.binding v = (d.binding v).rename e := by
  unfold binding
  rw [h.bindings, Array.getElem?_map]
  cases d.bindings[v]? with
  | none => rfl
  | some x => rfl

theorem bindings_size : c.bindings.size = d.bindings.size := by
  rw [h.bindings, Array.size_map]

/-! ## Changes -/

/-- Corresponding scopes change in corresponding ways. -/
theorem updateScope {f g : Scope → Scope} (hs : s < d.scopes.size)
    (hfg : ScopeAlike e q w d.scopes.size s (f (c.scope (w.image s))) (g (d.scope s))) :
    Parallel e q off w (c.updateScope (w.image s) f) (d.updateScope s g) := by
  refine { h with root_lt := ?_, fresh := ?_, scopes := ?_, blank := ?_, placed_lt := ?_ }
  · rw [size_updateScope]
    exact h.root_lt
  · intro k
    rw [size_updateScope, size_updateScope]
    exact h.fresh k
  · intro t ht
    rw [size_updateScope] at ht ⊢
    by_cases hts : t = s
    · subst hts
      rw [scope_updateScope_self c (h.image_lt ht), scope_updateScope_self d ht]
      exact hfg
    · rw [scope_updateScope_ne c (h.image_ne hts), scope_updateScope_ne d hts]
      exact h.scopes t ht
  · intro t ht
    rw [scope_updateScope_ne c (Ne.symm (ht s))]
    exact h.blank t ht
  · intro b t ht
    rw [size_updateScope]
    exact h.placed_lt b t ht

theorem updateBinding {f g : Binding → Binding} (v : BindingId)
    (hfg : ∀ x, f (x.rename e) = (g x).rename e) :
    Parallel e q off w (c.updateBinding v f) (d.updateBinding v g) := by
  refine { h with bindings := ?_ }
  show c.bindings.modify v f = (d.bindings.modify v g).map (Binding.rename e)
  refine Array.ext_getElem? fun i => ?_
  rw [h.bindings, Array.getElem?_modify, Array.getElem?_map, Array.getElem?_map,
    Array.getElem?_modify]
  split
  · cases d.bindings[i]? with
    | none => rfl
    | some x => simp [hfg]
  · rfl

/-- A scope in which something happens is headed by the same statement in both runs. -/
theorem head_eq (hs : s < d.scopes.size) (hheaded : w.headed s) :
    scopeHead? (c.scope (w.image s)) = (scopeHead? (d.scope s)).map e :=
  (h.scopes s hs).head.resolve_right fun hblank => hblank.1 hheaded

theorem setHeaded (hs : scopeHead? (c.scope (w.image s)) =
    (scopeHead? (d.scope s)).map e) :
    Parallel e q off { w with headed := fun t => w.headed t ∨ t = s } c d := by
  refine { h with root_headed := .inl h.root_headed, scopes := ?_ }
  intro t ht
  refine { h.scopes t ht with head := ?_ }
  by_cases hts : t = s
  · subst hts
    exact .inl hs
  · refine (h.scopes t ht).head.imp_right fun ⟨hno, hblank⟩ => ⟨?_, hblank⟩
    rintro (hyes | hyes)
    · exact hno hyes
    · exact hts hyes

theorem declare (hs : s < d.scopes.size) (hheaded : w.headed s) (name : String) (node : NodeId) :
    (declare (w.image s) name node c).1 = (declare s name node d).1 ∧
      Parallel e q off w (declare (w.image s) name node c).2 (declare s name node d).2 := by
  have hpush : Parallel e q off w { c with bindings := c.bindings.push { name, node } }
      { d with bindings := d.bindings.push { name, node } } := by
    refine { h with bindings := ?_ }
    show c.bindings.push _ = (d.bindings.push _).map _
    rw [Array.map_push, h.bindings]
    rfl
  refine ⟨h.bindings_size, hpush.updateScope hs ?_⟩
  have halike := h.scopes s hs
  refine { halike with declared := ?_, head := .inl (h.head_eq hs hheaded) }
  show Table.insert _ name c.bindings.size = Table.insert _ name d.bindings.size
  rw [h.bindings_size, show ({ c with bindings := c.bindings.push { name, node } } :
    Compilation).scope (w.image s) = c.scope (w.image s) from rfl, halike.declared]
  rfl

theorem newScope (hs : s < d.scopes.size) (hheaded : w.headed s) {t t' : BlockRef}
    (hfirst : ∀ f, q.kind f = .functionDefinition → (t = e f ↔ t' = f)) :
    Parallel e q off { w with headed := fun x => w.headed x ∧ x ≠ d.scopes.size }
      (newScope (some (w.image s)) (some t) c).2 (newScope (some s) (some t') d).2 := by
  have himage := h.image_lt hs
  refine { h with
    root_lt := ?_, root_headed := ⟨h.root_headed, ne_of_lt h.root_lt⟩, fresh := ?_
    scopes := ?_, blank := ?_, placed_lt := ?_ }
  · rw [size_newScope]
    exact Nat.succ_pos _
  · intro k
    rw [size_newScope, size_newScope]
    have hfresh := h.fresh (k + 1)
    rw [show d.scopes.size + 1 + k = d.scopes.size + (k + 1) by omega]
    dsimp only
    omega
  · intro x hx
    rw [size_newScope] at hx ⊢
    rw [scope_newScope c himage, scope_newScope d hs]
    by_cases hnew : x = d.scopes.size
    · -- the new scope is blank, so its head may still differ
      rw [if_pos (by rw [hnew]; exact h.image_size), if_pos hnew]
      refine ⟨rfl, ?_, .nil, ?_, rfl, rfl, rfl, rfl, ?_, .inr ⟨fun hno => hno.2 hnew, ?_⟩, ?_⟩
      · rintro y hy
        cases hy
        omega
      · intro y hy
        cases hy
      · intro y hy
        cases hy
      · exact ⟨rfl, rfl, rfl, rfl⟩
      · intro f hf
        simpa using hfirst f hf
    · have hx : x < d.scopes.size := by omega
      have halike := h.scopes x hx
      rw [if_neg (ne_of_lt (h.image_lt hx)), if_neg hnew]
      by_cases hxs : x = s
      · -- the parent gets the new scope as its last child on both sides
        subst hxs
        rw [if_pos rfl, if_pos rfl]
        refine { halike with children := ?_, child_lt := ?_, head := .inl (h.head_eq hx hheaded) }
        · rw [← h.image_size]
          exact halike.children.append (.both trivial .nil)
        · intro y hy
          rcases mem_append.mp hy with hy | hy
          · have := halike.child_lt y hy
            omega
          · rw [mem_singleton.mp hy]
            omega
      · rw [if_neg (h.image_ne hxs), if_neg hxs]
        refine { halike with child_lt := ?_, head := ?_ }
        · intro y hy
          have := halike.child_lt y hy
          omega
        · exact halike.head.imp_right fun ⟨hno, hblank⟩ => ⟨fun hyes => hno hyes.1, hblank⟩
  · intro x hx
    have hxs : x ≠ w.image s := Ne.symm (hx s)
    have hnew : x ≠ c.scopes.size := by
      rw [← h.image_size]
      exact Ne.symm (hx d.scopes.size)
    rw [scope_newScope c himage, if_neg hnew, if_neg hxs]
    exact h.blank x hx
  · intro b x hx
    rw [size_newScope]
    exact Nat.lt_succ_of_lt (h.placed_lt b x hx)

/-- The next number is not the image of a scope once it is skipped, and nor is a number that was
none before. -/
theorem skip_ne {x y : Nat} (hx : x ≤ c.scopes.size)
    (hy : y < d.scopes.size → w.image y ≠ x) : (w.skip d.scopes.size).image y ≠ x := by
  by_cases hlt : y < d.scopes.size
  · rw [ScopeMap.skip_of_lt w hlt]
    exact hy hlt
  · have hle := h.mono.monotone (Nat.le_of_not_lt hlt)
    rw [h.image_size] at hle
    rw [ScopeMap.skip_of_le w (Nat.le_of_not_lt hlt)]
    omega

/-- A new scope in the larger program only. The scopes that are opened later move up by one. -/
theorem openBlank (hs : s < d.scopes.size) (t : BlockRef) : Parallel e q off (w.skip d.scopes.size)
      (Compilation.newScope (some (w.image s)) (some t) c).2 d := by
  have himage := h.image_lt hs
  -- every number from the next one on is the image of a scope to come
  have hextra : ∀ x, (∀ y, w.image y ≠ x) → x < c.scopes.size := by
    intro x hx
    by_contra hge
    have hfresh := h.fresh (x - c.scopes.size)
    exact hx _ (hfresh.trans (by omega))
  refine { h with
    mono := ?_, root := ?_, fresh := ?_, scopes := ?_, blank := ?_, blockScope := ?_ }
  · intro x y hxy
    have hlt := h.mono hxy
    unfold ScopeMap.skip
    dsimp only
    split <;> split <;> omega
  · exact (ScopeMap.skip_of_lt w h.root_lt).trans h.root
  · intro k
    have hfresh := h.fresh k
    rw [size_newScope, ScopeMap.skip_of_le w (Nat.le_add_right _ _)]
    omega
  · intro x hx
    have halike := h.scopes x hx
    have hparent : (c.scope (w.image x)).parent =
        (d.scope x).parent.map (w.skip d.scopes.size).image := by
      rw [halike.parent]
      refine Option.map_congr fun y hy => (ScopeMap.skip_of_lt w ?_).symm
      have := halike.parent_lt y hy
      omega
    have hchildren : Children (w.skip d.scopes.size).image (c.scope (w.image x)).children
        (d.scope x).children := by
      refine halike.children.imp ?_ fun y hy => ScopeMap.skip_of_lt w (halike.child_lt y hy).2
      exact fun y hy z => h.skip_ne (le_of_lt (hextra y hy)) fun _ => hy z
    rw [ScopeMap.skip_of_lt w hx, scope_newScope c himage, if_neg (ne_of_lt (h.image_lt hx))]
    by_cases hxs : x = s
    · subst hxs
      rw [if_pos rfl]
      refine { halike with parent := hparent, children := ?_ }
      rw [← append_nil (d.scope x).children]
      refine hchildren.append (.left ?_ .nil)
      exact fun y => h.skip_ne le_rfl fun hy => ne_of_lt (h.image_lt hy)
    · rw [if_neg (h.image_ne hxs)]
      exact { halike with parent := hparent, children := hchildren }
  · intro x hx
    have hxs : x ≠ w.image s := by
      rintro rfl
      exact hx s (ScopeMap.skip_of_lt w hs)
    rw [scope_newScope c himage]
    by_cases hnew : x = c.scopes.size
    · rw [if_pos hnew]
      exact ⟨rfl, rfl, rfl, rfl⟩
    · rw [if_neg hnew, if_neg hxs]
      refine h.blank x ?_
      rintro y rfl
      by_cases hy : y < d.scopes.size
      · exact hx y (ScopeMap.skip_of_lt w hy)
      · -- the image of a scope to come, but not of the next one
        obtain ⟨k, rfl⟩ := Nat.exists_eq_add_of_le (Nat.le_of_not_lt hy)
        have hfresh := h.fresh k
        have hprevious := h.fresh (k - 1)
        refine hx (d.scopes.size + (k - 1)) ?_
        rw [ScopeMap.skip_of_le w (Nat.le_add_right _ _)]
        omega
  · intro b
    show c.blockScope.get? (e b) = _
    rw [h.blockScope]
    exact Option.map_congr fun y hy => (ScopeMap.skip_of_lt w (h.placed_lt b y hy)).symm

end Parallel

end BlockProgram
