import BlockProgram.Proofs.Agreement.Basic

/-!
# The same top blocks

Programs that agree where they are enabled select the same top blocks, switch off the same, and
write them in the same order: the structural keys of enabled blocks are the same
(`structuralKey_eq`), and so is every decision (`consider_rename`).
-/

namespace BlockProgram

open Program Workspace List

def Selection.rename (e : BlockRef → BlockRef) (s : Selection) : Selection :=
  { keys := s.keys, start := s.start.map e, looseChain := s.looseChain.map e
    containers := s.containers.map e, disabled := s.disabled.map e }

/-! ## Sorting -/

namespace Sorted

variable {α β : Type} {f : β → α} {le : α → α → Bool} {le' : β → β → Bool}

theorem insert_map {a : β} {l : List β} (h : ∀ b ∈ l, le (f a) (f b) = le' a b) :
    insert le (f a) (l.map f) = (insert le' a l).map f := by
  induction l with
  | nil => rfl
  | cons b r ih =>
    rw [map_cons]
    unfold insert
    rw [h b mem_cons_self, ih fun x hx => h x (.tail b hx)]
    split <;> rfl

theorem sort_map {l : List β} (h : ∀ a ∈ l, ∀ b ∈ l, le (f a) (f b) = le' a b) :
    sort le (l.map f) = (sort le' l).map f := by
  induction l with
  | nil => rfl
  | cons a r ih =>
    rw [map_cons]
    unfold sort
    rw [ih fun x hx y hy => h x (.tail a hx) y (.tail a hy)]
    refine insert_map fun b hb => h a (.head _) b ?_
    exact .tail a ((mem_sort le' b r).mp hb)

end Sorted

namespace Agrees

variable {e : BlockRef → BlockRef} {p q : Program} {b : BlockRef} (h : Agrees e p q)
include h

/-! ## Roles and keys -/

theorem symbolOf?_eq (hb : AgreesBlock e p q b) : p.symbolOf? (e b) = q.symbolOf? b := by
  unfold symbolOf?
  rw [hb.kind, h.surface]

theorem isContainer_eq (hb : AgreesBlock e p q b) : p.isContainer (e b) = q.isContainer b := by
  unfold isContainer
  rw [hb.kind, h.surface]

theorem role?_eq (hb : AgreesBlock e p q b) : p.role? (e b) = q.role? b := by
  unfold role?
  rw [hb.kind, h.isContainer_eq hb, hb.hasOutput]

/-- The keys of what is plugged into the inputs decide the key of a block. -/
theorem keyStep_eq {f g : BlockRef → String} (hb : AgreesBlock e p q b)
    (hfg : ∀ t, e t ∈ p.workspace.children (e b) → t ∈ q.workspace.children b →
      q.workspace.isEnabled t = true → f (e t) = g t) : p.keyStep f (e b) = q.keyStep g b := by
  have hinputs : (p.block (e b)).valueInputs.map (p.inputKey f) =
      (q.block b).valueInputs.map (q.inputKey g) := by
    refine map_eq_of_forall₂ (forall₂_mem hb.valueInputs) ?_
    rintro i j ⟨hij, hi, hj⟩
    obtain ⟨hi, _⟩ := mem_filter.mp hi
    obtain ⟨hj, hvalue⟩ := mem_filter.mp hj
    have htarget := hij.target (.inl (by simpa using hvalue))
    unfold inputKey
    rw [hij.name, htarget]
    cases hjt : j.target with
    | none => rfl
    | some t =>
      rw [hjt, Option.map_some] at htarget
      rw [Option.map_some, Option.filter_some, Option.filter_some, h.enabled]
      split
      · next henabled =>
        have hleft : e t ∈ p.workspace.children (e b) :=
          mem_append_left _ (mem_targets hi htarget)
        have hright : t ∈ q.workspace.children b :=
          mem_append_left _ (mem_targets hj hjt)
        rw [Option.map_some, Option.map_some, hfg t hleft hright henabled]
      · rfl
  unfold keyStep
  dsimp only
  rw [show (p.block (e b)).kind = (q.block b).kind from hb.kind, hb.functionName?, hb.tag,
    hb.fields,
    hinputs]

theorem structuralKey_eq (hb : b < q.workspace.size) (henabled : q.workspace.isEnabled b = true) :
    p.structuralKey (e b) = q.structuralKey b := by
  have hkeys : ∀ n m b, b < q.workspace.size → q.workspace.isEnabled b = true →
      q.workspace.reach b ≤ n → p.workspace.reach (e b) ≤ m →
        p.structuralKeyFrom m (e b) = q.structuralKeyFrom n b := by
    intro n
    induction n with
    | zero =>
      intro m b hb _ hn _
      have := reach_pos hb
      omega
    | succ n ih =>
      intro m b hb henabled hn hm
      cases m with
      | zero =>
        have := reach_pos ((h.lt b).mpr hb)
        omega
      | succ m =>
        refine h.keyStep_eq (h.blockAt hb henabled) ?_
        intro t hleft hright ht
        have hltq := reach_lt h.right_sound hright
        have hltp := reach_lt h.left_sound hleft
        exact ih m t (h.right_sound.child_lt b t hright) ht (by omega) (by omega)
  exact hkeys _ _ b hb henabled (reach_le b) (reach_le (e b))

/-! ## Decisions -/

omit h in
theorem keep_rename (s : Selection) (b : BlockRef) (role : TopRole) :
    keep (s.rename e) (e b) role = (keep s b role).rename e := by
  cases role with
  | start => rfl
  | looseChain => rfl
  | container => simp [keep, Selection.rename]

omit h in
theorem switchOff_rename (s : Selection) (b : BlockRef) :
    switchOff (s.rename e) (e b) = (switchOff s b).rename e := by
  simp [switchOff, Selection.rename]

theorem keepByKey_rename (s : Selection) (role : TopRole) (hb : b < q.workspace.size)
    (henabled : q.workspace.isEnabled b = true) :
    p.keepByKey (s.rename e) (e b) role = (q.keepByKey s b role).rename e := by
  have hmultiple : p.allowsMultiple (e b) = q.allowsMultiple b := by
    unfold allowsMultiple
    rw [h.symbolOf?_eq (h.blockAt hb henabled)]
  unfold keepByKey
  dsimp only
  rw [hmultiple, h.structuralKey_eq hb henabled]
  split
  · exact keep_rename s b role
  · show (if q.structuralKey b ∈ s.keys then _ else _) = _
    split
    · exact switchOff_rename s b
    · exact keep_rename { s with keys := q.structuralKey b :: s.keys } b role

theorem consider_rename (s : Selection) (hb : b < q.workspace.size)
    (henabled : q.workspace.isEnabled b = true) :
    p.consider (s.rename e) (e b) = (q.consider s b).rename e := by
  unfold consider
  rw [h.role?_eq (h.blockAt hb henabled)]
  split
  · exact switchOff_rename s b
  · show (if (s.looseChain.map e).isNone then _ else _) = _
    rw [Option.isNone_map]
    split
    · exact keep_rename s b .looseChain
    · exact switchOff_rename s b
  · exact h.keepByKey_rename s _ hb henabled

theorem tops_enabled : p.workspace.topBlocks.filter p.workspace.isEnabled =
    (q.workspace.topBlocks.filter q.workspace.isEnabled).map e := by
  unfold topBlocks
  rw [filter_filter, filter_filter]
  refine h.filter_refs ?_ ?_
  · intro b hb
    rw [h.enabled]
    cases henabled : q.workspace.isEnabled b with
    | false => rfl
    | true => rw [h.top b hb henabled]
  · intro x hx hfx
    rw [Bool.and_eq_true] at hfx
    exact h.covers x hx hfx.1

theorem selectTops_eq : p.selectTops = q.selectTops.rename e := by
  have hfold : ∀ (l : List BlockRef) (s : Selection),
      (∀ b ∈ l, b < q.workspace.size ∧ q.workspace.isEnabled b = true) →
        (l.map e).foldl p.consider (s.rename e) = (l.foldl q.consider s).rename e := by
    intro l
    induction l with
    | nil => exact fun s _ => rfl
    | cons b r ih =>
      intro s hl
      obtain ⟨hb, henabled⟩ := hl b (.head _)
      rw [map_cons, foldl_cons, foldl_cons, h.consider_rename s hb henabled]
      exact ih _ fun x hx => hl x (.tail b hx)
  unfold selectTops
  rw [h.tops_enabled]
  refine hfold _ {} ?_
  intro b hb
  obtain ⟨htop, henabled⟩ := mem_filter.mp hb
  exact ⟨mem_range.mp (mem_of_mem_filter htop), henabled⟩

/-! ## Order -/

theorem precedes_eq (hash : String → Nat) {a b : BlockRef} (ha : a < q.workspace.size)
    (ha' : q.workspace.isEnabled a = true) (hb : b < q.workspace.size)
    (hb' : q.workspace.isEnabled b = true) : p.precedes hash (e a) (e b) = q.precedes hash a b := by
  have hafter : ∀ x, x < q.workspace.size → q.workspace.isEnabled x = true →
      p.isAfterOnStart (e x) = q.isAfterOnStart x := by
    intro x hx henabled
    unfold isAfterOnStart
    rw [h.symbolOf?_eq (h.blockAt hx henabled)]
  unfold precedes
  rw [h.structuralKey_eq ha ha', h.structuralKey_eq hb hb', hafter a ha ha', hafter b hb hb']
  simp only [h.mono.le_iff_le]

theorem tops_eq : p.tops p.selectTops = (q.tops q.selectTops).map fun top => (e top.1, top.2) := by
  have hcontainers : ∀ b ∈ q.selectTops.containers,
      b < q.workspace.size ∧ q.workspace.isEnabled b = true := by
    intro b hb
    have hholds : q.selectTops.Holds b .container := hb
    obtain ⟨htop, henabled⟩ := mem_filter.mp (holds_selectTops.mp hholds).1
    exact ⟨mem_range.mp (mem_of_mem_filter htop), henabled⟩
  have hsort : Sorted.sort (p.precedes Digest.hash16) (q.selectTops.containers.map e) =
      (Sorted.sort (q.precedes Digest.hash16) q.selectTops.containers).map e := by
    refine Sorted.sort_map fun a ha b hb => ?_
    obtain ⟨ha, ha'⟩ := hcontainers a ha
    obtain ⟨hb, hb'⟩ := hcontainers b hb
    exact h.precedes_eq _ ha ha' hb hb'
  unfold tops arrange
  rw [h.selectTops_eq]
  show _ ++ _ ++ (Sorted.sort _ (q.selectTops.containers.map e)).map _ = _
  rw [hsort]
  simp [Selection.rename, Option.toList_map, Function.comp_def]

end Agrees

end BlockProgram
