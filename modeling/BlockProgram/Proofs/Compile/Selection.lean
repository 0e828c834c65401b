import BlockProgram.Compile.TopBlocks
import BlockProgram.Proofs.Sorted
import BlockProgram.Proofs.Workspace.Liveness

/-!
# What is selected

A top block is left out of the program if it is a reporter, or if an earlier one takes its place
(`IsLeftOut`): an earlier loose chain that of a loose chain, and one with the same key that
of a start block or container which may not be repeated. Decisions are made one after another, but
this is what comes of them (`selectTops_decided`): what is left out is switched off, and all other
enabled top blocks are selected in their roles (`holds_selectTops`). So these are live
(`isLive_of_mem_tops`).
-/

namespace BlockProgram

open Program List

variable {p : Program} {s : Selection} {seen : List BlockRef} {a b : BlockRef} {role : TopRole}

def Selection.Holds (s : Selection) (b : BlockRef) : TopRole → Prop
  | .start => s.start = some b
  | .looseChain => s.looseChain = some b
  | .container => b ∈ s.containers

theorem mem_arrange {hash : String → Nat} : (b, role) ∈ p.arrange hash s ↔ s.Holds b role := by
  unfold arrange
  rw [mem_append, mem_append]
  cases role with
  | start => simp [Selection.Holds]
  | looseChain => simp [Selection.Holds]
  | container => simp [Selection.Holds, Sorted.mem_sort]

theorem mem_tops : (b, role) ∈ p.tops s ↔ s.Holds b role :=
  mem_arrange

/-- What a role says about a block. -/
def Program.Suits (p : Program) (b : BlockRef) : TopRole → Prop
  | .start => p.kind b = .onStart
  | .looseChain => p.kind b ≠ .onStart ∧ p.isContainer b = false
  | .container => p.isContainer b = true

theorem role?_eq (h : p.role? b = some role) : p.Suits b role := by
  unfold role? at h
  split at h
  · next hkind =>
    cases h
    exact hkind
  · next hkind =>
    split at h
    · next hcontainer =>
      cases h
      exact hcontainer
    · next hcontainer =>
      split at h
      · cases h
      · cases h
        exact ⟨hkind, Bool.eq_false_iff.mpr hcontainer⟩

/-! ## Blocks that are left out -/

abbrev Program.enabledTops (p : Program) : List BlockRef :=
  p.workspace.topBlocks.filter p.workspace.isEnabled

/-- A top block whose key is compared with those of others. -/
def Program.IsKeyed (p : Program) (b : BlockRef) : Prop :=
  (p.role? b = some .start ∨ p.role? b = some .container) ∧ p.allowsMultiple b = false

instance decidableIsKeyed (p : Program) (b : BlockRef) : Decidable (p.IsKeyed b) :=
  inferInstanceAs (Decidable (_ ∧ _))

/-- Only the first of the two blocks can be part of the program. -/
def Program.Excludes (p : Program) (a b : BlockRef) : Prop :=
  p.role? a = some .looseChain ∧ p.role? b = some .looseChain ∨
    p.IsKeyed a ∧ p.IsKeyed b ∧ p.structuralKey a = p.structuralKey b

instance decidableExcludes (p : Program) (a b : BlockRef) : Decidable (p.Excludes a b) :=
  inferInstanceAs (Decidable (_ ∨ _))

/-- A reporter, or a block whose place an earlier top block takes. -/
def Program.IsLeftOut (p : Program) (b : BlockRef) : Prop :=
  p.role? b = none ∨ ∃ a ∈ p.enabledTops, a < b ∧ p.Excludes a b

instance decidableIsLeftOut (p : Program) (b : BlockRef) : Decidable (p.IsLeftOut b) :=
  inferInstanceAs (Decidable (_ ∨ ∃ a ∈ p.enabledTops, _))

theorem lt_size_of_enabledTop (h : b ∈ p.enabledTops) : b < p.workspace.size :=
  mem_range.mp (mem_filter.mp (mem_filter.mp h).1).1

theorem enabledTops_sorted (p : Program) : p.enabledTops.Pairwise (· < ·) :=
  (pairwise_lt_range.filter _).filter _

theorem structuralKey_start (hb : b < p.workspace.size) (hkind : p.kind b = .onStart) :
    p.structuralKey b = Workspace.onStartTag := by
  obtain ⟨n, hn⟩ := Nat.exists_eq_succ_of_ne_zero (Nat.ne_zero_of_lt hb)
  have hkind : (p.block b).kind = .onStart := hkind
  unfold structuralKey
  rw [hn]
  show p.keyStep _ b = _
  unfold keyStep
  dsimp only
  rw [if_neg (by rw [hkind]; decide), if_pos hkind]

/-- There is one start block at most. -/
theorem excludes_start (ha : a ∈ p.enabledTops) (hb : b ∈ p.enabledTops)
    (hrole : p.role? a = some .start) (hrole' : p.role? b = some .start) : p.Excludes a b := by
  have hkeyed : ∀ {x}, p.role? x = some .start → p.IsKeyed x := by
    intro x hx
    have hkind : p.kind x = .onStart := role?_eq hx
    exact ⟨.inl hx, by simp [allowsMultiple, symbolOf?, hkind]⟩
  refine .inr ⟨hkeyed hrole, hkeyed hrole', ?_⟩
  rw [structuralKey_start (lt_size_of_enabledTop ha) (role?_eq hrole),
    structuralKey_start (lt_size_of_enabledTop hb) (role?_eq hrole')]

/-! ## Decisions -/

/-- What the decisions about the blocks `seen` come to. -/
structure Decided (p : Program) (seen : List BlockRef) (s : Selection) : Prop where
  keys : ∀ k, k ∈ s.keys ↔ ∃ a ∈ seen, p.IsKeyed a ∧ p.structuralKey a = k
  start : s.start = seen.find? fun b => p.role? b = some .start ∧ ¬ p.IsLeftOut b
  looseChain : s.looseChain = seen.find? fun b => p.role? b = some .looseChain
  containers : s.containers = seen.filter fun b => p.role? b = some .container ∧ ¬ p.IsLeftOut b
  disabled : s.disabled = seen.filter fun b => p.IsLeftOut b

section Step

variable (h : Decided p seen s) (hb : b ∈ p.enabledTops)
  (hseen : ∀ a, a ∈ seen ↔ a ∈ p.enabledTops ∧ a < b)
include h hseen

theorem consider_of_isLeftOut (hout : p.IsLeftOut b) : p.consider s b = switchOff s b := by
  unfold consider
  rcases hout with hrole | ⟨a, ha, hlt, ⟨hrole', hrole⟩ | ⟨hkeyed, ⟨hrole, hsingle⟩, hkey⟩⟩
  · rw [hrole]
  · have hloose : s.looseChain ≠ none := by
      rw [h.looseChain, ne_eq, find?_eq_none]
      exact fun hnone => hnone a ((hseen a).mpr ⟨ha, hlt⟩) (by simpa using hrole')
    simp [hrole, hloose]
  · have hmem := (h.keys _).mpr ⟨a, (hseen a).mpr ⟨ha, hlt⟩, hkeyed, hkey⟩
    rcases hrole with hrole | hrole <;> simp [hrole, keepByKey, hsingle, hmem]

theorem consider_of_not_isLeftOut (hrole : p.role? b = some role) (hout : ¬ p.IsLeftOut b) :
    ∃ keys, p.consider s b = keep { s with keys } b role ∧
      ∀ k, k ∈ keys ↔ k ∈ s.keys ∨ p.IsKeyed b ∧ p.structuralKey b = k := by
  have hfree : ∀ a ∈ seen, ¬ p.Excludes a b := fun a ha hex =>
    hout (.inr ⟨a, ((hseen a).mp ha).1, ((hseen a).mp ha).2, hex⟩)
  have hkey : role = .start ∨ role = .container → ∃ keys,
      p.keepByKey s b role = keep { s with keys } b role ∧
        ∀ k, k ∈ keys ↔ k ∈ s.keys ∨ p.IsKeyed b ∧ p.structuralKey b = k := by
    intro hkeyed
    unfold keepByKey IsKeyed
    dsimp only
    split
    · next hmultiple => exact ⟨s.keys, rfl, by simp [hmultiple]⟩
    · next hsingle =>
      rw [Bool.not_eq_true] at hsingle
      have hb' : p.IsKeyed b := ⟨by simpa [hrole] using hkeyed, hsingle⟩
      have hnew : p.structuralKey b ∉ s.keys := fun hmem => by
        obtain ⟨a, ha, hkeyed, heq⟩ := (h.keys _).mp hmem
        exact hfree a ha (.inr ⟨hkeyed, hb', heq⟩)
      rw [if_neg hnew]
      refine ⟨_, rfl, fun k => ?_⟩
      rw [mem_cons, or_comm, eq_comm, iff_true_intro hb'.1, iff_true_intro hsingle]
      simp
  unfold consider
  rw [hrole]
  cases role with
  | start => exact hkey (.inl rfl)
  | container => exact hkey (.inr rfl)
  | looseChain =>
    have hloose : s.looseChain = none := by
      rw [h.looseChain, find?_eq_none]
      exact fun a ha ha' => hfree a ha (.inl ⟨by simpa using ha', hrole⟩)
    exact ⟨s.keys, if_pos (by rw [hloose]; rfl), by simp [IsKeyed, hrole]⟩

include hb

theorem Decided.consider : Decided p (seen ++ [b]) (p.consider s b) := by
  by_cases hout : p.IsLeftOut b
  · rw [consider_of_isLeftOut h hseen hout]
    refine ⟨fun k => ?_, ?_, ?_, ?_, ?_⟩
    · -- the key of a block that is left out is there already
      have hkey : p.IsKeyed b ∧ p.structuralKey b = k → k ∈ s.keys := by
        rintro ⟨hkeyed, rfl⟩
        rcases hout with hrole | ⟨a, ha, hlt, ⟨_, hrole⟩ | ⟨hkeyed', _, heq⟩⟩
        · simp [IsKeyed, hrole] at hkeyed
        · simp [IsKeyed, hrole] at hkeyed
        · exact (h.keys _).mpr ⟨a, (hseen a).mpr ⟨ha, hlt⟩, hkeyed', heq⟩
      simp only [mem_append, mem_singleton, or_and_right, exists_or, exists_eq_left, ← h.keys]
      exact ⟨.inl, fun hk => hk.elim id hkey⟩
    · simpa [switchOff, find?_append, hout] using h.start
    · show s.looseChain = _
      rw [h.looseChain, find?_append]
      by_cases hrole : p.role? b = some .looseChain
      · rcases hout with hnone | ⟨a, ha, hlt, ⟨hrole', _⟩ | ⟨_, hkeyed, _⟩⟩
        · simp [hnone] at hrole
        · have hsome : (seen.find? fun b => p.role? b = some .looseChain).isSome = true :=
            find?_isSome.mpr ⟨a, (hseen a).mpr ⟨ha, hlt⟩, by simpa using hrole'⟩
          rw [Option.or_of_isSome hsome]
        · simp [IsKeyed, hrole] at hkeyed
      · simp [hrole]
    · simpa [switchOff, hout] using h.containers
    · simpa [switchOff, hout] using h.disabled
  · obtain ⟨role, hrole⟩ := Option.ne_none_iff_exists'.mp fun hnone => hout (.inl hnone)
    obtain ⟨keys, hconsider, hkeys⟩ := consider_of_not_isLeftOut h hseen hrole hout
    have hfree : ∀ a ∈ seen, ¬ p.Excludes a b := fun a ha hex =>
      hout (.inr ⟨a, ((hseen a).mp ha).1, ((hseen a).mp ha).2, hex⟩)
    have hkeys' : ∀ k, k ∈ keys ↔ ∃ a ∈ seen ++ [b], p.IsKeyed a ∧ p.structuralKey a = k := by
      intro k
      rw [hkeys, h.keys]
      simp [or_and_right, exists_or]
    rw [hconsider]
    cases role with
    | start =>
      have hnone : ∀ a ∈ seen, p.role? a ≠ some .start := fun a ha ha' =>
        hfree a ha (excludes_start ((hseen a).mp ha).1 hb ha' hrole)
      refine ⟨hkeys', ?_, ?_, ?_, ?_⟩
      · rw [find?_append, find?_eq_none.mpr fun a ha => by simp [hnone a ha]]
        simp [keep, hrole, hout]
      · simpa [keep, find?_append, hrole] using h.looseChain
      · simpa [keep, hrole] using h.containers
      · simpa [keep, hout] using h.disabled
    | looseChain =>
      have hnone : ∀ a ∈ seen, p.role? a ≠ some .looseChain := fun a ha ha' =>
        hfree a ha (.inl ⟨ha', hrole⟩)
      refine ⟨hkeys', ?_, ?_, ?_, ?_⟩
      · simpa [keep, find?_append, hrole] using h.start
      · rw [find?_append, find?_eq_none.mpr fun a ha => by simp [hnone a ha]]
        simp [keep, hrole]
      · simpa [keep, hrole] using h.containers
      · simpa [keep, hout] using h.disabled
    | container =>
      refine ⟨hkeys', ?_, ?_, ?_, ?_⟩
      · simpa [keep, find?_append, hrole] using h.start
      · simpa [keep, find?_append, hrole] using h.looseChain
      · simpa [keep, hrole, hout] using h.containers
      · simpa [keep, hout] using h.disabled

end Step

theorem selectTops_decided (p : Program) : Decided p p.enabledTops p.selectTops := by
  have hfold : ∀ (l seen : List BlockRef) (s : Selection), seen ++ l = p.enabledTops →
      Decided p seen s → Decided p p.enabledTops (l.foldl p.consider s) := by
    intro l
    induction l with
    | nil =>
      intro seen s hall h
      rw [← hall, append_nil]
      exact h
    | cons b r ih =>
      intro seen s hall h
      have hsorted := hall ▸ enabledTops_sorted p
      obtain ⟨_, hr, hlt⟩ := pairwise_append.mp hsorted
      refine ih (seen ++ [b]) (p.consider s b) (by simpa using hall)
        (h.consider (hall ▸ by simp) fun a => ?_)
      rw [← hall, mem_append, mem_cons]
      refine ⟨fun ha => ⟨.inl ha, hlt a ha b mem_cons_self⟩, ?_⟩
      rintro ⟨ha | rfl | ha, hab⟩
      · exact ha
      · exact absurd hab (lt_irrefl a)
      · exact absurd ((pairwise_cons.mp hr).1 a ha) (Nat.lt_asymm hab)
  exact hfold p.enabledTops [] {} rfl ⟨by simp, rfl, rfl, rfl, rfl⟩

/-! ## The selection -/

theorem mem_disabled : b ∈ p.selectTops.disabled ↔ b ∈ p.enabledTops ∧ p.IsLeftOut b := by
  rw [(selectTops_decided p).disabled, mem_filter, decide_eq_true_iff]

theorem find?_eq_some_of_sorted {l : List Nat} (hl : l.Pairwise (· < ·)) {P : Nat → Bool}
    {n : Nat} : l.find? P = some n ↔ n ∈ l ∧ P n = true ∧ ∀ m ∈ l, m < n → P m = false := by
  induction l with
  | nil => simp
  | cons x r ih =>
    obtain ⟨hx, hr⟩ := pairwise_cons.mp hl
    have := ih hr
    grind

/-- What is selected is all that is not left out. -/
theorem holds_selectTops : p.selectTops.Holds b role ↔
    b ∈ p.enabledTops ∧ p.role? b = some role ∧ ¬ p.IsLeftOut b := by
  have h := selectTops_decided p
  cases role with
  | container =>
    show b ∈ p.selectTops.containers ↔ _
    rw [h.containers, mem_filter, decide_eq_true_iff]
  | start =>
    show p.selectTops.start = some b ↔ _
    rw [h.start, find?_eq_some_of_sorted (enabledTops_sorted p), decide_eq_true_iff]
    refine and_congr_right fun hb => ⟨fun hfirst => hfirst.1, fun hkept => ⟨hkept, ?_⟩⟩
    intro a ha hlt
    rw [decide_eq_false_iff_not]
    exact fun ha' => hkept.2 (.inr ⟨a, ha, hlt, excludes_start ha hb ha'.1 hkept.1⟩)
  | looseChain =>
    show p.selectTops.looseChain = some b ↔ _
    rw [h.looseChain, find?_eq_some_of_sorted (enabledTops_sorted p), decide_eq_true_iff]
    refine and_congr_right fun _ => and_congr_right fun hrole => ?_
    simp [IsLeftOut, Excludes, IsKeyed, hrole]

/-- A top block of the program: where it stands and what it is. -/
theorem mem_tops_selectTops (h : (b, role) ∈ p.tops p.selectTops) :
    b ∈ p.workspace.topBlocks ∧ p.workspace.isEnabled b = true ∧ p.role? b = some role ∧
      b ∉ p.selectTops.disabled := by
  obtain ⟨hmem, hrole, hout⟩ := holds_selectTops.mp (mem_tops.mp h)
  obtain ⟨htop, henabled⟩ := mem_filter.mp hmem
  exact ⟨htop, henabled, hrole, fun hoff => hout (mem_disabled.mp hoff).2⟩

/-- Selected blocks that may not be repeated have different keys. -/
theorem structuralKey_ne_of_holds {role' : TopRole} (ha : p.selectTops.Holds a role)
    (hb : p.selectTops.Holds b role') (hkeyed : p.IsKeyed a) (hkeyed' : p.IsKeyed b)
    (hne : a ≠ b) : p.structuralKey a ≠ p.structuralKey b := by
  obtain ⟨ha, _, hout⟩ := holds_selectTops.mp ha
  obtain ⟨hb, _, hout'⟩ := holds_selectTops.mp hb
  intro hkey
  rcases Nat.lt_or_gt_of_ne hne with hlt | hlt
  · exact hout' (.inr ⟨a, ha, hlt, .inr ⟨hkeyed, hkeyed', hkey⟩⟩)
  · exact hout (.inr ⟨b, hb, hlt, .inr ⟨hkeyed', hkeyed, hkey.symm⟩⟩)

/-- A container is switched off exactly if it may not be repeated and an earlier block has its
key. -/
theorem container_mem_disabled (hb : b ∈ p.enabledTops) (hrole : p.role? b = some .container) :
    b ∈ p.selectTops.disabled ↔ p.allowsMultiple b = false ∧
      ∃ a ∈ p.enabledTops, a < b ∧ p.IsKeyed a ∧ p.structuralKey a = p.structuralKey b := by
  rw [mem_disabled, iff_true_intro hb, true_and]
  simp only [IsLeftOut, Excludes, IsKeyed, hrole]
  grind

theorem nodup_arrange (hash : String → Nat) :
    ((p.arrange hash p.selectTops).map Prod.fst).Nodup := by
  have hcontainers : p.selectTops.containers.Nodup := by
    rw [(selectTops_decided p).containers]
    exact (enabledTops_sorted p).nodup.filter _
  have hrole : ∀ x ∈ p.arrange hash p.selectTops, ∀ y ∈ p.arrange hash p.selectTops,
      x.1 = y.1 → x = y := by
    rintro ⟨a, role⟩ hx ⟨b, role'⟩ hy heq
    have ha := (holds_selectTops.mp (mem_arrange.mp hx)).2.1
    have hb := (holds_selectTops.mp (mem_arrange.mp hy)).2.1
    obtain rfl : a = b := heq
    cases ha.symm.trans hb
    rfl
  have hoption : ∀ (o : Option BlockRef) (role : TopRole), (o.toList.map (·, role)).Nodup := by
    intro o role
    cases o <;> simp
  have hsorted : ((Sorted.sort (p.precedes hash) p.selectTops.containers).map
      (·, TopRole.container)).Nodup :=
    ((Sorted.perm_sort _ _).nodup_iff.mpr hcontainers).map fun _ _ h => congrArg Prod.fst h
  have happ : (p.arrange hash p.selectTops).Nodup := by
    unfold arrange
    refine nodup_append.mpr ⟨nodup_append.mpr ⟨hoption _ _, hoption _ _, ?_⟩, hsorted, ?_⟩
    · simp
    · rintro ⟨a, role⟩ ha ⟨b, role'⟩ hb heq
      cases heq
      simp only [mem_append, mem_map, Prod.mk.injEq] at ha hb
      grind
  exact List.Nodup.map_on hrole happ

theorem isLive_of_mem_tops (hws : p.workspace.Sound) (h : (b, role) ∈ p.tops p.selectTops)
    {c : Compilation} (hc : c.disabled = p.selectTops.disabled) : p.isLive c b = true := by
  obtain ⟨htop, henabled, _, hoff⟩ := mem_tops_selectTops h
  have hparent : p.workspace.parent? b = none := by simpa using (mem_filter.mp htop).2
  refine (isLive_iff hws).mpr ⟨henabled, ?_⟩
  intro a ha
  rw [hc]
  rcases Relation.ReflTransGen.cases_head ha with rfl | ⟨y, hy, _⟩
  · exact hoff
  · rw [hparent] at hy
    cases hy

end BlockProgram
