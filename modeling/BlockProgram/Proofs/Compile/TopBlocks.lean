import BlockProgram.Proofs.Compile.Keys

/-!
# One of each

Every enabled top block is either written or switched off. Of start blocks and loose chains the
first one is written. A start block or container is switched off only if one with its key is
written, which stands before it. The containers follow in the order of their keys' hashes, whatever
these are (`selectTops_keeps_one_of_each`).
-/

namespace BlockProgram

open Program Workspace

variable {p : Program} {a b x : BlockRef} {hash : String → Nat}

/-! ## Places that are taken -/

theorem Program.Excludes.trans (h : p.Excludes a b) (h' : p.Excludes b x) : p.Excludes a x := by
  unfold Excludes IsKeyed at *
  grind

/-- The place of a block that is left out is taken by one that is not. -/
theorem exists_holds_of_excludes (ha : a ∈ p.enabledTops) (hlt : a < b) (h : p.Excludes a b) :
    ∃ x role, p.selectTops.Holds x role ∧ x < b ∧ p.Excludes x b := by
  induction a using Nat.strongRecOn with
  | ind a ih =>
    by_cases hout : p.IsLeftOut a
    · rcases hout with hnone | ⟨x, hx, hxa, hex⟩
      · simp [Excludes, IsKeyed, hnone] at h
      · exact ih x hxa hx (Nat.lt_trans hxa hlt) (hex.trans h)
    · obtain ⟨role, hrole⟩ := Option.ne_none_iff_exists'.mp fun hnone => hout (.inl hnone)
      exact ⟨a, role, holds_selectTops.mpr ⟨ha, hrole, hout⟩, hlt, h⟩

/-- Only a start block takes the place of a start block. -/
theorem role_of_excludes_start {surface : Surface} {specs : List BlockSpec}
    {vars : List VariableModel} (hbuild : build surface specs vars = .ok p.workspace)
    (ha : a ∈ p.enabledTops) (hb : b ∈ p.enabledTops) (hrole : p.role? b = some .start)
    (h : p.Excludes a b) : p.role? a = some .start := by
  rcases h with ⟨_, hloose⟩ | ⟨⟨hstart | hcontainer, _⟩, _, hkey⟩
  · cases hrole.symm.trans hloose
  · exact hstart
  · rw [structuralKey_start (lt_size_of_enabledTop hb) (role?_eq hrole)] at hkey
    by_cases hkind : p.kind a = .functionDefinition
    · rw [structuralKey_function (lt_size_of_enabledTop ha) hkind] at hkey
      have hblank : ' ' ∈ onStartTag.toList := by simp [← hkey]
      exact absurd hblank (by decide)
    · exact absurd hkey.symm
        (onStartTag_ne_structuralKey hbuild (isRegistration_of_role? ha hcontainer hkind))

/-! ## The order of containers -/

/-- Containers stand in the order of the hashes of their keys. Where these are the same, those that
come after the start are last, and else they stand as in the document. -/
def Program.StandsBefore (p : Program) (hash : String → Nat) (a b : BlockRef) : Prop :=
  hash (p.structuralKey a) < hash (p.structuralKey b) ∨
    hash (p.structuralKey a) = hash (p.structuralKey b) ∧
      (p.isAfterOnStart a = false ∧ p.isAfterOnStart b = true ∨
        p.isAfterOnStart a = p.isAfterOnStart b ∧ a < b)

theorem precedes_iff_standsBefore :
    p.precedes hash a b = true ↔ p.StandsBefore hash a b ∨ a = b := by
  unfold precedes StandsBefore
  grind

theorem containers_sorted : (Sorted.sort (p.precedes hash) p.selectTops.containers).Pairwise
    (p.StandsBefore hash) := by
  have hsorted : (Sorted.sort (p.precedes hash) p.selectTops.containers).Pairwise
      fun a b => p.precedes hash a b = true := by
    refine Sorted.pairwise_sort (fun a b => ?_) (fun a b c => ?_) _
    all_goals
      simp only [precedes_iff_standsBefore, StandsBefore]
      grind
  have hnodup : (Sorted.sort (p.precedes hash) p.selectTops.containers).Nodup := by
    rw [(Sorted.perm_sort _ _).nodup_iff, (selectTops_decided p).containers]
    exact (enabledTops_sorted p).nodup.filter _
  refine hsorted.imp₂ (fun a b hab hne => ?_) hnodup
  exact (precedes_iff_standsBefore.mp hab).resolve_right hne

/-! ## The whole selection -/

theorem arrange_perm (hash : String → Nat) :
    ((p.arrange hash p.selectTops).map Prod.fst ++ p.selectTops.disabled).Perm p.enabledTops := by
  have hwritten : ∀ b, b ∈ (p.arrange hash p.selectTops).map Prod.fst ↔
      b ∈ p.enabledTops ∧ ¬ p.IsLeftOut b := by
    intro b
    simp only [List.mem_map, Prod.exists, exists_and_right, exists_eq_right, mem_arrange,
      holds_selectTops]
    refine ⟨fun ⟨_, hmem, _, hout⟩ => ⟨hmem, hout⟩, fun ⟨hmem, hout⟩ => ?_⟩
    obtain ⟨role, hrole⟩ := Option.ne_none_iff_exists'.mp fun hnone => hout (.inl hnone)
    exact ⟨role, hmem, hrole, hout⟩
  have hdisabled : p.selectTops.disabled.Nodup := by
    rw [(selectTops_decided p).disabled]
    exact (enabledTops_sorted p).nodup.filter _
  refine (List.perm_ext_iff_of_nodup (List.nodup_append.mpr ⟨nodup_arrange hash, hdisabled, ?_⟩)
    (enabledTops_sorted p).nodup).mpr fun b => ?_
  · rintro a ha _ hb rfl
    exact ((hwritten a).mp ha).2 (mem_disabled.mp hb).2
  · rw [List.mem_append, hwritten, mem_disabled, ← and_or_left, or_comm]
    exact and_iff_left (Classical.em _)

/-- What is written and what is switched off are the enabled top blocks. The first start block and
the first loose chain are written, and containers with different keys unless they may be repeated.
What is switched off is a reporter, a loose chain behind the one that is written, or repeats a start
block or container that is written before it. -/
theorem selectTops_keeps_one_of_each {surface : Surface} {specs : List BlockSpec}
    {vars : List VariableModel} (hbuild : Workspace.build surface specs vars = .ok p.workspace)
    (hash : String → Nat) :
    ((p.arrange hash p.selectTops).map Prod.fst ++ p.selectTops.disabled).Perm p.enabledTops ∧
    (∃ containers : List BlockRef, p.arrange hash p.selectTops =
        (p.enabledTops.find? fun b => p.role? b = some .start).toList.map (·, .start) ++
        (p.enabledTops.find? fun b => p.role? b = some .looseChain).toList.map (·, .looseChain) ++
        containers.map (·, .container) ∧
      (∀ b ∈ containers, p.role? b = some .container) ∧
      containers.Pairwise (p.StandsBefore hash) ∧
      containers.Pairwise fun a b => p.allowsMultiple a = false → p.allowsMultiple b = false →
        p.structuralKey a ≠ p.structuralKey b) ∧
    ∀ b ∈ p.selectTops.disabled,
      p.role? b = none ∧ (p.block b).hasOutput = true ∨
      p.role? b = some .looseChain ∧
        (∃ a < b, (a, TopRole.looseChain) ∈ p.arrange hash p.selectTops) ∨
      (p.role? b = some .start ∨ p.role? b = some .container) ∧
        ∃ a < b, ∃ role, (a, role) ∈ p.arrange hash p.selectTops ∧
          p.structuralKey a = p.structuralKey b := by
  have hfirst : p.selectTops.start = p.enabledTops.find? fun b => p.role? b = some .start := by
    refine Option.ext fun b => ?_
    show p.selectTops.Holds b .start ↔ _
    rw [holds_selectTops, find?_eq_some_of_sorted (enabledTops_sorted p), decide_eq_true_iff]
    refine and_congr_right fun hb => and_congr_right fun hrole => ?_
    simp only [decide_eq_false_iff_not, IsLeftOut, hrole, reduceCtorEq, false_or,
      not_exists,
      not_and]
    exact forall_congr' fun a => forall_congr' fun ha => forall_congr' fun _ =>
      not_congr ⟨role_of_excludes_start hbuild ha hb hrole, fun h => excludes_start ha hb h hrole⟩
  have hcontainer : ∀ {b}, b ∈ Sorted.sort (p.precedes hash) p.selectTops.containers →
      p.selectTops.Holds b .container := (Sorted.mem_sort _ _ _).mp
  refine ⟨arrange_perm hash, ⟨_, ?_, ?_, containers_sorted, ?_⟩, ?_⟩
  · rw [← hfirst, ← (selectTops_decided p).looseChain]
    rfl
  · exact fun b hb => (holds_selectTops.mp (hcontainer hb)).2.1
  · refine containers_sorted.imp_of_mem fun {a b} ha hb hab hsingle hsingle' => ?_
    have ha := hcontainer ha
    have hb := hcontainer hb
    refine structuralKey_ne_of_holds ha hb ⟨.inr (holds_selectTops.mp ha).2.1, hsingle⟩
      ⟨.inr (holds_selectTops.mp hb).2.1, hsingle'⟩ ?_
    rintro rfl
    simp [StandsBefore] at hab
  · intro b hb
    rcases (mem_disabled.mp hb).2 with hnone | ⟨a, ha, hlt, hex⟩
    · refine .inl ⟨hnone, ?_⟩
      unfold role? at hnone
      grind
    · obtain ⟨x, role, hx, hxb, hex⟩ := exists_holds_of_excludes ha hlt hex
      rcases hex with ⟨hx', hb'⟩ | ⟨_, hb', hkey⟩
      · cases hx'.symm.trans (holds_selectTops.mp hx).2.1
        exact .inr (.inl ⟨hb', x, hxb, mem_arrange.mpr hx⟩)
      · exact .inr (.inr ⟨hb'.1, x, hxb, role, mem_arrange.mpr hx, hkey⟩)

/-- Registrations for two buttons, one of them twice, two loose chains, two start blocks and a
reporter. -/
def crowdedBlocks : List BlockSpec :=
  buttonBlocks "long" "A and B" "1" ++
    [{ id := "code", tag := "typescript_statement" }, { id := "number", tag := "math_number" },
     { id := "start", tag := Workspace.onStartTag }] ++ buttonBlocks "short" "A" "1" ++
    [{ id := "later", tag := "typescript_statement" },
     { id := "again", tag := Workspace.onStartTag }] ++ buttonBlocks "repeated" "A" "1"

/-- With the lengths of the keys for hashes, the shorter of two keys comes first. -/
theorem selectTops_keeps_one_of_each_crowded :
    let p := buttonProgram crowdedBlocks
    p.arrange String.length p.selectTops =
      [(4, .start), (2, .looseChain), (5, .container), (0, .container)] ∧
    p.selectTops.disabled = [3, 7, 8, 9] ∧ [4, 2, 5, 0, 3, 7, 8, 9].Perm p.enabledTops := by
  intro p
  have hbuild : build p.surface crowdedBlocks [] = .ok p.workspace := by decide +kernel
  have hwritten : p.arrange String.length p.selectTops =
      [(4, .start), (2, .looseChain), (5, .container), (0, .container)] := by decide +kernel
  have hoff : p.selectTops.disabled = [3, 7, 8, 9] := by decide +kernel
  have hperm := (selectTops_keeps_one_of_each hbuild String.length).1
  rw [hwritten, hoff] at hperm
  exact ⟨hwritten, hoff, hperm⟩

end BlockProgram
