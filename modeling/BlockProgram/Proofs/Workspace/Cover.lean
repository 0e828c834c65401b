import BlockProgram.Proofs.Workspace.Layout

/-!
# Walks over a forest end and cover it

The walks of a workspace, run against a clock that allows one round more than there are blocks, end
by themselves with what the bounded walks give. Together the walks down from the top blocks meet
every block once (`perm_flatMap_descendants`).
-/

namespace BlockProgram.Workspace

open List

/-! ## Walks against a clock -/

/-- The chain of statements from a block on, if its end is reached in time. -/
def chainWithin (ws : Workspace) : Nat → Option BlockRef → Option (List BlockRef)
  | 0, _ => none
  | _ + 1, none => some []
  | clock + 1, some b => (ws.chainWithin clock (ws.block b).next).map (b :: ·)

/-- The blocks that come off a stack on which children are put, if it is empty in time. -/
def walkWithin (ws : Workspace) : Nat → List BlockRef → Option (List BlockRef)
  | 0, _ => none
  | _ + 1, [] => some []
  | clock + 1, b :: stack => (ws.walkWithin clock (ws.children b ++ stack)).map (b :: ·)

/-- Whether the blocks that surround `b` are enabled, if a disabled one or the top is reached in
time. -/
def surroundingsWithin (ws : Workspace) : Nat → BlockRef → Option Bool
  | 0, _ => none
  | clock + 1, b =>
    match ws.parent? b with
    | none => some true
    | some p =>
      if (ws.block p).next == some b || (ws.block p).enabled then ws.surroundingsWithin clock p
      else some false

def isEnabledWithin (ws : Workspace) (clock : Nat) (b : BlockRef) : Option Bool :=
  if (ws.block b).enabled then ws.surroundingsWithin clock b else some false

section Walking

variable {ws : Workspace} (hws : ws.Sound) {b : BlockRef}

include hws

theorem chainWithin_eq (clock : Nat) (hb : b < ws.size) (hclock : ws.reach b < clock) :
    ws.chainWithin clock (some b) = some (ws.chain (some b)) := by
  induction clock generalizing b with
  | zero => omega
  | succ clock ih =>
    have hpos := reach_pos hb
    unfold chainWithin
    rw [chain_some hws hb]
    cases hnext : (ws.block b).next with
    | none =>
      obtain _ | n := clock
      · omega
      rw [chain_none]
      rfl
    | some n =>
      have hn := next_mem_children hnext
      have hlt := reach_lt hws hn
      rw [ih (hws.child_lt b n hn) (by omega)]
      rfl

theorem walkWithin_eq (clock : Nat) (l : List BlockRef) (hl : ∀ b ∈ l, b < ws.size)
    (hclock : (l.map ws.reach).sum < clock) :
    ws.walkWithin clock l = some (l.flatMap ws.descendants) := by
  induction clock generalizing l with
  | zero => omega
  | succ clock ih =>
    cases l with
    | nil => rfl
    | cons b r =>
      have hb := hl b (.head _)
      have hbelow := reach_children hws b hb
      rw [map_cons, sum_cons] at hclock
      have hstack : ∀ x ∈ ws.children b ++ r, x < ws.size := by
        intro x hx
        rcases mem_append.mp hx with hx | hx
        · exact hws.child_lt b x hx
        · exact hl x (.tail b hx)
      have hsum : ((ws.children b ++ r).map ws.reach).sum < clock := by
        rw [map_append, sum_append]
        omega
      unfold walkWithin
      rw [ih _ hstack hsum, flatMap_cons, descendants_eq hws hb, flatMap_append]
      rfl

theorem surroundingsWithin_eq (clock : Nat) (hclock : ws.height b < clock) :
    ws.surroundingsWithin clock b = some (ws.surroundingsEnabled ws.size b) := by
  induction clock generalizing b with
  | zero => omega
  | succ clock ih =>
    unfold surroundingsWithin
    cases hp : ws.parent? b with
    | none => rw [surroundings_of_top hp]
    | some p =>
      have hlt := height_lt hws hp
      rw [surroundings_of_parent hws hp]
      dsimp only
      by_cases hopen : ((ws.block p).next == some b || (ws.block p).enabled) = true
      · rw [if_pos hopen, hopen, Bool.true_and, ih (by omega)]
      · rw [if_neg hopen, Bool.eq_false_iff.mpr hopen, Bool.false_and]

theorem isEnabledWithin_eq {clock : Nat} (hclock : ws.size < clock) (b : BlockRef) :
    ws.isEnabledWithin clock b = some (ws.isEnabled b) := by
  have hheight : ws.height b ≤ ws.size := height_le b
  unfold isEnabledWithin isEnabled
  rw [surroundingsWithin_eq hws clock (by omega)]
  cases (ws.block b).enabled <;> rfl

/-! ## Covering -/

theorem nodup_flatMap_descendants {l : List BlockRef} (hl : ∀ b ∈ l, b < ws.size)
    (hnodup : ∀ b ∈ l, (ws.descendants b).Nodup)
    (hapart : l.Pairwise fun t u => ∀ x, ws.Under t x → ¬ ws.Under u x) :
    (l.flatMap ws.descendants).Nodup := by
  rw [nodup_flatMap]
  refine ⟨hnodup, hapart.imp_of_mem ?_⟩
  intro t u ht hu htu x hxt hxu
  exact htu x ((mem_descendants hws (hl t ht)).mp hxt) ((mem_descendants hws (hl u hu)).mp hxu)

/-- No block is met twice on the way down. -/
theorem nodup_descendants (hb : b < ws.size) : (ws.descendants b).Nodup := by
  induction b, hb using children_induction hws with
  | step b hb ih =>
    have hforest := hws.toIsForest
    rw [descendants_eq hws hb, nodup_cons]
    constructor
    · intro hmem
      obtain ⟨t, ht, hbt⟩ := mem_flatMap.mp hmem
      exact not_under_of_parent hforest (hws.parent_eq b t ht)
        ((mem_descendants hws (hws.child_lt b t ht)).mp hbt)
    · refine nodup_flatMap_descendants hws (hws.child_lt b) ih ((hws.nodup b).imp_of_mem ?_)
      intro t u ht hu htu x hxt hxu
      exact htu (eq_of_under_of_sibling hforest (hws.parent_eq b t ht) (hws.parent_eq b u hu)
        hxt hxu)

theorem parent_lt {x : BlockRef} (hx : ws.parent? x = some b) : b < ws.size :=
  lt_of_child (hws.child_of_parent b x hx)

theorem exists_top {x : BlockRef} (hx : x < ws.size) : ∃ t ∈ ws.topBlocks, ws.Under t x := by
  induction hh : ws.height x using Nat.strongRecOn generalizing x with
  | ind h ih =>
    cases hp : ws.parent? x with
    | none =>
      refine ⟨x, ?_, .refl⟩
      exact mem_filter.mpr ⟨mem_range.mpr hx, by rw [hp]; rfl⟩
    | some b =>
      obtain ⟨t, ht, hunder⟩ := ih _ (hh ▸ height_lt hws hp) (parent_lt hws hp) rfl
      exact ⟨t, ht, hunder.trans (.single hp)⟩

/-- The blocks below the top blocks are all blocks, each once. -/
theorem perm_flatMap_descendants : (ws.topBlocks.flatMap ws.descendants).Perm ws.refs := by
  have htop : ∀ t ∈ ws.topBlocks, t < ws.size ∧ ws.parent? t = none := by
    intro t ht
    obtain ⟨hlt, hnone⟩ := mem_filter.mp ht
    exact ⟨mem_range.mp hlt, Option.isNone_iff_eq_none.mp hnone⟩
  have hnodup : (ws.topBlocks.flatMap ws.descendants).Nodup := by
    refine nodup_flatMap_descendants hws (fun t ht => (htop t ht).1) ?_ ?_
    · exact fun t ht => nodup_descendants hws (htop t ht).1
    · refine (nodup_range.filter _).imp_of_mem ?_
      intro t u ht hu htu x hxt hxu
      exact htu (eq_of_under_of_top (htop t ht).2 (htop u hu).2 hxt hxu)
  refine (perm_ext_iff_of_nodup hnodup nodup_range).mpr ?_
  intro x
  rw [mem_flatMap]
  constructor
  · rintro ⟨t, ht, hx⟩
    have hlt := (htop t ht).1
    exact mem_range.mpr (Under.lt hws hlt ((mem_descendants hws hlt).mp hx))
  · intro hx
    obtain ⟨t, ht, hunder⟩ := exists_top hws (mem_range.mp hx)
    exact ⟨t, ht, (mem_descendants hws (htop t ht).1).mpr hunder⟩

end Walking

/-! ## What is built -/

/-- Building accepts exactly the specifications that are laid out as a forest. What it builds has
one block for each specification, connected to the blocks whose ids it names; parents are those that
blocks are connected to; chains, walks down and the search for a disabled surrounding end within one
round more than there are blocks; and the walks down from the top blocks meet every block once. -/
theorem build_covers (surface : Surface) (specs : List BlockSpec) (vars : List VariableModel) :
    ((∃ ws, build surface specs vars = .ok ws) ↔ IsLaidOut specs) ∧
    ∀ ws, build surface specs vars = .ok ws →
      ws.size = specs.length ∧
      (∀ (p : BlockRef) s, specs[p]? = some s → Realises (specs.map (·.id)) s (ws.block p)) ∧
      (∀ c p, ws.parent? c = some p ↔ c ∈ (ws.block p).targets ∨ (ws.block p).next = some c) ∧
      (∀ b < ws.size, ∀ clock, ws.size < clock →
        ws.chainWithin clock (some b) = some (ws.chain (some b)) ∧
        ws.walkWithin clock [b] = some (ws.descendants b) ∧
        ws.isEnabledWithin clock b = some (ws.isEnabled b)) ∧
      (ws.topBlocks.flatMap ws.descendants).Perm ws.refs := by
  refine ⟨build_ok_iff, ?_⟩
  intro ws h
  have hws := build_sound h
  refine ⟨(build_describes h).2.size_eq, fun _ _ hs => realises_of_build h hs, ?_, ?_,
    perm_flatMap_descendants hws⟩
  · intro c p
    have hchild : c ∈ ws.children p ↔ c ∈ (ws.block p).targets ∨ (ws.block p).next = some c := by
      unfold children
      rw [mem_append, Option.mem_toList]
    rw [← hchild]
    exact ⟨hws.child_of_parent p c, hws.parent_eq p c⟩
  · intro b hb clock hclock
    have hreach : ws.reach b ≤ ws.size := reach_le b
    refine ⟨chainWithin_eq hws clock hb (by omega), ?_, isEnabledWithin_eq hws hclock b⟩
    have hwalk := walkWithin_eq hws clock [b] (by simpa using hb) (by simp; omega)
    simpa using hwalk

/-- A loop with a number and a statement in it and a statement after it, and a text on its own. -/
def loopBlocks : List BlockSpec :=
  [{ id := "count", tag := "math_number", fields := [⟨"NUM", "3"⟩] },
   { id := "loop", tag := "controls_repeat_ext", next := some "set",
     inputs := [("TIMES", .value, some "count"), ("DO", .statement, some "stop")] },
   { id := "stop", tag := "break_keyword" },
   { id := "set", tag := "variables_set", fields := [⟨"VAR", "x"⟩] },
   { id := "text", tag := "text" }]

/-- Two loops, each in the other. -/
def ringBlocks : List BlockSpec :=
  [{ id := "outer", tag := "device_while", inputs := [("DO", .statement, some "inner")] },
   { id := "inner", tag := "device_while", inputs := [("DO", .statement, some "outer")] }]

theorem build_covers_loop : IsLaidOut loopBlocks ∧ ¬ IsLaidOut ringBlocks ∧
    ∃ ws, build {} loopBlocks [] = .ok ws ∧ ws.parent? 3 = some 1 ∧
      (ws.block 1).next = some 3 ∧ ws.walkWithin 6 [1] = some [1, 0, 2, 3] ∧
      (ws.topBlocks.flatMap ws.descendants).Perm [0, 1, 2, 3, 4] := by
  obtain ⟨hloop, hcovers⟩ := build_covers {} loopBlocks []
  obtain ⟨_, hrealises, hparents, hends, hperm⟩ := hcovers _ rfl
  refine ⟨hloop.mp ⟨_, rfl⟩, ?_, _, rfl, (hparents 3 1).mpr (Or.inr rfl),
    (hrealises 1 _ rfl).next_eq, ?_, hperm⟩
  · intro hring
    obtain ⟨ws, hws⟩ := (build_covers {} ringBlocks []).1.mpr hring
    cases hws
  · exact (hends 1 (by decide) 6 (by decide)).2.1

end BlockProgram.Workspace
