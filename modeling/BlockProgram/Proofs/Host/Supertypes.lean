import BlockProgram.Host.Surface
import BlockProgram.Proofs.Table
import Mathlib.Data.List.Nodup
import Mathlib.Data.List.Perm.Subperm
import Mathlib.Data.Nat.Find

/-!
# Supertypes are found breadth first

A type ascends to another by steps from a type to one of its declared parents. The search for the
supertypes of a type takes types off a queue and adds their parents at its end. At every moment the
types that are through and the queue make up what is found, in the order of their distance from the
start (`Climbing`). When the queue is empty, nothing that can be reached is missing. A table may
lead back to where the search began, to a type itself and to a type more than once.
-/

namespace BlockProgram.Surface

open List

variable {s : Surface} {t u v : TypeName} {n : Nat}

/-! ## Steps and distance -/

/-- Type `u` is `n` steps from a type to one of its parents above `t`. -/
inductive Ascends (s : Surface) (t : TypeName) : Nat → TypeName → Prop
  | here : Ascends s t 0 t
  | up {n : Nat} {v u : TypeName} : Ascends s t n v → u ∈ s.parents v → Ascends s t (n + 1) u

open Classical in
/-- The smallest number of steps from `t` up to `u`, and 0 if there is no way. -/
noncomputable def distance (s : Surface) (t u : TypeName) : Nat :=
  if h : ∃ n, s.Ascends t n u then Nat.find h else 0

theorem distance_spec (h : s.Ascends t n u) :
    s.Ascends t (s.distance t u) u ∧ s.distance t u ≤ n := by
  classical
  have hex : ∃ n, s.Ascends t n u := ⟨n, h⟩
  unfold distance
  rw [dif_pos hex]
  exact ⟨Nat.find_spec hex, Nat.find_min' hex h⟩

theorem mem_values_of_parents (hu : u ∈ s.parents v) : u ∈ s.supertypes.values.flatten := by
  unfold parents at hu
  cases hget : s.supertypes.get? v with
  | none =>
    rw [hget] at hu
    cases hu
  | some l =>
    rw [hget] at hu
    exact mem_flatten.mpr ⟨l, Table.mem_values_of_get? hget, hu⟩

theorem Ascends.mem_values (h : s.Ascends t n u) (hne : u ≠ t) :
    u ∈ s.supertypes.values.flatten := by
  cases h with
  | here => exact absurd rfl hne
  | up _ hu => exact mem_values_of_parents hu

/-! ## Discovering -/

/-- Of the types `ps`, those in `new` are added to what is found, each once, and no other is
missing. -/
structure Discovered (t : TypeName) (found ps found' new : List TypeName) : Prop where
  parts : found' = found ++ new
  subset : new ⊆ ps
  nodup : (t :: found).Nodup → (t :: found ++ new).Nodup
  covers : ∀ p ∈ ps, p ∈ t :: found ++ new

theorem discovered_discover (t : TypeName) (found ps : List TypeName) :
    Discovered t found ps (discover t found ps).1 (discover t found ps).2 := by
  induction ps generalizing found with
  | nil => exact ⟨by simp [discover], by simp [discover], by simp [discover], by simp⟩
  | cons p r ih =>
    unfold discover
    by_cases hp : p = t ∨ p ∈ found
    · rw [if_pos hp]
      obtain ⟨hfound, hsubset, hnodup, hcovers⟩ := ih found
      refine ⟨hfound, subset_cons_of_subset p hsubset, hnodup, ?_⟩
      exact forall_mem_cons.mpr ⟨mem_append_left _ (mem_cons.mpr hp), hcovers⟩
    · rw [if_neg hp]
      obtain ⟨hfound, hsubset, hnodup, hcovers⟩ := ih (found ++ [p])
      have happend : ∀ new, t :: (found ++ [p]) ++ new = t :: found ++ p :: new := by simp
      rw [happend] at hnodup hcovers
      refine ⟨by simpa using hfound, cons_subset_cons p hsubset, fun h => hnodup ?_, ?_⟩
      · rw [← cons_append, ← concat_eq_append]
        exact Nodup.concat (by simpa using hp) h
      · exact forall_mem_cons.mpr ⟨by simp, hcovers⟩

/-! ## Climbing -/

/-- The search so far, from `t`: the types `through` were taken off the queue, the parents of which
are all found. Nothing is found twice or out of the order of distance, and nothing found is further
away than one step above what is at the head of the queue. -/
structure Climbing (s : Surface) (t : TypeName) (through queue found : List TypeName) : Prop where
  parts : t :: found = through ++ queue
  nodup : (t :: found).Nodup
  closed : ∀ c ∈ through, ∀ p ∈ s.parents c, p ∈ t :: found
  reached : ∀ u ∈ t :: found, s.Ascends t (s.distance t u) u
  sorted : (t :: found).Pairwise fun u v => s.distance t u ≤ s.distance t v
  near : ∀ c ∈ queue, ∀ u ∈ t :: found, s.distance t u ≤ s.distance t c + 1

theorem climbing_start (s : Surface) (t : TypeName) : s.Climbing t [] [t] [] where
  parts := rfl
  nodup := nodup_singleton t
  closed := by simp
  reached := by
    intro u hu
    rw [mem_singleton.mp hu]
    exact (distance_spec .here).1
  sorted := pairwise_singleton _ t
  near := by
    intro c _ u hu
    rw [mem_singleton.mp hu]
    exact le_trans (distance_spec .here).2 (Nat.zero_le _)

namespace Climbing

variable {c : TypeName} {through queue found : List TypeName}

section

variable (h : s.Climbing t through (c :: queue) found)
include h

theorem head_found : c ∈ t :: found := by
  rw [h.parts]
  simp

/-- The head of the queue is no further away than the rest of it. -/
theorem head_le (hv : v ∈ c :: queue) : s.distance t c ≤ s.distance t v := by
  have hsorted := h.sorted
  rw [h.parts] at hsorted
  have hqueue := (pairwise_append.mp hsorted).2.1
  rcases mem_cons.mp hv with rfl | hv
  · exact le_rfl
  · exact rel_of_pairwise_cons hqueue hv

/-- What is not found yet is further away than the head of the queue: the way up to it leaves what
is found with a step from a type in the queue. -/
theorem lt_of_not_found (hu : s.Ascends t n u) (hnot : u ∉ t :: found) : s.distance t c < n := by
  induction hu with
  | here => exact absurd (.head _) hnot
  | @up n v u hv hu ih =>
    by_cases hfound : v ∈ t :: found
    · rw [h.parts] at hfound
      rcases mem_append.mp hfound with hthrough | hqueue
      · exact absurd (h.closed v hthrough u hu) hnot
      · have hhead := h.head_le hqueue
        have hle := (distance_spec hv).2
        omega
    · have hlt := ih hfound
      omega

theorem distance_new {found' new : List TypeName}
    (hnew : Discovered t found (s.parents c) found' new) (hv : v ∈ new) :
    s.distance t v = s.distance t c + 1 := by
  have hup := (h.reached c h.head_found).up (hnew.subset hv)
  have hle := (distance_spec hup).2
  have hlt := h.lt_of_not_found (distance_spec hup).1 fun hfound =>
    disjoint_of_nodup_append (hnew.nodup h.nodup) hfound hv
  omega

theorem step :
    s.Climbing t (through ++ [c]) (queue ++ (discover t found (s.parents c)).2)
      (discover t found (s.parents c)).1 := by
  have hnew := discovered_discover t found (s.parents c)
  generalize (discover t found (s.parents c)).1 = found', (discover t found (s.parents c)).2 = new
    at *
  have hdistance : ∀ v ∈ new, s.distance t v = s.distance t c + 1 :=
    fun v hv => h.distance_new hnew hv
  have hnodup := hnew.nodup h.nodup
  rw [hnew.parts]
  have hnear := h.near c (.head _)
  constructor <;> rw [← cons_append]
  · rw [h.parts]
    simp
  · exact hnodup
  · intro d hd p hp
    rcases mem_append.mp hd with hd | hd
    · exact mem_append_left _ (h.closed d hd p hp)
    · rw [mem_singleton.mp hd] at hp
      exact hnew.covers p hp
  · intro u hu
    rcases mem_append.mp hu with hu | hu
    · exact h.reached u hu
    · exact (distance_spec ((h.reached c h.head_found).up (hnew.subset hu))).1
  · rw [pairwise_append]
    refine ⟨h.sorted, (nodup_append.mp hnodup).2.1.imp_of_mem ?_, ?_⟩
    · intro u v hu hv _
      rw [hdistance u hu, hdistance v hv]
    · intro u hu v hv
      rw [hdistance v hv]
      exact hnear u hu
  · intro d hd u hu
    have hd' : s.distance t c ≤ s.distance t d := by
      rcases mem_append.mp hd with hd | hd
      · exact h.head_le (.tail _ hd)
      · rw [hdistance d hd]
        omega
    rcases mem_append.mp hu with hu | hu
    · have hle := hnear u hu
      omega
    · rw [hdistance u hu]
      omega

end

theorem length_le (h : s.Climbing t through queue found) :
    through.length + queue.length ≤ s.supertypes.values.flatten.length + 1 := by
  have hnodup := nodup_cons.mp h.nodup
  have hsubset : found ⊆ s.supertypes.values.flatten := by
    intro u hu
    refine (h.reached u (.tail t hu)).mem_values ?_
    rintro rfl
    exact hnodup.1 hu
  have hle : found.length ≤ s.supertypes.values.flatten.length :=
    (subperm_of_subset hnodup.2 hsubset).length_le
  have hlength := congrArg List.length h.parts
  rw [length_cons, length_append] at hlength
  omega

/-- When the queue is empty, exactly what can be reached is found. -/
theorem mem_iff (h : s.Climbing t through [] found) :
    u ∈ found ↔ u ≠ t ∧ ∃ n, s.Ascends t (n + 1) u := by
  have hthrough : t :: found = through := by simpa using h.parts
  constructor
  · intro hu
    have hne : u ≠ t := by
      rintro rfl
      exact (nodup_cons.mp h.nodup).1 hu
    refine ⟨hne, ?_⟩
    obtain ⟨n, hn⟩ : ∃ n, s.Ascends t n u := ⟨_, h.reached u (.tail t hu)⟩
    cases hn with
    | here => exact absurd rfl hne
    | up hv hu => exact ⟨_, hv.up hu⟩
  · rintro ⟨hne, n, hu⟩
    have hall : ∀ {n u}, s.Ascends t n u → u ∈ t :: found := by
      intro n u hu
      induction hu with
      | here => exact .head _
      | up _ hu ih => exact h.closed _ (hthrough ▸ ih) _ hu
    exact mem_of_ne_of_mem hne (hall hu)

end Climbing

/-! ## The search against a clock -/

/-- What is found when the queue is empty, if that happens in time. -/
def climbWithin (s : Surface) (t : TypeName) :
    Nat → List TypeName → List TypeName → Option (List TypeName)
  | 0, _, _ => none
  | _ + 1, [], found => some found
  | clock + 1, c :: queue, found =>
    s.climbWithin t clock (queue ++ (discover t found (s.parents c)).2)
      (discover t found (s.parents c)).1

/-- The search comes to an empty queue, and neither the clock nor the bound is noticed. The
induction is on the clock; each round moves one type from the queue to those that are through, of
which there are no more than types in the table. -/
theorem Climbing.ends {through queue found : List TypeName} (h : s.Climbing t through queue found)
    (clock fuel : Nat) (hclock : s.supertypes.values.flatten.length + 1 < clock + through.length)
    (hfuel : s.supertypes.values.flatten.length + 1 ≤ fuel + through.length) :
    s.climbWithin t clock queue found = some (s.climb t fuel queue found) ∧
      s.Climbing t (t :: s.climb t fuel queue found) [] (s.climb t fuel queue found) := by
  have hlength := h.length_le
  induction clock generalizing fuel through queue found with
  | zero => omega
  | succ clock ih =>
    cases queue with
    | nil =>
      have hclimb : s.climb t fuel [] found = found := by cases fuel <;> rfl
      have hthrough : t :: found = through := by simpa using h.parts
      rw [hclimb, hthrough]
      exact ⟨rfl, h⟩
    | cons c queue =>
      rw [length_cons] at hlength
      obtain ⟨fuel, rfl⟩ : ∃ m, fuel = m + 1 := ⟨fuel - 1, by omega⟩
      have hlast : (through ++ [c]).length = through.length + 1 := by simp
      exact ih h.step fuel (by omega) (by omega) h.step.length_le

/-- The search for the supertypes of a type comes to an end, within two rounds more than there are
entries in the table. It finds exactly the other types that can be reached by one step or more, each
once, and those at a smaller distance first. -/
theorem supertypesOf_breadthFirst (s : Surface) (t : TypeName) :
    (∀ clock, s.supertypes.values.flatten.length + 1 < clock →
      s.climbWithin t clock [t] [] = some (s.supertypesOf t)) ∧
    (s.supertypesOf t).Nodup ∧
    (∀ u, u ∈ s.supertypesOf t ↔ u ≠ t ∧ ∃ n, s.Ascends t (n + 1) u) ∧
    (s.supertypesOf t).Pairwise fun u v => s.distance t u ≤ s.distance t v := by
  have hends := fun clock hclock => (climbing_start s t).ends clock
    (s.supertypes.values.flatten.length + 1) hclock (Nat.le_add_right _ _)
  have hend : s.Climbing t (t :: s.supertypesOf t) [] (s.supertypesOf t) :=
    (hends _ (Nat.lt_succ_self _)).2
  refine ⟨fun clock hclock => (hends clock hclock).1, ?_, fun u => hend.mem_iff, ?_⟩
  · exact (nodup_cons.mp hend.nodup).2
  · exact (pairwise_cons.mp hend.sorted).2

/-- A table with a type that is its own parent, and with two ways up that meet and lead back. -/
def tangledTypes : Surface :=
  { supertypes := Table.ofList [("Sprite", ["Sprite", "Entity", "Image"]),
      ("Entity", ["Thing", "Sprite"]), ("Image", ["Thing", "Entity"])] }

theorem supertypesOf_breadthFirst_tangled :
    tangledTypes.climbWithin "Sprite" 9 ["Sprite"] [] = some ["Entity", "Image", "Thing"] ∧
    (∃ n, tangledTypes.Ascends "Sprite" (n + 1) "Thing") ∧
    tangledTypes.distance "Sprite" "Image" ≤ tangledTypes.distance "Sprite" "Thing" := by
  have hfound : tangledTypes.supertypesOf "Sprite" = ["Entity", "Image", "Thing"] := by decide
  obtain ⟨hends, _, hmem, hsorted⟩ := supertypesOf_breadthFirst tangledTypes "Sprite"
  rw [hfound] at hends hsorted
  refine ⟨hends 9 (by decide), ?_, ?_⟩
  · exact ((hmem "Thing").mp (by rw [hfound]; simp)).2
  · exact rel_of_pairwise_cons (pairwise_cons.mp hsorted).2 (.head _)

end BlockProgram.Surface
