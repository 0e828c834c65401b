import BlockProgram.Table
import Mathlib.Data.List.Nodup

/-!
# Laws of tables

Reading after a write or an erasure. In a table whose keys differ, which every table built by
insertions is (`Distinct`), the entries are exactly what can be read.
-/

namespace BlockProgram.Table

open List

variable {κ ν : Type} [DecidableEq κ] {t : Table κ ν}

theorem mem_of_lookup {l : List (κ × ν)} {k : κ} {v : ν} (h : l.lookup k = some v) :
    (k, v) ∈ l := by
  obtain ⟨_, _, rfl, _⟩ := lookup_eq_some_iff.mp h
  exact mem_append_right _ (.head _)

theorem mem_values_of_get? {k : κ} {v : ν} (h : t.get? k = some v) : v ∈ t.values :=
  mem_map.mpr ⟨_, mem_of_lookup h, rfl⟩

/-! ## Reading after writing -/

theorem lookup_cons_ite (e : κ × ν) (l : List (κ × ν)) (k : κ) :
    (e :: l).lookup k = if k = e.1 then some e.2 else l.lookup k := by
  rw [lookup_cons]
  by_cases hk : k = e.1
  · rw [if_pos hk, beq_iff_eq.mpr hk]
  · rw [if_neg hk, beq_false_of_ne hk]

theorem lookup_insertEntry (key : κ) (value : ν) (l : List (κ × ν)) (k : κ) :
    (insertEntry key value l).lookup k = if k = key then some value else l.lookup k := by
  induction l with
  | nil => exact lookup_cons_ite (key, value) [] k
  | cons e r ih =>
    unfold insertEntry
    by_cases he : e.1 = key
    · rw [if_pos he, lookup_cons_ite, lookup_cons_ite]
      by_cases hk : k = key
      · rw [if_pos hk, if_pos hk]
      · rw [if_neg hk, if_neg hk, if_neg (fun h => hk (h.trans he))]
    · rw [if_neg he, lookup_cons_ite, lookup_cons_ite, ih]
      by_cases hke : k = e.1
      · rw [if_pos hke, if_pos hke, if_neg (fun h => he (hke.symm.trans h))]
      · rw [if_neg hke, if_neg hke]

theorem get?_insert (t : Table κ ν) (key : κ) (value : ν) (k : κ) :
    (t.insert key value).get? k = if k = key then some value else t.get? k :=
  lookup_insertEntry key value t.entries k

theorem get?_insert_self (t : Table κ ν) (key : κ) (value : ν) :
    (t.insert key value).get? key = some value := by
  rw [get?_insert, if_pos rfl]

theorem get?_insert_ne (t : Table κ ν) {key k : κ} (value : ν) (h : k ≠ key) :
    (t.insert key value).get? k = t.get? k := by
  rw [get?_insert, if_neg h]

/-- A write to a key without a value keeps what could be read before. -/
theorem get?_insert_of_get? {key k : κ} {value v : ν} (hfree : t.get? key = none)
    (h : t.get? k = some v) : (t.insert key value).get? k = some v := by
  rw [get?_insert_ne]
  · exact h
  · rintro rfl
    rw [hfree] at h
    cases h

/-! ## Reading after erasing -/

theorem get?_erase (t : Table κ ν) (key k : κ) :
    (t.erase key).get? k = if k = key then none else t.get? k := by
  obtain ⟨l⟩ := t
  show (l.filter fun e => e.1 ≠ key).lookup k = if k = key then none else l.lookup k
  induction l with
  | nil => split <;> rfl
  | cons e r ih =>
    rw [lookup_cons_ite]
    by_cases he : e.1 = key
    · rw [filter_cons_of_neg (by simpa using he), ih]
      by_cases hk : k = key
      · rw [if_pos hk, if_pos hk]
      · rw [if_neg hk, if_neg hk, if_neg (fun h => hk (h.trans he))]
    · rw [filter_cons_of_pos (by simpa using he), lookup_cons_ite, ih]
      by_cases hke : k = e.1
      · rw [if_pos hke, if_pos hke, if_neg (fun h => he (hke.symm.trans h))]
      · rw [if_neg hke, if_neg hke]

/-! ## Distinct keys -/

def Distinct (t : Table κ ν) : Prop :=
  (t.entries.map Prod.fst).Nodup

omit [DecidableEq κ] in
theorem distinct_empty : Distinct ({} : Table κ ν) :=
  nodup_nil

theorem mem_insertEntry_keys (key : κ) (value : ν) (l : List (κ × ν)) (k : κ) :
    k ∈ (insertEntry key value l).map Prod.fst ↔ k = key ∨ k ∈ l.map Prod.fst := by
  induction l with
  | nil => simp [insertEntry]
  | cons e r ih =>
    unfold insertEntry
    split
    · next he => simp [he]
    · rw [map_cons, mem_cons, ih, map_cons, mem_cons]
      exact or_left_comm

theorem Distinct.insert (ht : t.Distinct) (key : κ) (value : ν) :
    (t.insert key value).Distinct := by
  obtain ⟨l⟩ := t
  show ((insertEntry key value l).map Prod.fst).Nodup
  have hl : (l.map Prod.fst).Nodup := ht
  clear ht
  induction l with
  | nil => simp [insertEntry]
  | cons e r ih =>
    rw [map_cons, nodup_cons] at hl
    unfold insertEntry
    split
    · next he =>
      rw [map_cons, nodup_cons, ← he]
      exact hl
    · next he =>
      rw [map_cons, nodup_cons, mem_insertEntry_keys]
      refine ⟨?_, ih hl.2⟩
      rintro (h | h)
      · exact he h
      · exact hl.1 h

theorem Distinct.erase (ht : t.Distinct) (key : κ) : (t.erase key).Distinct :=
  List.Nodup.sublist (List.Sublist.map _ filter_sublist) ht

theorem Distinct.mem_entries_iff (ht : t.Distinct) (k : κ) (v : ν) :
    (k, v) ∈ t.entries ↔ t.get? k = some v := by
  obtain ⟨l⟩ := t
  have hl : (l.map Prod.fst).Nodup := ht
  clear ht
  show (k, v) ∈ l ↔ l.lookup k = some v
  induction l with
  | nil => simp
  | cons e r ih =>
    rw [map_cons, nodup_cons] at hl
    rw [mem_cons, lookup_cons_ite]
    split
    · next hk =>
      constructor
      · rintro (h | h)
        · rw [← h]
        · exact absurd (mem_map_of_mem h) (hk ▸ hl.1)
      · intro h
        exact .inl (Prod.ext hk (Option.some.inj h).symm)
    · next hk =>
      rw [ih hl.2]
      constructor
      · rintro (h | h)
        · exact absurd (congrArg Prod.fst h) hk
        · exact h
      · exact .inr

theorem Distinct.mem_values_iff (ht : t.Distinct) (v : ν) :
    v ∈ t.values ↔ ∃ k, t.get? k = some v := by
  unfold values
  rw [mem_map]
  constructor
  · rintro ⟨⟨k, v⟩, he, rfl⟩
    exact ⟨k, (ht.mem_entries_iff k v).mp he⟩
  · rintro ⟨k, hk⟩
    exact ⟨(k, v), (ht.mem_entries_iff k v).mpr hk, rfl⟩

/-- Values that have one key each occur once. -/
theorem Distinct.nodup_values (ht : t.Distinct)
    (hinj : ∀ k k' v, t.get? k = some v → t.get? k' = some v → k = k') : t.values.Nodup := by
  unfold values
  have hentries : t.entries.Nodup := List.Nodup.of_map _ ht
  refine List.Nodup.map_on ?_ hentries
  rintro ⟨k, v⟩ hk ⟨k', v'⟩ hk' hv
  cases hv
  rw [hinj k k' v ((ht.mem_entries_iff k v).mp hk) ((ht.mem_entries_iff k' v).mp hk')]

end BlockProgram.Table
