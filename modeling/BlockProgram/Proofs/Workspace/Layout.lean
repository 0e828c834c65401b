import BlockProgram.Proofs.Workspace.Traversal
import Mathlib.Data.List.Basic
import Mathlib.Data.List.Forall2

/-!
# Which blocks form a workspace

Specifications refer to each other by id. Building accepts them exactly when they are laid out as a
forest (`build_ok_iff`): no id is given twice, every connection leads to a block, no block is
connected to twice, and following connections never comes back (`IsLaidOut`).

Building notes parents while half of the blocks are still to come, and excludes rings by climbing
from parent to parent. What it has built so far is known from the specifications: the children of a
block stand at the places of the ids that its specification is connected to (`addBlocks_describes`).
-/

namespace BlockProgram

open Relation List

variable {ε α β : Type} {b : Block} {owner : String} {spec s : BlockSpec} {specs : List BlockSpec}

/-- The ids that a block is connected to: those in its inputs, then its follower. -/
def BlockSpec.connections (s : BlockSpec) : List String :=
  s.inputs.filterMap (·.2.2) ++ s.next.toList

/-- The block with id `a` is connected to the one with id `b`. -/
def Connects (specs : List BlockSpec) (a b : String) : Prop :=
  ∃ s ∈ specs, s.id = a ∧ b ∈ s.connections

/-- Specifications that form a forest. -/
structure IsLaidOut (specs : List BlockSpec) : Prop where
  distinct : (specs.map (·.id)).Nodup
  known : ∀ s ∈ specs, ∀ id ∈ s.connections, id ∈ specs.map (·.id)
  /-- No block is connected to twice, by one block or by two. -/
  once : (specs.flatMap (·.connections)).Nodup
  apart : ∀ s ∈ specs, s.id ∉ s.connections
  /-- Following connections never comes back. -/
  acyclic : ∀ id, ¬ TransGen (Connects specs) id id

namespace Workspace

/-! ## Ids -/

theorem firstRepeated_eq_none_iff (before ids : List String) :
    firstRepeated before ids = none ↔ ids.Nodup ∧ ∀ id ∈ ids, id ∉ before := by
  induction ids generalizing before with
  | nil => simp [firstRepeated]
  | cons id r ih =>
    unfold firstRepeated
    by_cases hid : id ∈ before
    · simp [hid]
    · rw [if_neg hid, ih, nodup_cons]
      constructor
      · rintro ⟨hr, hnot⟩
        refine ⟨⟨?_, hr⟩, ?_⟩
        · intro hmem
          exact hnot id hmem (.head _)
        · intro x hx
          rcases mem_cons.mp hx with rfl | hx
          · exact hid
          · intro hb
            exact hnot x hx (.tail id hb)
      · rintro ⟨⟨hmem, hr⟩, hnot⟩
        refine ⟨hr, ?_⟩
        intro x hx hb
        rcases mem_cons.mp hb with rfl | hb
        · exact hmem hx
        · exact hnot x (.tail id hx) hb

/-! ## References -/

section Resolving

variable {surface : Surface} {ids : List String}

theorem resolveRef?_of_known {x : Option String} (hx : ∀ id ∈ x, id ∈ ids) :
    resolveRef? ids owner x = .ok (x.map ids.idxOf) := by
  cases x with
  | none => rfl
  | some id =>
    have hmem := hx id rfl
    have hplace : ids.idxOf? id = some (ids.idxOf id) := by
      obtain ⟨i, hi⟩ := Option.isSome_iff_exists.mp (isSome_idxOf?.mpr hmem)
      rw [idxOf_eq_getD_idxOf?, hi]
      rfl
    unfold resolveRef? resolveRef
    dsimp only
    rw [hplace]
    rfl

theorem known_of_resolveRef? {x : Option String} {r : Option BlockRef}
    (h : resolveRef? ids owner x = .ok r) : ∀ id ∈ x, id ∈ ids := by
  rintro id rfl
  unfold resolveRef? resolveRef at h
  dsimp only at h
  cases hplace : ids.idxOf? id with
  | none =>
    rw [hplace] at h
    cases h
  | some i => exact isSome_idxOf?.mp (by rw [hplace]; rfl)

theorem resolveInput_of_known {i : String × InputKind × Option String} (hi : ∀ id ∈ i.2.2, id ∈ ids)
    : resolveInput ids owner i = .ok ⟨i.1, i.2.1, i.2.2.map ids.idxOf⟩ := by
  unfold resolveInput
  rw [resolveRef?_of_known hi]
  rfl

theorem mapM_of_forall {f : α → Except ε β} {g : α → β} {l : List α}
    (h : ∀ a ∈ l, f a = .ok (g a)) : l.mapM f = .ok (l.map g) := by
  induction l with
  | nil => rfl
  | cons a r ih =>
    rw [mapM_cons, h a mem_cons_self, ih (fun x hx => h x (.tail a hx))]
    rfl

theorem known_of_resolveBlock (h : resolveBlock surface ids spec = .ok b) :
    ∀ id ∈ spec.connections, id ∈ ids := by
  unfold resolveBlock at h
  obtain ⟨inputs, hinputs, h⟩ := ok_of_bind h
  obtain ⟨next, hnext, _⟩ := ok_of_bind h
  intro id hid
  rcases mem_append.mp hid with hid | hid
  · obtain ⟨i, hi, hplug⟩ := mem_filterMap.mp hid
    obtain ⟨input, hinput⟩ := (ok_of_mapM hinputs).1 i hi
    unfold resolveInput at hinput
    obtain ⟨target, htarget, _⟩ := ok_of_bind hinput
    exact known_of_resolveRef? htarget id hplug
  · exact known_of_resolveRef? hnext id (Option.mem_toList.mp hid)

/-- The block of a specification. What it is connected to stands where the ids do. -/
structure Realises (ids : List String) (spec : BlockSpec) (b : Block) : Prop where
  id_eq : b.id = spec.id
  enabled_eq : b.enabled = spec.enabled
  inputs_eq : b.inputs = spec.inputs.map fun i => ⟨i.1, i.2.1, i.2.2.map ids.idxOf⟩
  next_eq : b.next = spec.next.map ids.idxOf

theorem Realises.childrenOf_eq (h : Realises ids spec b) :
    childrenOf b = spec.connections.map ids.idxOf := by
  unfold childrenOf Block.targets BlockSpec.connections
  rw [h.inputs_eq, h.next_eq, map_append]
  congr 1
  · simp [filterMap_map, map_filterMap]
  · cases spec.next <;> rfl

theorem resolveBlock_of_known (h : ∀ id ∈ spec.connections, id ∈ ids) :
    ∃ b, resolveBlock surface ids spec = .ok b ∧ Realises ids spec b := by
  have hinputs : spec.inputs.mapM (resolveInput ids spec.id) =
      .ok (spec.inputs.map fun i => ⟨i.1, i.2.1, i.2.2.map ids.idxOf⟩) := by
    refine mapM_of_forall ?_
    intro i hi
    refine resolveInput_of_known ?_
    intro id hid
    exact h id (mem_append_left _ (mem_filterMap.mpr ⟨i, hi, hid⟩))
  have hnext : resolveRef? ids spec.id spec.next = .ok (spec.next.map ids.idxOf) := by
    refine resolveRef?_of_known ?_
    intro id hid
    exact h id (mem_append_right _ (Option.mem_toList.mpr hid))
  unfold resolveBlock
  rw [hinputs, hnext]
  exact ⟨_, rfl, rfl, rfl, rfl, rfl⟩

theorem realises_of_resolveBlock (h : resolveBlock surface ids spec = .ok b) :
    Realises ids spec b := by
  obtain ⟨b', hb', hrealises⟩ := resolveBlock_of_known (known_of_resolveBlock h)
  rw [h] at hb'
  cases hb'
  exact hrealises

end Resolving

/-! ## Blocks so far -/

section Adding

variable {surface : Surface} {ids : List String}

/-- Each of the blocks is what its specification resolves to. -/
structure Describes (surface : Surface) (ids : List String) (specs : List BlockSpec)
    (blocks : Array Block) : Prop where
  size_eq : blocks.size = specs.length
  resolve_eq : ∀ (p : BlockRef) s, specs[p]? = some s →
    ∃ b, blocks[p]? = some b ∧ resolveBlock surface ids s = .ok b

theorem Describes.push {blocks : Array Block} (h : Describes surface ids specs blocks)
    (hb : resolveBlock surface ids s = .ok b) :
    Describes surface ids (specs ++ [s]) (blocks.push b) := by
  constructor
  · rw [Array.size_push, h.size_eq, length_append, length_singleton]
  · intro p t ht
    rw [getElem?_append] at ht
    rw [Array.getElem?_push, h.size_eq]
    split at ht
    · next hp =>
      rw [if_neg (ne_of_lt hp)]
      exact h.resolve_eq p t ht
    · next hp =>
      have hlast : p = specs.length := by
        have hlt := (List.getElem?_eq_some_iff.mp ht).1
        rw [length_singleton, Nat.lt_one_iff] at hlt
        exact le_antisymm (Nat.le_of_sub_eq_zero hlt) (Nat.le_of_not_lt hp)
      rw [hlast, Nat.sub_self] at ht
      cases ht
      exact ⟨b, by rw [if_pos hlast], hb⟩

/-- What a block is connected to is known from its specification. -/
theorem Describes.children {blocks : Array Block} (h : Describes surface ids specs blocks)
    {p : BlockRef} (hb : blocks[p]? = some b) :
    ∃ s, specs[p]? = some s ∧ childrenOf b = s.connections.map ids.idxOf := by
  have hlt : p < specs.length := by
    rw [← h.size_eq]
    exact (Array.getElem?_eq_some_iff.mp hb).1
  obtain ⟨b', hb', hresolve⟩ := h.resolve_eq p _ (getElem?_eq_getElem hlt)
  rw [hb] at hb'
  cases hb'
  exact ⟨_, getElem?_eq_getElem hlt, (realises_of_resolveBlock hresolve).childrenOf_eq⟩

theorem addBlock_describes {acc acc' : Array Block × Array (Option BlockRef)}
    (hacc : Describes surface ids specs acc.1) (h : addBlock surface ids acc s = .ok acc') :
    Describes surface ids (specs ++ [s]) acc'.1 := by
  obtain ⟨b, parents, hb, _, rfl⟩ := exists_of_addBlock h
  exact hacc.push hb

/-- Blocks are added in the order of their specifications. -/
theorem addBlocks_describes {specs rest : List BlockSpec}
    {acc acc' : Array Block × Array (Option BlockRef)} (hacc : Describes surface ids specs acc.1)
    (h : rest.foldlM (addBlock surface ids) acc = .ok acc') :
    Describes surface ids (specs ++ rest) acc'.1 :=
  addBlocks_induction (J := fun done acc => Describes surface ids done acc.1)
    (fun _ _ _ _ => addBlock_describes) specs hacc h

theorem describes_empty (surface : Surface) (ids : List String) : Describes surface ids [] #[] :=
  ⟨rfl, nofun⟩

theorem noted_adopt_ne {position x y : BlockRef} {parents parents' : Array (Option BlockRef)}
    (h : adopt owner position parents x = .ok parents') (hy : noted parents y = none)
    (hxy : y ≠ x) : noted parents' y = none := by
  cases hn : noted parents' y with
  | none => rfl
  | some b =>
    rcases noted_adopt h hn with hb | ⟨_, hb⟩
    · rw [hy] at hb
      cases hb
    · exact absurd hb hxy

/-- Different blocks without a parent are adopted, by another block. -/
theorem adoptAll_ok {position : BlockRef} {children : List BlockRef}
    {parents : Array (Option BlockRef)} (hnodup : children.Nodup) (hself : position ∉ children)
    (hfree : ∀ x ∈ children, noted parents x = none) :
    ∃ parents', children.foldlM (adopt owner position) parents = .ok parents' := by
  induction children generalizing parents with
  | nil => exact ⟨parents, rfl⟩
  | cons x r ih =>
    obtain ⟨hx, hr⟩ := nodup_cons.mp hnodup
    have hxp : x ≠ position := fun h => hself (h ▸ (.head _))
    have hfirst : adopt owner position parents x =
        .ok (parents.setIfInBounds x (some position)) := by
      unfold adopt
      have hnone : (parents[x]?).join = none := hfree x (.head _)
      rw [if_neg hxp, hnone, if_neg (by simp)]
    rw [foldlM_cons, hfirst]
    refine ih hr (fun h => hself (.tail x h)) ?_
    intro y hy
    refine noted_adopt_ne hfirst (hfree y (.tail x hy)) ?_
    rintro rfl
    exact hx hy

/-- Laid out blocks are added: each is resolved, and none of its children has a parent so far. -/
theorem addBlocks_ok (specs rest : List BlockSpec) {acc : Array Block × Array (Option BlockRef)}
    (hlaid : IsLaidOut (specs ++ rest)) (hids : ids = (specs ++ rest).map (·.id))
    (hdescribes : Describes surface ids specs acc.1) (hnoted : Noted ids.length acc) :
    ∃ acc', rest.foldlM (addBlock surface ids) acc = .ok acc' := by
  induction rest generalizing specs acc with
  | nil => exact ⟨acc, rfl⟩
  | cons s r ih =>
    have hs : s ∈ specs ++ s :: r := mem_append_right _ (.head _)
    have hknown : ∀ id ∈ s.connections, id ∈ ids := by
      rw [hids]
      exact hlaid.known s hs
    have hplace : ids.idxOf s.id = specs.length := by
      have hnodup : ids.Nodup := by
        rw [hids]
        exact hlaid.distinct
      have hlt : specs.length < ids.length := by
        rw [hids]
        simp
      have hself : ids[specs.length] = s.id := by
        simp [hids]
      rw [← hself]
      exact hnodup.idxOf_getElem _ hlt
    have honce := hlaid.once
    rw [flatMap_append, flatMap_cons, nodup_append] at honce
    obtain ⟨_, honce, hbefore⟩ := honce
    obtain ⟨b, hb, hrealises⟩ := resolveBlock_of_known hknown
    have hadopt : ∃ parents, (childrenOf b).foldlM (adopt b.id acc.1.size) acc.2 = .ok parents := by
      rw [hrealises.childrenOf_eq]
      refine adoptAll_ok ?_ ?_ ?_
      · refine List.Nodup.map_on ?_ (nodup_append.mp honce).1
        intro x hx y _ hxy
        exact (idxOf_inj (hknown x hx)).mp hxy
      · intro hmem
        obtain ⟨id, hid, heq⟩ := mem_map.mp hmem
        rw [hdescribes.size_eq, ← hplace] at heq
        rw [(idxOf_inj (hknown id hid)).mp heq] at hid
        exact hlaid.apart s hs hid
      · intro x hx
        obtain ⟨id, hid, rfl⟩ := mem_map.mp hx
        cases hn : noted acc.2 (ids.idxOf id) with
        | none => rfl
        | some p =>
          -- an earlier block would be connected to the same one
          obtain ⟨block, hblock, hchild⟩ := hnoted.child _ _ hn
          obtain ⟨t, ht, hconnections⟩ := hdescribes.children hblock
          rw [hconnections] at hchild
          obtain ⟨id', hid', heq⟩ := mem_map.mp hchild
          have hsame := (idxOf_inj (hknown id hid)).mp heq.symm
          have hmem : id ∈ specs.flatMap (·.connections) :=
            mem_flatMap.mpr ⟨t, mem_of_getElem? ht, hsame ▸ hid'⟩
          exact absurd rfl (hbefore id hmem id (mem_append_left _ hid))
    obtain ⟨parents, hparents⟩ := hadopt
    have hfirst : addBlock surface ids acc s = .ok (acc.1.push b, parents) := by
      unfold addBlock
      rw [hb]
      show (childrenOf b).foldlM (adopt b.id acc.1.size) acc.2 >>= _ = _
      rw [hparents]
      rfl
    rw [foldlM_cons, hfirst]
    refine ih (specs ++ [s]) ?_ ?_ (addBlock_describes hdescribes hfirst)
      (addBlock_noted hnoted hfirst)
    · rwa [append_assoc, singleton_append]
    · rw [hids, append_assoc, singleton_append]

end Adding

/-! ## Climbing -/

section Climbing

variable {ws : Workspace}

open Classical in
/-- The blocks of the workspace that are strictly above a block. -/
noncomputable def strictlyAbove (ws : Workspace) (x : BlockRef) : Finset BlockRef :=
  (Finset.range ws.size).filter fun a => TransGen (fun y b => ws.parent? y = some b) x a

theorem mem_strictlyAbove {a x : BlockRef} : a ∈ ws.strictlyAbove x ↔
    a < ws.size ∧ TransGen (fun y b => ws.parent? y = some b) x a := by
  simp [strictlyAbove]

theorem card_strictlyAbove_le (x : BlockRef) : (ws.strictlyAbove x).card ≤ ws.size := by
  have hsub : ws.strictlyAbove x ⊆ Finset.range ws.size :=
    fun a ha => Finset.mem_range.mpr (mem_strictlyAbove.mp ha).1
  exact (Finset.card_le_card hsub).trans_eq (Finset.card_range _)

/-- Where no block is above itself, a parent has fewer blocks above it. -/
theorem card_strictlyAbove_lt (hacyclic : ∀ b, ¬ TransGen (fun y b => ws.parent? y = some b) b b)
    {b x : BlockRef} (hb : b < ws.size) (hx : ws.parent? x = some b) :
    (ws.strictlyAbove b).card < (ws.strictlyAbove x).card := by
  refine Finset.card_lt_card ⟨?_, ?_⟩
  · intro a ha
    obtain ⟨halt, hba⟩ := mem_strictlyAbove.mp ha
    exact mem_strictlyAbove.mpr ⟨halt, TransGen.head hx hba⟩
  · intro hsub
    have hmem : b ∈ ws.strictlyAbove x := mem_strictlyAbove.mpr ⟨hb, TransGen.single hx⟩
    exact hacyclic b (mem_strictlyAbove.mp (hsub hmem)).2

/-- Climbing takes no more steps than there are blocks above. -/
theorem endsAbove_of_acyclic (hacyclic : ∀ b, ¬ TransGen (fun y b => ws.parent? y = some b) b b)
    (hlt : ∀ b x, ws.parent? x = some b → b < ws.size) (fuel : Nat) (x : BlockRef)
    (hfuel : (ws.strictlyAbove x).card ≤ fuel) : ws.endsAbove fuel x = true := by
  induction fuel generalizing x with
  | zero =>
    unfold endsAbove
    cases hp : ws.parent? x with
    | none => rfl
    | some b =>
      have hless := card_strictlyAbove_lt hacyclic (hlt b x hp) hp
      omega
  | succ fuel ih =>
    unfold endsAbove
    cases hp : ws.parent? x with
    | none => rfl
    | some b =>
      have hless := card_strictlyAbove_lt hacyclic (hlt b x hp) hp
      exact ih b (by omega)

end Climbing

/-! ## Building -/

section Building

variable {surface : Surface} {specs : List BlockSpec} {vars : List VariableModel} {ws : Workspace}

/-- What is built holds the blocks of the specifications, whose ids are distinct. -/
theorem build_describes (h : build surface specs vars = .ok ws) :
    (specs.map (·.id)).Nodup ∧ Describes surface (specs.map (·.id)) specs ws.blocks := by
  obtain ⟨hrepeated, hadd, _⟩ := exists_of_build h
  refine ⟨((firstRepeated_eq_none_iff [] _).mp hrepeated).1, ?_⟩
  exact addBlocks_describes (describes_empty surface _) hadd

theorem realises_of_build (h : build surface specs vars = .ok ws) {p : BlockRef}
    (hs : specs[p]? = some s) : Realises (specs.map (·.id)) s (ws.block p) := by
  obtain ⟨b, hb, hresolve⟩ := (build_describes h).2.resolve_eq p s hs
  unfold block
  rw [hb]
  exact realises_of_resolveBlock hresolve

/-- The children of a block stand where the ids do that its specification is connected to. -/
theorem children_of_build (h : build surface specs vars = .ok ws) {p : BlockRef}
    (hs : specs[p]? = some s) : ws.children p = s.connections.map (specs.map (·.id)).idxOf :=
  (realises_of_build h hs).childrenOf_eq

theorem isLaidOut_of_build (h : build surface specs vars = .ok ws) : IsLaidOut specs := by
  obtain ⟨hdistinct, hdescribes⟩ := build_describes h
  have hsound := build_sound h
  obtain ⟨depth, hdepth⟩ := hsound.ranked
  have hplace : ∀ (p : BlockRef) s, specs[p]? = some s → (specs.map (·.id)).idxOf s.id = p := by
    intro p s hs
    obtain ⟨hp, rfl⟩ := List.getElem?_eq_some_iff.mp hs
    have hlt : p < (specs.map (·.id)).length := by rwa [length_map]
    have hself : (specs.map (·.id))[p] = specs[p].id := getElem_map _
    rw [← hself]
    exact hdistinct.idxOf_getElem p hlt
  have hparent : ∀ (p : BlockRef) s, specs[p]? = some s → ∀ id ∈ s.connections,
      ws.parent? ((specs.map (·.id)).idxOf id) = some p := by
    intro p s hs id hid
    refine hsound.parent_eq p _ ?_
    rw [children_of_build h hs]
    exact mem_map_of_mem hid
  have hdeeper : ∀ {a b}, Connects specs a b →
      depth ((specs.map (·.id)).idxOf a) < depth ((specs.map (·.id)).idxOf b) := by
    rintro a b ⟨s, hs, rfl, hb⟩
    obtain ⟨p, hp⟩ := mem_iff_getElem?.mp hs
    rw [hplace p s hp]
    exact hdepth _ _ (hparent p s hp b hb)
  refine ⟨hdistinct, ?_, ?_, ?_, ?_⟩
  · intro s hs
    obtain ⟨p, hp⟩ := mem_iff_getElem?.mp hs
    obtain ⟨b, _, hresolve⟩ := hdescribes.resolve_eq p s hp
    exact known_of_resolveBlock hresolve
  · rw [nodup_flatMap]
    constructor
    · intro s hs
      obtain ⟨p, hp⟩ := mem_iff_getElem?.mp hs
      have hnodup := hsound.nodup p
      rw [children_of_build h hp] at hnodup
      exact List.Nodup.of_map _ hnodup
    · rw [pairwise_iff_getElem]
      intro i j hi hj hij id hidi hidj
      have h1 := hparent i _ (getElem?_eq_getElem hi) id hidi
      have h2 := hparent j _ (getElem?_eq_getElem hj) id hidj
      rw [h1] at h2
      exact absurd (Option.some.inj h2) (ne_of_lt hij)
  · intro s hs hself
    exact absurd (hdeeper ⟨s, hs, rfl, hself⟩) (lt_irrefl _)
  · intro id hring
    have hclimb : ∀ {a b}, TransGen (Connects specs) a b →
        depth ((specs.map (·.id)).idxOf a) < depth ((specs.map (·.id)).idxOf b) := by
      intro a b hab
      induction hab with
      | single hab => exact hdeeper hab
      | tail _ hlast ih => exact lt_trans ih (hdeeper hlast)
    exact absurd (hclimb hring) (lt_irrefl _)

theorem ok_bind_of_eq {m : Except ε α} {a : α} (h : m = .ok a) (f : α → Except ε β) :
    (m >>= f) = f a := by
  rw [h]
  rfl

theorem build_of_isLaidOut (hlaid : IsLaidOut specs) : ∃ ws, build surface specs vars = .ok ws := by
  have hrepeated : firstRepeated [] (specs.map (·.id)) = none :=
    (firstRepeated_eq_none_iff [] _).mpr ⟨hlaid.distinct, fun _ _ => not_mem_nil⟩
  have hlength : (specs.map (·.id)).length = specs.length := length_map _
  have hempty := noted_empty specs.length
  rw [← hlength] at hempty
  have hdone : ∃ acc, specs.foldlM (addBlock surface (specs.map (·.id)))
      (#[], Array.replicate (specs.map (·.id)).length none) = .ok acc :=
    addBlocks_ok [] specs hlaid rfl (describes_empty surface _) hempty
  obtain ⟨acc, hadd⟩ := hdone
  have hdescribes := addBlocks_describes (describes_empty surface _) hadd
  rw [nil_append] at hdescribes
  have hnoted := addBlocks_noted hempty hadd
  rw [hlength] at hadd
  let ws : Workspace := { blocks := acc.1, parents := acc.2, vars }
  have hparent : ∀ b x, ws.parent? x = some b → b < ws.size ∧
      Connects specs ((specs.map (·.id)).getD b "") ((specs.map (·.id)).getD x "") := by
    intro b x hx
    obtain ⟨block, hblock, hmem⟩ := hnoted.child x b hx
    obtain ⟨s, hs, hchildren⟩ := hdescribes.children hblock
    rw [hchildren] at hmem
    obtain ⟨id, hid, rfl⟩ := mem_map.mp hmem
    have hmem := mem_of_getElem? hs
    refine ⟨(Array.getElem?_eq_some_iff.mp hblock).1, s, hmem, ?_, ?_⟩
    · rw [getD_eq_getElem?_getD, getElem?_map, hs]
      rfl
    · rw [getD_eq_getElem?_getD, getElem?_idxOf (hlaid.known s hmem id hid)]
      exact hid
  have hacyclic : ∀ b, ¬ TransGen (fun y b => ws.parent? y = some b) b b := by
    intro b hring
    -- a block above itself would be connected to itself over others
    have hlift : ∀ {x a}, TransGen (fun y b => ws.parent? y = some b) x a →
        TransGen (Connects specs) ((specs.map (·.id)).getD a "")
          ((specs.map (·.id)).getD x "") := by
      intro x a hxa
      induction hxa with
      | single hx => exact TransGen.single (hparent _ _ hx).2
      | tail _ hlast ih => exact TransGen.head (hparent _ _ hlast).2 ih
    exact hlaid.acyclic _ (hlift hring)
  have hends : ws.refs.find? (fun b => !ws.endsAbove ws.size b) = none := by
    rw [find?_eq_none]
    intro x _
    rw [endsAbove_of_acyclic hacyclic (fun b x hx => (hparent b x hx).1) ws.size x
      (card_strictlyAbove_le x)]
    simp
  refine ⟨ws, ?_⟩
  unfold build
  dsimp only
  rw [hrepeated]
  dsimp only
  rw [ok_bind_of_eq hadd]
  split
  · next b hb => exact absurd (hb.symm.trans hends) (by simp)
  · rfl

/-- Building accepts exactly what is laid out. -/
theorem build_ok_iff : (∃ ws, build surface specs vars = .ok ws) ↔ IsLaidOut specs :=
  ⟨fun ⟨_, h⟩ => isLaidOut_of_build h, build_of_isLaidOut⟩

end Building

end Workspace

end BlockProgram
