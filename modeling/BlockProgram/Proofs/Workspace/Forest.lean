import BlockProgram.Workspace.Build
import Mathlib.Data.List.Nodup
import Mathlib.Data.Nat.Find
import Mathlib.Logic.Relation

/-!
# Workspaces are forests

In a forest every block is a child of its parent and of no other block, and climbing from parent to
parent comes to an end. So the blocks below two different children of a block, or below two top
blocks, are different ones. Every workspace that is built from specifications is a forest
(`build_isForest`).
-/

namespace BlockProgram

open List Relation

variable {owner : String} {surface : Surface} {ws : Workspace} {ids : List String}
  {x b t a n : BlockRef}

/-- Every block is a child of its parent and of nothing else, and no block is above itself. -/
structure Workspace.IsForest (ws : Workspace) : Prop where
  parent_eq : ∀ b x, x ∈ ws.children b → ws.parent? x = some b
  nodup : ∀ b, (ws.children b).Nodup
  ranked : ∃ depth : BlockRef → Nat, ∀ b x, ws.parent? x = some b → depth b < depth x

/-- Block `x` is block `a` or somewhere below it. -/
def Workspace.Under (ws : Workspace) (a x : BlockRef) : Prop :=
  Relation.ReflTransGen (fun y b => ws.parent? y = some b) x a

/-- Block `x` is block `b` or below one of its inputs. -/
def Workspace.Within (ws : Workspace) (b x : BlockRef) : Prop :=
  x = b ∨ ∃ t ∈ (ws.block b).targets, ws.Under t x

namespace Workspace

theorem Under.depth_le {depth : BlockRef → Nat}
    (hdepth : ∀ b x, ws.parent? x = some b → depth b < depth x)
    (h : ws.Under a x) : depth a ≤ depth x := by
  induction h with
  | refl => exact le_rfl
  | tail _ hlast ih => exact le_trans (le_of_lt (hdepth _ _ hlast)) ih

/-- Of two blocks above a third, one is above the other. -/
theorem Under.total {a' : BlockRef} (h : ws.Under a x) (h' : ws.Under a' x) :
    ws.Under a' a ∨ ws.Under a a' := by
  refine ReflTransGen.total_of_right_unique ?_ h h'
  intro y b b' hb hb'
  exact Option.some.inj (hb.symm.trans hb')

theorem Under.trans (hab : ws.Under a b) (hbx : ws.Under b x) : ws.Under a x :=
  ReflTransGen.trans hbx hab

/-- Blocks whose parents are not below each other have nothing below them in common unless they are
one. -/
theorem eq_of_under {u : BlockRef} (ht : ∀ b, ws.parent? t = some b → ¬ ws.Under u b)
    (hu : ∀ b, ws.parent? u = some b → ¬ ws.Under t b) (h : ws.Under t x) (h' : ws.Under u x) :
    t = u := by
  rcases h.total h' with hpath | hpath
  · rcases ReflTransGen.cases_head hpath with rfl | ⟨b, hb, hpath⟩
    · rfl
    · exact absurd hpath (ht b hb)
  · rcases ReflTransGen.cases_head hpath with rfl | ⟨b, hb, hpath⟩
    · rfl
    · exact absurd hpath (hu b hb)

theorem eq_of_under_of_top {u : BlockRef} (ht : ws.parent? t = none) (hu : ws.parent? u = none)
    (h : ws.Under t x) (h' : ws.Under u x) : t = u := by
  refine eq_of_under ?_ ?_ h h'
  · rw [ht]
    nofun
  · rw [hu]
    nofun

theorem next_mem_children (hn : (ws.block b).next = some n) : n ∈ ws.children b := by
  unfold children
  rw [hn]
  exact mem_append_right _ (.head _)

variable (hws : ws.IsForest)

include hws

/-- A block is not below its child. -/
theorem not_under_of_parent (ht : ws.parent? t = some b) : ¬ ws.Under t b := by
  intro h
  obtain ⟨depth, hdepth⟩ := hws.ranked
  have hle := h.depth_le hdepth
  have hlt := hdepth b t ht
  omega

/-- Different children of a block have nothing below them in common. -/
theorem eq_of_under_of_sibling {u : BlockRef} (ht : ws.parent? t = some b)
    (hu : ws.parent? u = some b) (h : ws.Under t x) (h' : ws.Under u x) : t = u := by
  refine eq_of_under ?_ ?_ h h'
  · rintro y hy
    cases ht.symm.trans hy
    exact not_under_of_parent hws hu
  · rintro y hy
    cases hu.symm.trans hy
    exact not_under_of_parent hws ht

theorem under_of_child (ht : t ∈ ws.children b) : ws.Under b t :=
  .single (hws.parent_eq b t ht)

theorem Within.under {b x : BlockRef} (h : ws.Within b x) : ws.Under b x := by
  rcases h with rfl | ⟨t, ht, hx⟩
  · exact .refl
  · exact (under_of_child hws (mem_append_left _ ht)).trans hx

theorem under_of_next (hn : (ws.block b).next = some n) : ws.Under b n :=
  under_of_child hws (next_mem_children hn)

/-- What is plugged into different inputs of a block has nothing below it in common. -/
theorem pairwise_targets (b : BlockRef) :
    (ws.block b).targets.Pairwise fun t u => ∀ x, ws.Under t x → ¬ ws.Under u x := by
  have hnodup : (ws.block b).targets.Nodup := (nodup_append.mp (hws.nodup b)).1
  refine List.Pairwise.imp_of_mem ?_ hnodup
  intro t u ht hu htu x hxt hxu
  apply htu
  exact eq_of_under_of_sibling hws (hws.parent_eq b t (mem_append_left _ ht))
    (hws.parent_eq b u (mem_append_left _ hu)) hxt hxu

/-- What follows a statement is not within it. -/
theorem not_within_of_next (hn : (ws.block b).next = some n)
    (hx : ws.Under n x) : ¬ ws.Within b x := by
  have hparent := hws.parent_eq b n (next_mem_children hn)
  rintro (rfl | ⟨t, ht, hxt⟩)
  · exact not_under_of_parent hws hparent hx
  · have htparent := hws.parent_eq b t (mem_append_left _ ht)
    have htn := eq_of_under_of_sibling hws htparent hparent hxt hx
    have hnodup := hws.nodup b
    unfold children at hnodup
    rw [hn] at hnodup
    exact disjoint_of_nodup_append hnodup ht (htn ▸ (.head _))

end Workspace

/-! ## Building -/

namespace Workspace

theorem ok_of_bind {ε α β : Type} {m : Except ε α} {f : α → Except ε β} {b : β}
    (h : (m >>= f) = .ok b) : ∃ a, m = .ok a ∧ f a = .ok b := by
  cases m with
  | error e => cases h
  | ok a => exact ⟨a, rfl, h⟩

theorem ok_of_mapM {ε α β : Type} {f : α → Except ε β} {l : List α} {r : List β}
    (h : l.mapM f = .ok r) :
    (∀ a ∈ l, ∃ b, f a = .ok b) ∧ ∀ b ∈ r, ∃ a, f a = .ok b := by
  induction l generalizing r with
  | nil =>
    cases h
    exact ⟨nofun, nofun⟩
  | cons a l ih =>
    rw [mapM_cons] at h
    obtain ⟨y, hy, h⟩ := ok_of_bind h
    obtain ⟨ys, hys, h⟩ := ok_of_bind h
    cases h
    exact ⟨forall_mem_cons.mpr ⟨⟨y, hy⟩, (ih hys).1⟩, forall_mem_cons.mpr ⟨⟨a, hy⟩, (ih hys).2⟩⟩

/-- References lead to blocks of the workspace. -/
theorem resolveRef?_lt {id : Option String}
    (h : resolveRef? ids owner id = .ok (some x)) : x < ids.length := by
  cases id with
  | none => cases h
  | some id =>
    unfold resolveRef? resolveRef at h
    dsimp only at h
    cases hi : ids.idxOf? id with
    | none =>
      rw [hi] at h
      cases h
    | some y =>
      rw [hi] at h
      cases h
      rw [idxOf?_eq_some_iff] at hi
      exact hi.1

theorem childrenOf_lt {spec : BlockSpec} {b : Block} (h : resolveBlock surface ids spec = .ok b)
    (hx : x ∈ childrenOf b) : x < ids.length := by
  unfold resolveBlock at h
  obtain ⟨inputs, hinputs, h⟩ := ok_of_bind h
  obtain ⟨next, hnext, h⟩ := ok_of_bind h
  cases h
  rcases mem_append.mp hx with hx | hx
  · obtain ⟨i, hi, ht⟩ := mem_filterMap.mp hx
    obtain ⟨spec, hspec⟩ := (ok_of_mapM hinputs).2 i hi
    unfold resolveInput at hspec
    obtain ⟨target, htarget, hspec⟩ := ok_of_bind hspec
    cases hspec
    rw [show target = some x from ht] at htarget
    exact resolveRef?_lt htarget
  · rw [show next = some x from Option.mem_toList.mp hx] at hnext
    exact resolveRef?_lt hnext

def noted (parents : Array (Option BlockRef)) (x : BlockRef) : Option BlockRef :=
  (parents[x]?).join

/-- A block that becomes the parent of others takes no block from another parent, and none twice. -/
structure Adopted (position : BlockRef) (children : List BlockRef)
    (before after : Array (Option BlockRef)) : Prop where
  size_eq : after.size = before.size
  kept : ∀ x b, noted before x = some b → noted after x = some b
  adopted : ∀ x ∈ children, noted after x = some position
  nodup : children.Nodup
  free : ∀ x ∈ children, noted before x = none

theorem adopt_adopted {position : BlockRef} {parents parents' : Array (Option BlockRef)}
    (hx : x < parents.size) (h : adopt owner position parents x = .ok parents') :
    Adopted position [x] parents parents' := by
  unfold adopt at h
  split at h
  · cases h
  · split at h
    · cases h
    · next hfree =>
      cases h
      have hnone : noted parents x = none := Option.not_isSome_iff_eq_none.mp hfree
      have hset : ∀ y, noted (parents.setIfInBounds x (some position)) y =
          if x = y then some position else noted parents y := by
        intro y
        unfold noted
        rw [Array.getElem?_setIfInBounds]
        split
        · rfl
        · rfl
      refine ⟨by simp, ?_, ?_, nodup_singleton x, ?_⟩
      · intro y b hy
        rw [hset, if_neg]
        · exact hy
        · rintro rfl
          rw [hnone] at hy
          cases hy
      · intro y hy
        rw [mem_singleton.mp hy, hset, if_pos rfl]
      · intro y hy
        rw [mem_singleton.mp hy]
        exact hnone

theorem adoptAll_adopted {position : BlockRef} {children : List BlockRef}
    {parents parents' : Array (Option BlockRef)} (hlt : ∀ x ∈ children, x < parents.size)
    (h : children.foldlM (adopt owner position) parents = .ok parents') :
    Adopted position children parents parents' := by
  induction children generalizing parents with
  | nil =>
    cases h
    exact ⟨rfl, fun _ _ h => h, nofun, nodup_nil, nofun⟩
  | cons x r ih =>
    rw [foldlM_cons] at h
    obtain ⟨parents1, hfirst, h⟩ := ok_of_bind h
    have hone := adopt_adopted (hlt x (.head _)) hfirst
    have hrest := ih (fun y hy => by rw [hone.size_eq]; exact hlt y (.tail x hy)) h
    have hx := hone.adopted x (.head _)
    refine ⟨hrest.size_eq.trans hone.size_eq, ?_, ?_, ?_, ?_⟩
    · exact fun y b hy => hrest.kept y b (hone.kept y b hy)
    · intro y hy
      rcases mem_cons.mp hy with rfl | hy
      · exact hrest.kept y position hx
      · exact hrest.adopted y hy
    · refine nodup_cons.mpr ⟨?_, hrest.nodup⟩
      intro hxr
      rw [hrest.free x hxr] at hx
      cases hx
    · intro y hy
      rcases mem_cons.mp hy with rfl | hy
      · exact hone.free y (.head _)
      · cases hn : noted parents y with
        | none => rfl
        | some b =>
          have hkept := hone.kept y b hn
          rw [hrest.free y hy] at hkept
          cases hkept

/-- Blocks so far, each the noted parent of its children. -/
structure Linked (n : Nat) (acc : Array Block × Array (Option BlockRef)) : Prop where
  size_eq : acc.2.size = n
  nodup : ∀ (b : BlockRef) (block : Block), acc.1[b]? = some block → (childrenOf block).Nodup
  noted_eq : ∀ (b : BlockRef) (block : Block), acc.1[b]? = some block →
    ∀ x ∈ childrenOf block, noted acc.2 x = some b

theorem linked_empty (n : Nat) : Linked n (#[], Array.replicate n none) := by
  refine ⟨Array.size_replicate, ?_, ?_⟩
  · intro b block hb
    simp at hb
  · intro b block hb
    simp at hb

section Building

variable {spec : BlockSpec} {specs : List BlockSpec} {vars : List VariableModel}
  {acc acc' : Array Block × Array (Option BlockRef)}

theorem exists_of_addBlock (h : addBlock surface ids acc spec = .ok acc') :
    ∃ b parents, resolveBlock surface ids spec = .ok b ∧
      (childrenOf b).foldlM (adopt b.id acc.1.size) acc.2 = .ok parents ∧
      acc' = (acc.1.push b, parents) := by
  unfold addBlock at h
  obtain ⟨b, hb, h⟩ := ok_of_bind h
  obtain ⟨parents, hparents, h⟩ := ok_of_bind h
  cases h
  exact ⟨b, parents, hb, hparents, rfl⟩

/-- What adding one block keeps, adding all does. -/
theorem addBlocks_induction {J : List BlockSpec → Array Block × Array (Option BlockRef) → Prop}
    (hstep : ∀ done spec acc acc', J done acc → addBlock surface ids acc spec = .ok acc' →
      J (done ++ [spec]) acc') (done : List BlockSpec) (hacc : J done acc)
    (h : specs.foldlM (addBlock surface ids) acc = .ok acc') : J (done ++ specs) acc' := by
  induction specs generalizing done acc with
  | nil =>
    cases h
    rwa [append_nil]
  | cons spec r ih =>
    rw [foldlM_cons] at h
    obtain ⟨acc1, hfirst, h⟩ := ok_of_bind h
    have hrest := ih _ (hstep done spec acc acc1 hacc hfirst) h
    rwa [append_assoc, singleton_append] at hrest

/-- Building goes well if no id is repeated, all blocks are added and no block is above itself. -/
theorem exists_of_build (h : build surface specs vars = .ok ws) :
    firstRepeated [] (specs.map (·.id)) = none ∧
    specs.foldlM (addBlock surface (specs.map (·.id)))
      (#[], Array.replicate (specs.map (·.id)).length none) = .ok (ws.blocks, ws.parents) ∧
    ∀ b ∈ ws.refs, ws.endsAbove ws.size b = true := by
  unfold build at h
  dsimp only at h
  split at h
  · cases h
  next hrepeated =>
  obtain ⟨⟨blocks, parents⟩, hadd, h⟩ := ok_of_bind h
  dsimp only at h
  split at h
  · cases h
  next hends =>
  cases h
  refine ⟨hrepeated, by rwa [length_map], fun b hb => ?_⟩
  simpa using find?_eq_none.mp hends b hb

theorem addBlock_linked (hacc : Linked ids.length acc)
    (h : addBlock surface ids acc spec = .ok acc') :
    Linked ids.length acc' ∧ acc'.1.size = acc.1.size + 1 := by
  obtain ⟨b, parents, hb, hparents, rfl⟩ := exists_of_addBlock h
  have hlt : ∀ x ∈ childrenOf b, x < acc.2.size := by
    intro x hx
    rw [hacc.size_eq]
    exact childrenOf_lt hb hx
  have hadopted := adoptAll_adopted hlt hparents
  refine ⟨⟨hadopted.size_eq.trans hacc.size_eq, ?_, ?_⟩, Array.size_push _⟩
  · intro i block hi
    rw [Array.getElem?_push] at hi
    split at hi
    · cases hi
      exact hadopted.nodup
    · exact hacc.nodup i block hi
  · intro i block hi x hx
    rw [Array.getElem?_push] at hi
    split at hi
    · next hsize =>
      cases hi
      rw [hsize]
      exact hadopted.adopted x hx
    · exact hadopted.kept x i (hacc.noted_eq i block hi x hx)

theorem build_linked (h : build surface specs vars = .ok ws) :
    Linked specs.length (ws.blocks, ws.parents) ∧ ws.size = specs.length := by
  have h := addBlocks_induction (J := fun done acc => Linked _ acc ∧ acc.1.size = done.length)
    ?_ [] ⟨linked_empty _, rfl⟩ (exists_of_build h).2.1
  · rwa [length_map] at h
  · rintro done spec acc acc' ⟨hacc, hsize⟩ h
    refine (addBlock_linked hacc h).imp_right fun h => ?_
    rw [h, hsize, length_append, length_singleton]

/-- Climbing that ends everywhere gives every block a depth. -/
theorem ranked_of_endsAbove (h : ∀ b, ∃ fuel, ws.endsAbove fuel b = true) :
    ∃ depth : BlockRef → Nat, ∀ b x, ws.parent? x = some b → depth b < depth x := by
  refine ⟨fun b => Nat.find (h b), ?_⟩
  intro b x hx
  have hend := Nat.find_spec (h x)
  cases hdepth : Nat.find (h x) with
  | zero =>
    rw [hdepth] at hend
    unfold endsAbove at hend
    rw [hx] at hend
    cases hend
  | succ k =>
    rw [hdepth] at hend
    unfold endsAbove at hend
    rw [hx] at hend
    show Nat.find (h b) < Nat.find (h x)
    rw [hdepth]
    exact Nat.lt_succ_of_le (Nat.find_min' (h b) hend)

theorem Linked.isForest {n : Nat} (h : Linked n (ws.blocks, ws.parents)) (hsize : ws.size = n)
    (hends : ∀ b ∈ ws.refs, ws.endsAbove ws.size b = true) : ws.IsForest := by
  have hblock : ∀ b, ws.children b = [] ∨ ws.blocks[b]? = some (ws.block b) := by
    intro b
    unfold children block
    cases ws.blocks[b]? with
    | none => exact .inl rfl
    | some block => exact .inr rfl
  refine ⟨?_, ?_, ranked_of_endsAbove fun b => ⟨ws.size, ?_⟩⟩
  · intro b x hx
    rcases hblock b with hnone | hsome
    · rw [hnone] at hx
      cases hx
    · exact h.noted_eq b (ws.block b) hsome x hx
  · intro b
    rcases hblock b with hnone | hsome
    · rw [hnone]
      exact nodup_nil
    · exact h.nodup b (ws.block b) hsome
  · by_cases hb : b < ws.size
    · exact hends b (mem_range.mpr hb)
    · have hnone : ws.parent? b = none := by
        unfold parent?
        have hsizes : ws.parents.size ≤ b := by
          rw [show ws.parents.size = n from h.size_eq, ← hsize]
          exact Nat.le_of_not_lt hb
        rw [Array.getElem?_eq_none hsizes]
        rfl
      cases hs : ws.size with
      | zero => simp [endsAbove, hnone]
      | succ k => simp [endsAbove, hnone]

theorem build_isForest (h : build surface specs vars = .ok ws) : ws.IsForest :=
  (build_linked h).1.isForest (build_linked h).2 (exists_of_build h).2.2

end Building

end Workspace

end BlockProgram
