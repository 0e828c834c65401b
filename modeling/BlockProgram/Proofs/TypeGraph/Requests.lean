import BlockProgram.Proofs.TypeGraph.Termination

/-!
# Every request to a type graph ends

Whatever was asked of a type graph before (`InUse`), overwritten types included, its links lead to
roots, and every further request about nodes that exist ends: run against a clock it gives the
answer and the graph that the bounded operations give, and the time it needs depends on the number
of nodes alone (`request_ends`). This holds on graphs whose lists and elements form rings.
-/

namespace BlockProgram.TypeGraph

variable {g h : TypeGraph}

/-! ## Lists and elements -/

section Recording

variable {clock : Nat}

theorem endsUnify_recordElement (hg : g.WellFormed) (hclock : ticks g.size < clock) (p c : NodeId)
    (hc : c < g.size) : EndsUnify (Clocked.recordElement clock p c) (recordElement p c) g := by
  unfold Clocked.recordElement recordElement
  refine .bind_get ?_
  cases hk : (g.node p).element with
  | some known => exact endsUnify_union hg hclock known c (hg.element_lt p known hk) hc
  | none =>
    show EndsUnify (ite _ _ _) (ite _ _ _) g
    split
    · exact EndsUnify.of_set _
    · exact .pure ()

theorem endsUnify_recordContainer (hg : g.WellFormed) (hclock : ticks g.size < clock)
    (p c : NodeId) (hp : p < g.size) :
    EndsUnify (Clocked.recordContainer clock p c) (recordContainer p c) g := by
  unfold Clocked.recordContainer recordContainer
  refine .bind_get ?_
  cases hk : (g.node c).container with
  | some known => exact endsUnify_union hg hclock known p (hg.container_lt c known hk) hp
  | none =>
    show EndsUnify (ite _ _ _) (ite _ _ _) g
    split
    · exact EndsUnify.of_set _
    · exact .pure ()

theorem moves_recordAt_size (s : Slot) (room : Option TypeName → Bool) (hg : g.WellFormed)
    (i x : NodeId) : Moves SameSize (recordAt s room i x) g (fun _ _ => True) := by
  unfold recordAt
  refine .bind_get ?_
  split
  · exact moves_union_size hg _ x
  · split
    · exact Moves.of_set _ (size_update g i _) trivial
    · exact .pure () trivial

theorem lt_of_ticks_lt {n : Nat} (h : ticks n < clock) : n < clock := by
  unfold ticks at h
  omega

theorem endsUnify_linkElement (hg : g.WellFormed) (hclock : ticks g.size < clock) (l e : NodeId)
    (hl : l < g.size) (he : e < g.size) :
    EndsUnify (Clocked.linkElement clock l e) (linkElement l e) g := by
  have hfind : ∀ k : TypeGraph, k.WellFormed → k.size = g.size → ∀ i,
      Ends (Clocked.find clock i) (find i) k := by
    intro k hk hs
    exact ends_find hk (by rw [hs]; exact lt_of_ticks_lt hclock)
  have hg1 := compress_wellFormed hg l
  have hs1 := compress_sameClasses hg l
  have hw : Walked g (find e (find l g).2).2 :=
    ⟨compress_wellFormed hg1 e, hs1.trans (compress_sameClasses hg1 e)⟩
  have hp : (find l g).1 = g.root l := rfl
  have hc : (find e (find l g).2).1 = g.root e := hs1.root_eq e
  unfold Clocked.linkElement linkElement
  refine .bind_lift (hfind g hg rfl l) ?_
  refine .bind_lift (hfind _ hg1 hs1.size_eq e) ?_
  rw [hp, hc]
  generalize (find e (find l g).2).2 = g2 at hw
  obtain ⟨hg2, hs2⟩ := hw
  have hsize2 := hs2.size_eq
  have hc2 : g.root e < g2.size := by
    rw [hsize2]
    exact root_lt hg e he
  split
  · exact .pure ()
  · refine .bind (endsUnify_recordElement hg2 (by rwa [hsize2]) _ _ hc2) ?_
    intro _ g3 hrun
    have hg3 := ((moves_recordAt .element _ hg2 _ _ hc2).of_ok hrun).1.wellFormed hg2
    have hsize3 : g3.size = g.size :=
      ((moves_recordAt_size .element _ hg2 _ _).of_ok hrun).1.trans hsize2
    have hg4 := compress_wellFormed hg3 (g.root l)
    have hs4 := compress_sameClasses hg3 (g.root l)
    have hg5 := compress_wellFormed hg4 (g.root e)
    have hs5 := hs4.trans (compress_sameClasses hg4 (g.root e))
    have hsize5 := hs5.size_eq.trans hsize3
    refine .bind_lift (hfind g3 hg3 hsize3 _) ?_
    refine .bind_lift (hfind _ hg4 (hs4.size_eq.trans hsize3) _) ?_
    have hp5 : g3.root (g.root l) < ((g3.compress (g.root l)).compress (g.root e)).size := by
      rw [hs5.size_eq]
      exact root_lt hg3 _ (by rw [hsize3]; exact root_lt hg l hl)
    refine .bind (endsUnify_recordContainer hg5 (by rwa [hsize5]) _ _ hp5) ?_
    intro _ g6 hrun
    have hg6 := ((moves_recordAt .container _ hg5 _ _ hp5).of_ok hrun).1.wellFormed hg5
    have hsize6 := ((moves_recordAt_size .container _ hg5 _ _).of_ok hrun).1.trans hsize5
    refine .bind_lift (hfind g6 hg6 hsize6 _) ?_
    exact EndsUnify.step _

end Recording

/-! ## Resolution -/

theorem ends_resolveRecorded {search : List NodeId → NodeId → SearchM (NodeId × List NodeId)}
    {resolve : List NodeId → NodeId → GraphM (NodeId × List NodeId)} {visited : List NodeId}
    (readType : TypeGraph → NodeId → Option TypeName) (x : Option NodeId)
    (hresolve : ∀ i, x = some i → Ends (search visited i) (resolve visited i) g) :
    Ends (Clocked.resolveRecorded search readType visited x)
      (resolveRecorded resolve readType visited x) g := by
  unfold Clocked.resolveRecorded resolveRecorded
  cases x with
  | none => exact .pure _
  | some i =>
    refine .bind (hresolve i rfl) ?_
    exact .bind_get (.pure _)

/-- Settling a class ends if the resolutions nested in it do. -/
theorem ends_settle {search : List NodeId → NodeId → SearchM (NodeId × List NodeId)} {fuel : Nat}
    {visited : List NodeId} (t : NodeId) (hg : g.WellFormed) (hv : NodesBelow g.size visited)
    (hfuel : g.size < fuel + visited.length)
    (hsearch : ∀ k visited i, k.WellFormed → k.size = g.size → i < k.size →
      NodesBelow k.size visited → k.size < fuel + visited.length →
      Ends (search visited i) (resolveFrom fuel visited i) k) :
    Ends (Clocked.settle search visited t) (settle (resolveFrom fuel) visited t) g := by
  unfold Clocked.settle settle
  refine .bind_get ?_
  have hends := ends_resolveRecorded elementTypeAt (g.node t).container
    (fun i hi => hsearch g visited i hg rfl (hg.container_lt t i hi) hv hfuel)
  refine .bind hends ?_
  obtain ⟨hr1, hmore⟩ := runs_resolveRecorded _ (resolver_resolveFrom fuel) elementTypeAt visited
    (g.node t).container hg (hg.container_lt t)
  generalize resolveRecorded (resolveFrom fuel) elementTypeAt visited (g.node t).container g = r
    at hr1 hmore ⊢
  obtain ⟨⟨type1, visited1⟩, g1⟩ := r
  cases type1 with
  | some type => rfl
  | none =>
    have hg1 : g1.WellFormed := hr1.changes.wellFormed hg
    have hs1 : g1.size = g.size := hr1.size_eq
    have hv1 : NodesBelow g1.size visited1 := hs1 ▸ hmore.below hv
    have hfuel1 : g1.size < fuel + visited1.length := by
      have hl1 : visited.length ≤ visited1.length := (hv.nodup.subperm hmore.subset).length_le
      omega
    refine .bind_get ?_
    refine .bind (ends_resolveRecorded listTypeAt (g1.node t).element
      (fun i hi => hsearch g1 visited1 i hg1 hs1 (hg1.element_lt t i hi) hv1 hfuel1)) ?_
    generalize resolveRecorded (resolveFrom fuel) listTypeAt visited1 (g1.node t).element g1 = r
    obtain ⟨⟨type2, visited2⟩, g2⟩ := r
    cases type2 with
    | some type => rfl
    | none => rfl

/-- A resolution ends: each level visits a new class. -/
theorem ends_resolveFrom (fuel clock : Nat) (g : TypeGraph) (hclock : g.size + fuel < clock)
    (visited : List NodeId) (i : NodeId) (hg : g.WellFormed) (hi : i < g.size)
    (hv : NodesBelow g.size visited) (hfuel : g.size < fuel + visited.length) :
    Ends (Clocked.resolveFrom clock visited i) (resolveFrom fuel visited i) g := by
  obtain _ | clock := clock
  · omega
  induction fuel generalizing g visited i clock with
  | zero =>
    have := hv.length_le
    omega
  | succ fuel ih =>
    obtain _ | clock := clock
    · omega
    have hh := compress_wellFormed hg i
    have hs := (compress_sameClasses hg i).size_eq
    have hroot : (find i g).1 = g.root i := rfl
    have hgraph : (find i g).2 = g.compress i := rfl
    unfold Clocked.resolveFrom resolveFrom
    refine .bind (ends_find hg (by omega) i) ?_
    rw [hroot, hgraph]
    split
    · exact .pure _
    · next hnot =>
      have hcons : NodesBelow (g.compress i).size (g.root i :: visited) := by
        rw [hs]
        exact hv.cons (root_lt hg i hi) hnot
      refine .bind_get ?_
      split
      · refine .bind (ends_settle _ hh hcons ?_ ?_) (.pure _)
        · rw [hs, List.length_cons]
          omega
        · intro k visited' j hk hks hj hv' hfuel'
          exact ih k visited' j hk hj hv' hfuel' clock (by omega)
      · exact .pure _

theorem ends_resolve {clock : Nat} (hg : g.WellFormed) (hclock : ticks g.size < clock) (i : NodeId)
    (hi : i < g.size) : Ends (Clocked.resolve clock i) (resolve i) g := by
  unfold ticks at hclock
  have hnil : NodesBelow g.size [] := ⟨List.nodup_nil, fun _ h => by cases h⟩
  have hends := ends_resolveFrom (g.size + 1) clock g (by nlinarith) [] i hg hi hnil (by simp)
  unfold Clocked.resolve resolve
  refine Ends.of_get ?_
  exact .bind hends (.pure _)

/-! ## Finding again -/

theorem compress_of_isRoot (r : NodeId) (hr : g.IsRoot r) : g.compress r = g := by
  unfold compress
  cases g.size with
  | zero => rfl
  | succ n =>
    unfold compressFrom
    rw [hr]

theorem update_eq_self (i : NodeId) (f : Node → Node) (hf : f (g.node i) = g.node i) :
    g.update i f = g := by
  unfold update
  congr 1
  apply Array.ext
  · simp
  · intro j hj hj'
    rw [Array.getElem_modify]
    split
    · next hij =>
      subst hij
      have hnode : g.node i = g.nodes[i] := by
        unfold node
        rw [Array.getElem?_eq_getElem hj']
        rfl
      rwa [hnode] at hf
    · rfl

theorem link_compressFrom (r x : NodeId) (fuel : Nat) (g : TypeGraph) (i : NodeId)
    (hx : (g.node x).link = some r) : ((compressFrom r fuel g i).node x).link = some r := by
  induction fuel generalizing g i with
  | zero => exact hx
  | succ fuel ih =>
    unfold compressFrom
    cases (g.node i).link with
    | none => exact hx
    | some j =>
      refine ih _ j ?_
      rw [node_update]
      split
      · rfl
      · exact hx

/-- A way that is compressed is not changed by compressing it again. -/
theorem compress_compress (hg : g.WellFormed) (i : NodeId) :
    (g.compress i).compress i = g.compress i := by
  have hh := compress_wellFormed hg i
  have hs := compress_sameClasses hg i
  by_cases hroot : g.IsRoot i
  · rw [compress_of_isRoot i hroot, compress_of_isRoot i hroot]
  · obtain ⟨j, hj⟩ := Option.ne_none_iff_exists'.mp hroot
    have hi := lt_size_of_link g i j hj
    obtain ⟨n, hn⟩ := Nat.exists_eq_succ_of_ne_zero (ne_of_gt (Nat.zero_lt_of_lt hi))
    -- the first thing that compression does is to link `i`
    have hlink : ((g.compress i).node i).link = some (g.root i) := by
      unfold compress
      rw [hn]
      unfold compressFrom
      rw [hj]
      exact link_compressFrom _ i n _ j (by rw [node_update_self g i _ hi])
    have hsame : (g.compress i).update i ({ · with link := some (g.root i) }) = g.compress i := by
      refine update_eq_self i _ ?_
      rw [← hlink]
    have hend : (g.compress i).IsRoot (g.root i) :=
      (hs.isRoot_iff hg hh _).mpr (isRoot_root hg i)
    show compressFrom ((g.compress i).root i) (g.compress i).size (g.compress i) i = g.compress i
    rw [hs.root_eq, hs.size_eq, hn]
    unfold compressFrom
    rw [hlink]
    show compressFrom (g.root i) n ((g.compress i).update i ({ · with link := some (g.root i) }))
      (g.root i) = g.compress i
    rw [hsame]
    cases n with
    | zero => rfl
    | succ n =>
      unfold compressFrom
      rw [hend]

theorem find_find (hg : g.WellFormed) (i : NodeId) : find i (find i g).2 = find i g := by
  show ((g.compress i).root i, (g.compress i).compress i) = (g.root i, g.compress i)
  rw [(compress_sameClasses hg i).root_eq, compress_compress hg]

theorem find_root (hg : g.WellFormed) (i : NodeId) : find (find i g).1 (find i g).2 = find i g := by
  have hs := compress_sameClasses hg i
  have hend : (g.compress i).IsRoot (g.root i) :=
    (hs.isRoot_iff hg (compress_wellFormed hg i) _).mpr (isRoot_root hg i)
  show ((g.compress i).root (g.root i), (g.compress i).compress (g.root i)) =
    (g.root i, g.compress i)
  rw [root_of_isRoot _ _ hend, compress_of_isRoot _ hend]

/-! ## Requests -/

/-- All that can be asked of a type graph. -/
inductive Request where
  | operation (op : Operation)
  | isArrayNode (i : NodeId)
  | setType (i : NodeId) (t : TypeName)

inductive Answer where
  | node (i : NodeId)
  | type (t : Option TypeName)
  | flag (b : Bool)
  | done
  | mismatch (e : Mismatch)

def Answer.ofExcept : Except Mismatch Unit → Answer
  | .ok () => done
  | .error e => mismatch e

namespace Request

def nodes : Request → List NodeId
  | operation op => op.nodes
  | isArrayNode i | setType i _ => [i]

/-- The answer to a request, and the graph after it. -/
def answer : Request → TypeGraph → Answer × TypeGraph
  | operation (.addNode type isArray), g =>
    Prod.map Answer.node id (TypeGraph.addNode type isArray g)
  | operation (.ground t), g => Prod.map Answer.node id (TypeGraph.ground t g)
  | operation (.find i), g => Prod.map Answer.node id (TypeGraph.find i g)
  | operation (.typeOf i), g => Prod.map Answer.type id (TypeGraph.typeOf i g)
  | operation (.union p q), g => Prod.map Answer.ofExcept id (outcome (TypeGraph.union p q g))
  | operation (.linkElement l e), g =>
    Prod.map Answer.ofExcept id (outcome (TypeGraph.linkElement l e g))
  | operation (.resolve i), g => Prod.map Answer.node id (TypeGraph.resolve i g)
  | isArrayNode i, g => Prod.map Answer.flag id (TypeGraph.isArrayNode i g)
  | setType i t, g => Prod.map (fun _ => Answer.done) id (TypeGraph.setType i t g)

/-- The answer that is found by the time that the clock runs out, if any. -/
def search (clock : Nat) : Request → TypeGraph → Option (Answer × TypeGraph)
  | operation (.addNode type isArray), g =>
    some (Prod.map Answer.node id (TypeGraph.addNode type isArray g))
  | operation (.ground t), g => some (Prod.map Answer.node id (TypeGraph.ground t g))
  | operation (.find i), g => (Clocked.find clock i g).map (Prod.map Answer.node id)
  | operation (.typeOf i), g => (Clocked.typeOf clock i g).map (Prod.map Answer.type id)
  | operation (.union p q), g => (Clocked.union clock p q g).map (Prod.map Answer.ofExcept id)
  | operation (.linkElement l e), g =>
    (Clocked.linkElement clock l e g).map (Prod.map Answer.ofExcept id)
  | operation (.resolve i), g => (Clocked.resolve clock i g).map (Prod.map Answer.node id)
  | isArrayNode i, g => (Clocked.isArrayNode clock i g).map (Prod.map Answer.flag id)
  | setType i t, g => (Clocked.setType clock i t g).map (Prod.map (fun _ => Answer.done) id)

end Request

section Searching

variable {clock : Nat}

theorem ends_typeOf (hg : g.WellFormed) (hclock : g.size < clock) (i : NodeId) :
    Ends (Clocked.typeOf clock i) (typeOf i) g :=
  .bind (ends_find hg hclock i) (.bind_get (.pure _))

theorem ends_isArrayNode (hg : g.WellFormed) (hclock : g.size < clock) (i : NodeId) :
    Ends (Clocked.isArrayNode clock i) (isArrayNode i) g :=
  .bind (ends_find hg hclock i) (.bind_get (.pure _))

theorem ends_setType (hg : g.WellFormed) (hclock : g.size < clock) (i : NodeId) (t : TypeName) :
    Ends (Clocked.setType clock i t) (setType i t) g :=
  .bind (ends_find hg hclock i) rfl

theorem Request.search_eq (req : Request) (hg : g.WellFormed)
    (hreq : ∀ i ∈ req.nodes, i < g.size) (hclock : ticks g.size < clock) :
    req.search clock g = some (req.answer g) := by
  have hmap : ∀ {α : Type} {x : Option (α × TypeGraph)} {r : α × TypeGraph} (f : α → Answer),
      x = some r → x.map (Prod.map f id) = some (Prod.map f id r) := by
    rintro α x r f rfl
    rfl
  have hsize := lt_of_ticks_lt hclock
  cases req with
  | isArrayNode i => exact hmap _ (ends_isArrayNode hg hsize i)
  | setType i t => exact hmap _ (ends_setType hg hsize i t)
  | operation op =>
    cases op with
    | addNode type isArray => rfl
    | ground t => rfl
    | find i => exact hmap _ (ends_find hg hsize i)
    | typeOf i => exact hmap _ (ends_typeOf hg hsize i)
    | union p q =>
      have hp := hreq p (by simp [nodes, Operation.nodes])
      have hq := hreq q (by simp [nodes, Operation.nodes])
      exact hmap _ (endsUnify_union hg hclock p q hp hq)
    | linkElement l e =>
      have hl := hreq l (by simp [nodes, Operation.nodes])
      have he := hreq e (by simp [nodes, Operation.nodes])
      exact hmap _ (endsUnify_linkElement hg hclock l e hl he)
    | resolve i =>
      have hi := hreq i (by simp [nodes, Operation.nodes])
      exact hmap _ (ends_resolve hg hclock i hi)

end Searching

theorem snd_outcome {α : Type} (r : EStateM.Result Mismatch TypeGraph α) :
    (outcome r).2 = finalGraph r := by
  cases r <;> rfl

theorem Request.answer_operation (op : Operation) (g : TypeGraph) :
    ((operation op).answer g).2 = op.apply g := by
  cases op with
  | union p q => exact snd_outcome _
  | linkElement l e => exact snd_outcome _
  | _ => rfl

/-- The graphs that come from the initial one by requests about nodes that exist. -/
inductive InUse : TypeGraph → Prop where
  | initial : InUse initial
  | step {g : TypeGraph} (req : Request) (hg : InUse g) (hreq : ∀ i ∈ req.nodes, i < g.size) :
      InUse (req.answer g).2

theorem Request.answer_wellFormed (req : Request) (hg : g.WellFormed)
    (hreq : ∀ i ∈ req.nodes, i < g.size) : (req.answer g).2.WellFormed := by
  cases req with
  | operation op =>
    rw [answer_operation]
    exact (op.changes hg hreq).wellFormed hg
  | isArrayNode i => exact compress_wellFormed hg i
  | setType i t =>
    exact update_wellFormed (compress_wellFormed hg i) _ _ (fun _ => rfl) (fun _ _ hj => .inl hj)
      (fun _ _ hj => .inl hj)

theorem InUse.wellFormed (hg : InUse g) : g.WellFormed := by
  induction hg with
  | initial => exact initial_wellFormed
  | step req _ hreq ih => exact req.answer_wellFormed ih hreq

theorem Reachable.inUse (hg : Reachable g) : InUse g := by
  induction hg with
  | initial => exact InUse.initial
  | step op _ hop ih =>
    rw [← Request.answer_operation]
    exact ih.step (.operation op) hop

/-- In every graph in use: what nodes record is in the graph; links lead to a node without link, and
that is what `find` returns; finding twice is finding once, and no root moves; and every request
about nodes that exist ends in time, with the answer and the graph that the bounded operations
give. -/
theorem request_ends (g : TypeGraph) (hg : InUse g) :
    (∀ i j, (g.node i).link = some j ∨ (g.node i).container = some j ∨
      (g.node i).element = some j → j < g.size) ∧
    (∀ i, ∃ k, g.IsRoot (g.next^[k] i) ∧ (find i g).1 = g.next^[k] i) ∧
    (∀ i, find (find i g).1 (find i g).2 = find i g ∧ find i (find i g).2 = find i g) ∧
    (∀ i j, (find j (find i g).2).1 = (find j g).1) ∧
    ∀ req : Request, (∀ i ∈ req.nodes, i < g.size) → ∀ clock, ticks g.size < clock →
      req.search clock g = some (req.answer g) := by
  have hw := hg.wellFormed
  refine ⟨?_, ?_, ?_, ?_, ?_⟩
  · rintro i j (hj | hj | hj)
    · exact hw.link_lt i j hj
    · exact hw.container_lt i j hj
    · exact hw.element_lt i j hj
  · intro i
    refine ⟨g.size, ?_, root_eq_iterate g i⟩
    rw [← root_eq_iterate]
    exact isRoot_root hw i
  · intro i
    exact ⟨find_root hw i, find_find hw i⟩
  · intro i j
    exact (compress_sameClasses hw i).root_eq j
  · intro req hreq clock hclock
    exact req.search_eq hw hreq hclock

/-- Where lists and elements form a ring, a union that fails half way ends. -/
theorem request_ends_tangled :
    ∃ h, (Request.operation (.union 4 6)).search 520 tangled =
      some (.mismatch ⟨TypeName.number, TypeName.text⟩, h) ∧ h.root 5 = 0 := by
  have hends := (request_ends tangled tangled_reachable.inUse).2.2.2.2
    (.operation (.union 4 6)) (by decide) 520 (by decide)
  exact ⟨_, hends, rfl⟩

end BlockProgram.TypeGraph
