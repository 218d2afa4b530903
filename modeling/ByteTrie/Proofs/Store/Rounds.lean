import ByteTrie.Proofs.Trie.Search
import ByteTrie.Proofs.Trie.Sweep

/-!
# Loops over nodes

A walk, the loop behind its next step, a collection that goes into the branches one after
the other, and the work on a stack are told here as they go, with no bound on their
rounds, each with the nodes that it visits. In a sound store each of them ends. What it
visits is what is pending, listed in one order or another, so no node comes twice, and
the bounds in the definitions are never what ends a loop.
-/

namespace ByteTrie

variable {V : Type} {s : Store V} {id : NodeId}

namespace Traversal

variable {t t' : Traversal}

/-- The nodes that a step goes through within `steps` rounds, up to one that has a value. -/
def sought (s : Store V) (t : Traversal) : Nat → List NodeId
  | 0 => []
  | steps + 1 =>
      match t.visit s with
      | some (id, t) => if (s.node id).value.isSome then [id] else id :: t.sought s steps
      | none => []

/-- The nodes that the next step goes through. -/
def visited (s : Store V) (t : Traversal) : List NodeId := t.sought s (s.nodes.size + 1)

/-- A step goes through some nodes, up to one that has a value or to the end. -/
inductive Seeks (s : Store V) : Traversal → List NodeId → Option NodeId → Traversal → Prop
  | ended {t : Traversal} (last : t.visit s = none) : Seeks s t [] none done
  | found {t t' : Traversal} {id : NodeId} (next : t.visit s = some (id, t'))
      (held : (s.node id).value.isSome) : Seeks s t [id] (some id) t'
  | passes {t t' behind : Traversal} {id : NodeId} {visited : List NodeId} {found : Option NodeId}
      (next : t.visit s = some (id, t')) (bare : (s.node id).value = none)
      (later : Seeks s t' visited found behind) : Seeks s t (id :: visited) found behind

/-- A step that takes one thing out, or finds none. -/
def stepOf {β : Type} (step : Traversal → Option β × Traversal) (t : Traversal) :
    Option (β × Traversal) :=
  (step t).1.map fun taken => (taken, (step t).2)

/-- A traversal comes to its end: node by node, and entry by entry with every step behind
an entry ending too. -/
structure Ends (s : Store V) (t : Traversal) : Prop where
  walk : Exhausts (visit s) t (t.ahead s)
  nodup : (t.ahead s).Nodup
  step : t.Seeks s (t.visited s) (t.nextNode s).1 (t.nextNode s).2
  drain : Exhausts (stepOf (next s)) t (t.items s)
  drainValues : Exhausts (stepOf (nextValue s)) t (t.values s)

namespace Sound

theorem exhausts_visit (h : t.Sound s) (hs : s.Sound) : Exhausts (visit s) t (t.listing s) := by
  induction hlisting : t.listing s generalizing t with
  | nil =>
    rcases h.listing_cases hs with ⟨hvisit, -⟩ | ⟨_, id, _, t', -, -, -, -, hcons⟩
    · exact .ended hvisit
    · cases hlisting.symm.trans hcons
  | cons id later ih =>
    rcases h.listing_cases hs with ⟨-, hnil⟩ | ⟨_, id', _, t', hvisit, -, hsound, -, hcons⟩
    · cases hlisting.symm.trans hnil
    · obtain ⟨rfl, rfl⟩ := List.cons.inj (hlisting.symm.trans hcons)
      exact .goes hvisit (ih hsound rfl)

theorem seeks_sought (h : t.Sound s) (hs : s.Sound) {steps : Nat}
    (hsteps : (t.listing s).length < steps) :
    t.Seeks s (t.sought s steps) (t.seek s steps).1 (t.seek s steps).2 := by
  induction steps generalizing t with
  | zero => exact absurd hsteps (Nat.not_lt_zero _)
  | succ steps ih =>
    rw [sought, seek]
    rcases h.listing_cases hs with ⟨hvisit, -⟩ | ⟨_, id, _, t', hvisit, -, hsound, -, hcons⟩
    · simp only [hvisit]
      exact .ended hvisit
    · simp only [hvisit]
      cases hvalue : (s.node id).value with
      | some value => exact .found hvisit (by rw [hvalue]; rfl)
      | none =>
        rw [hcons, List.length_cons] at hsteps
        exact .passes hvisit hvalue (ih hsound (Nat.lt_of_succ_lt_succ hsteps))

theorem seeks (h : t.Sound s) (hs : s.Sound) :
    t.Seeks s (t.visited s) (t.nextNode s).1 (t.nextNode s).2 :=
  h.seeks_sought hs (Nat.lt_succ_of_le (h.length_listing_le hs))

/-- Steps that take the first entry each time, or what there is of it to take, take all. -/
theorem exhausts_stepOf (h : t.Sound s) (hs : s.Sound) {β : Type}
    {step : Traversal → Option β × Traversal} {f : Key × V → β}
    (hstep : ∀ t : Traversal, t.Sound s → step t = ((t.rest s).head?.map f, (t.nextNode s).2)) :
    Exhausts (stepOf step) t ((t.rest s).map f) := by
  induction hrest : t.rest s generalizing t with
  | nil => exact .ended (by rw [stepOf, hstep t h, hrest]; rfl)
  | cons item items ih =>
    have hnext := h.nextNode_advances hs
    refine .goes (by rw [stepOf, hstep t h, hrest]; rfl) (ih hnext.sound ?_)
    rw [hnext.rest, hrest, List.tail_cons]

theorem ends (h : t.Sound s) (hs : s.Sound) : t.Ends s where
  walk := h.ahead_eq hs ▸ h.exhausts_visit hs
  nodup := h.ahead_eq hs ▸ Store.nodup_of_ascending (h.pairwise_listing hs)
  step := h.seeks hs
  drain := by
    have hdrain : Exhausts (stepOf (next s)) t ((t.rest s).map fun item => item) :=
      h.exhausts_stepOf hs fun t ht => by rw [ht.next_eq hs, Option.map_id']
    rwa [List.map_id', ← h.items_eq hs] at hdrain
  drainValues := by
    rw [values_eq, h.items_eq hs]
    exact h.exhausts_stepOf hs fun t ht => ht.nextValue_eq hs

end Sound

/-- A node that was entered was the first of what was to come, and all that is left comes
behind it. -/
theorem Sound.of_visit_listing (h : t.Sound s) (hs : s.Sound) (hvisit : t.visit s = some (id, t')) :
    t.listing s = id :: t'.listing s ∧
      (∀ P : Key → Prop, (∀ a b, a <+: b → P a → P b) → t.Bounded s P → t'.Bounded s P) ∧
      t'.Bounded s (s.key id < ·) := by
  rcases h.listing_cases hs with ⟨hnone, -⟩ |
    ⟨anchor, id', later, behind, hvisit', hpending, -, hafter, hcons⟩
  · cases hvisit.symm.trans hnone
  obtain ⟨rfl, rfl⟩ := Prod.mk.inj (Option.some.inj (hvisit.symm.trans hvisit'))
  obtain ⟨hid, hanchor⟩ := h.has_of_mem_pending hs (hpending ▸ List.mem_cons_self)
  refine ⟨hcons, bounded_behind hs hid hanchor hpending hafter, ?_⟩
  rw [Bounded, hafter]
  exact (ordered_behind hs hid hanchor (hpending ▸ h.ordered)).2

/-- What a step has gone through was the first of what was to come, and all that is left
comes behind it. -/
theorem Seeks.listing_eq {found : Option NodeId} {visited : List NodeId}
    (hseeks : t.Seeks s visited found t') (h : t.Sound s) (hs : s.Sound) :
    t.listing s = visited ++ t'.listing s ∧
      (∀ P : Key → Prop, (∀ a b, a <+: b → P a → P b) → t.Bounded s P → t'.Bounded s P) ∧
      ∀ id ∈ visited, t'.Bounded s (s.key id < ·) := by
  induction hseeks with
  | @ended t last =>
    rcases h.listing_cases hs with ⟨-, hnil⟩ | ⟨_, id, _, t', hvisit, -⟩
    · exact ⟨hnil, fun P _ _ => bounded_done P, by simp⟩
    · cases last.symm.trans hvisit
  | @found t t' id next held =>
    obtain ⟨hcons, hbounded, hbehind⟩ := h.of_visit_listing hs next
    exact ⟨hcons, hbounded, by simpa using hbehind⟩
  | @passes t t' behind id visited found next bare later ih =>
    obtain ⟨hcons, hbounded, hbehind⟩ := h.of_visit_listing hs next
    obtain ⟨hlisting, hbounded', hall⟩ := ih (h.of_visit hs next).1
    refine ⟨by rw [hcons, hlisting]; rfl, fun P hP ht => hbounded' P hP (hbounded P hP ht), ?_⟩
    refine List.forall_mem_cons.mpr ⟨hbounded' _ ?_ hbehind, hall⟩
    exact fun _ _ hprefix hlt => Key.lt_of_lt_of_isPrefix hlt hprefix

end Traversal

namespace Store

/-- Going into a node, and from there into each of its branches, goes through these. -/
inductive Collects (s : Store V) : NodeId → List NodeId → Prop
  | node {id : NodeId} {visited : List (List NodeId)}
      (branches : List.Forall₂ (Collects s) (s.children id) visited) :
      Collects s id (id :: visited.flatten)

/-- A collection from a node comes to its end, and is what the node lists. -/
structure CollectionEnds (s : Store V) (id : NodeId) : Prop where
  walk : s.Collects id (s.nodesBelow id)
  nodup : (s.nodesBelow id).Nodup
  items : s.itemsBelow id = (s.nodesBelow id).filterMap fun id => (s.node id).item?
  values : s.valuesBelow id = (s.nodesBelow id).filterMap fun id => (s.node id).value

namespace Sound

theorem collects (h : s.Sound) (hid : s.Has id) : s.Collects id (s.nodesBelow id) := by
  induction id, hid using h.induction with
  | step id hid ih =>
    rw [h.nodesBelow_eq hid, List.flatMap_def]
    refine .node (List.forall₂_map_right_iff.mpr (List.forall₂_same.mpr ih))

theorem collectionEnds (h : s.Sound) (hid : s.Has id) : s.CollectionEnds id where
  walk := h.collects hid
  nodup := h.nodup_nodesBelow hid
  items := s.itemsBelow_eq_filterMap id
  values := by
    rw [valuesBelow, nodesBelow, List.filterMap_map]
    rfl

end Sound

end Store

/-- A sweep comes to its end, and counts each node once. -/
structure Trie.SweepEnds (t : Trie V) (visited : List (NodeId × Nat)) : Prop where
  walk : Exhausts (Census.unstack t.store) [(t.store.root, 1)] visited
  nodup : (visited.map Prod.fst).Nodup
  sweep : t.sweep = Census.zero.addNodes t.store visited

theorem Trie.exists_sweepEnds {t : Trie V} (h : t.store.Sound) : ∃ visited, t.SweepEnds visited := by
  have hpending : t.store.pending [(t.store.root, 1)] = t.store.preorder t.store.root :=
    List.flatMap_singleton _ _
  have hstack : ∀ node ∈ [(t.store.root, 1)], t.store.Has node.1 := by simpa using h.has_root
  obtain ⟨visited, hwalk, hperm⟩ := Census.exhausts_unstack h hstack
  rw [hpending] at hperm
  refine ⟨visited, hwalk, (hperm.map Prod.fst).nodup_iff.mpr (h.nodup_nodesBelow h.has_root), ?_⟩
  exact Census.drain_of_exhausts hwalk (hperm.length_eq.trans_le h.length_preorder_root_le) _

end ByteTrie
