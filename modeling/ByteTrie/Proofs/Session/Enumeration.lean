import ByteTrie.Proofs.Session.Operations

/-!
# Entries one by one and all at once

The entries at and below a node can be collected by going into its branches one
after the other, or by a traversal that starts there and keeps the rows that it
is in the middle of. Both ways list the same, in the same order, whether the root
still leads to the node or not, and so do the two ways to list the values.

A traversal can be left after any number of steps and taken on later: the steps
of both times together are those of a traversal that was never left.
-/

namespace ByteTrie

variable {V : Type} {s : Store V} {t : Traversal} {id : NodeId}

namespace Traversal

/-- What `count` steps take out of a traversal, and the traversal behind them; the
first step that finds nothing is the last. -/
def takeBy {β : Type} (step : Traversal → Option β × Traversal) (t : Traversal) :
    Nat → List β × Traversal
  | 0 => ([], t)
  | count + 1 =>
      match step t with
      | (none, t) => ([], t)
      | (some first, t) =>
          let (later, t) := t.takeBy step count
          (first :: later, t)

/-- Any number of steps take the first of some things out, as far as there are any, and
what they leave is taken out by later steps. -/
def Gives {β : Type} (step : Traversal → Option β × Traversal) (t : Traversal)
    (all : List β) : Prop :=
  ∀ count, ∃ behind, t.takeBy step count = (all.take count, behind) ∧
    ∀ more, (behind.takeBy step more).1 = (all.drop count).take more

/-- A traversal comes to some entries: at once, step by step, and with interruptions. -/
structure Enumerates (s : Store V) (t : Traversal) (all : List (Key × V)) : Prop where
  items : t.items s = all
  values : t.values s = all.map Prod.snd
  next : t.Gives (Traversal.next s) all
  nextValue : t.Gives (Traversal.nextValue s) (all.map Prod.snd)

/-- A step over values is one over entries. -/
theorem nextValue_eq_map (s : Store V) (t : Traversal) :
    t.nextValue s = ((t.next s).1.map Prod.snd, (t.next s).2) := by
  refine Prod.ext ?_ rfl
  change (t.nextNode s).1.bind _ = ((t.nextNode s).1.bind _).map Prod.snd
  rw [Option.map_bind]
  exact Option.bind_congr fun id _ => (Node.map_snd_item? (s.node id)).symm

theorem takeBy_nextValue (s : Store V) (t : Traversal) (count : Nat) :
    t.takeBy (Traversal.nextValue s) count =
      ((t.takeBy (Traversal.next s) count).1.map Prod.snd,
        (t.takeBy (Traversal.next s) count).2) := by
  induction count generalizing t with
  | zero => rfl
  | succ count ih =>
    rw [takeBy, takeBy, nextValue_eq_map]
    obtain ⟨item, behind⟩ := t.next s
    cases item with
    | none => rfl
    | some item => simp only [Option.map_some, ih, List.map_cons]

namespace Sound

/-- Each step takes the first entry out of those to come. -/
theorem takeBy_next (h : t.Sound s) (hs : s.Sound) (count : Nat) :
    ∃ behind, t.takeBy (Traversal.next s) count = ((t.rest s).take count, behind) ∧
      behind.Sound s ∧ behind.rest s = (t.rest s).drop count := by
  induction count generalizing t with
  | zero => exact ⟨t, rfl, h, rfl⟩
  | succ count ih =>
    have hnext := h.nextNode_advances hs
    rw [takeBy, h.next_eq hs]
    cases hrest : t.rest s with
    | nil => exact ⟨(t.nextNode s).2, rfl, hnext.sound, by rw [hnext.rest, hrest]; rfl⟩
    | cons item items =>
      obtain ⟨behind, htake, hsound, hbehind⟩ := ih hnext.sound
      rw [hnext.rest, hrest, List.tail_cons] at htake hbehind
      refine ⟨behind, ?_, hsound, hbehind⟩
      simp only [List.head?_cons, htake, List.take_succ_cons]

theorem gives_next (h : t.Sound s) (hs : s.Sound) : t.Gives (Traversal.next s) (t.rest s) := by
  intro count
  obtain ⟨behind, htake, hsound, hrest⟩ := h.takeBy_next hs count
  refine ⟨behind, htake, fun more => ?_⟩
  obtain ⟨_, hmore, -⟩ := hsound.takeBy_next hs more
  rw [hmore, hrest]

theorem gives_nextValue (h : t.Sound s) (hs : s.Sound) :
    t.Gives (Traversal.nextValue s) ((t.rest s).map Prod.snd) := by
  intro count
  obtain ⟨behind, htake, hlater⟩ := h.gives_next hs count
  refine ⟨behind, by rw [takeBy_nextValue, htake, List.map_take], fun more => ?_⟩
  rw [takeBy_nextValue, hlater, List.map_take, List.map_drop]

theorem enumerates (h : t.Sound s) (hs : s.Sound) : t.Enumerates s (t.rest s) where
  items := h.items_eq hs
  values := by rw [values_eq, h.items_eq hs]
  next := h.gives_next hs
  nextValue := h.gives_nextValue hs

end Sound

end Traversal

namespace Store

/-- What is at and below a node can be collected branch by branch, and a traversal that
starts there comes to the same. -/
structure Enumerable (s : Store V) (id : NodeId) : Prop where
  items : s.itemsBelow id = (s.node id).item?.toList ++ (s.children id).flatMap s.itemsBelow
  values : s.valuesBelow id = (s.node id).value.toList ++ (s.children id).flatMap s.valuesBelow
  walk : (Traversal.start (some id)).Enumerates s (s.itemsBelow id)
  map_snd : (s.itemsBelow id).map Prod.snd = s.valuesBelow id

namespace Sound

theorem valuesBelow_eq (h : s.Sound) (hid : s.Has id) :
    s.valuesBelow id = (s.node id).value.toList ++ (s.children id).flatMap s.valuesBelow := by
  have hchildren : ((s.children id).flatMap s.itemsBelow).map Prod.snd =
      (s.children id).flatMap s.valuesBelow := by
    rw [List.map_flatMap]
    exact List.flatMap_congr fun child _ => (s.valuesBelow_eq child).symm
  rw [Store.valuesBelow_eq, h.itemsBelow_eq hid, List.map_append, hchildren,
    ← Option.toList_map, Node.map_snd_item?]

theorem enumerates_start (h : s.Sound) {found : Option NodeId} (hfound : ∀ id ∈ found, s.Has id) :
    (Traversal.start found).Enumerates s (found.elim [] s.itemsBelow) := by
  rw [← Traversal.rest_start]
  exact (Traversal.sound_start hfound).enumerates h

theorem enumerable (h : s.Sound) (hid : s.Has id) : s.Enumerable id where
  items := h.itemsBelow_eq hid
  values := h.valuesBelow_eq hid
  walk := h.enumerates_start fun _ heq => Option.some.inj heq ▸ hid
  map_snd := (s.valuesBelow_eq id).symm

end Sound

end Store

namespace Session

variable {s : Session V}

/-- What a search comes to is what is gathered under its stem. -/
theorem Sound.gather (h : s.Sound) (stem : Key) :
    ∃ t items, s.trie.search stem = .ok t ∧ t.Enumerates s.trie.store items ∧
      s.gatherItems stem = .ok { s with items := s.items ++ items } ∧
      s.gatherValues stem = .ok { s with values := s.values ++ items.map Prod.snd } := by
  obtain ⟨found, hcover, hfound, -⟩ := h.store.cover? stem
  have hvalues : found.elim [] s.trie.store.valuesBelow =
      (found.elim [] s.trie.store.itemsBelow).map Prod.snd := by
    cases found with
    | none => rfl
    | some id => exact s.trie.store.valuesBelow_eq id
  refine ⟨_, _, ?_, h.store.enumerates_start fun id hid => h.store.has_live (hfound id hid).1,
    ?_, ?_⟩
  · rw [Trie.search, hcover]
    rfl
  · rw [Session.gatherItems, Trie.itemsWith, hcover]
    rfl
  · rw [Session.gatherValues, Trie.valuesWith, hcover, ← hvalues]
    rfl

/-- However a session has been used, walking and collecting agree at every node that was
made. Open traversals can be left and taken on, and what is gathered under a stem, behind
all that was gathered before, is what a search comes to. -/
theorem performAll_enumerates (sizing : Sizing) (entries : List (Key × V))
    (operations : List (Operation V)) :
    ∃ start answers s, Trie.ofList sizing entries = .ok start ∧
      (ofTrie start).performAll operations = .ok (answers, s) ∧
      (∀ id, s.trie.store.Has id → s.trie.store.Enumerable id) ∧
      (∀ t ∈ s.traversals, t.Enumerates s.trie.store (t.items s.trie.store)) ∧
      ∀ stem, ∃ t items, s.trie.search stem = .ok t ∧ t.Enumerates s.trie.store items ∧
        s.gatherItems stem = .ok { s with items := s.items ++ items } ∧
        s.gatherValues stem = .ok { s with values := s.values ++ items.map Prod.snd } := by
  obtain ⟨start, answers, s, hstart, hperform, h⟩ := exists_performAll sizing entries operations
  refine ⟨start, answers, s, hstart, hperform, fun id hid => h.store.enumerable hid, ?_, h.gather⟩
  intro t ht
  rw [(h.traversals t ht).items_eq h.store]
  exact (h.traversals t ht).enumerates h.store

/-- A root that was replaced while a traversal stood in it still comes to what it listed. -/
theorem performAll_enumerates_replaced :
    ∃ (start : Trie Nat) (answers : List (Answer Nat)) (s : Session Nat),
      Trie.ofList .alphabet [([97], 1), ([99], 3)] = .ok start ∧
      (ofTrie start).performAll [.openAll, .next 0, .write (.insert [98] 2)] = .ok (answers, s) ∧
      s.trie.store.root ≠ start.store.root ∧ s.trie.store.Has start.store.root ∧
      s.trie.store.itemsBelow start.store.root = [([97], 1), ([99], 3)] ∧
      s.trie.store.Enumerable start.store.root := by
  obtain ⟨start, answers, s, hstart, hperform, hall, -⟩ := performAll_enumerates .alphabet
    [([97], 1), ([99], 3)] [.openAll, .next 0, .write (.insert [98] 2)]
  have hroots : (Trie.ofList .alphabet [([97], 1), ([99], 3)]).bind (fun start : Trie Nat =>
      ((ofTrie start).performAll [.openAll, .next 0, .write (.insert [98] 2)]).map fun (_, s) =>
        (start.store.root, s.trie.store.root, s.trie.store.nodes.size)) = .ok (⟨4⟩, ⟨6⟩, 7) := by
    decide +kernel
  have hitems : (Trie.ofList .alphabet [([97], 1), ([99], 3)]).bind (fun start : Trie Nat =>
      ((ofTrie start).performAll [.openAll, .next 0, .write (.insert [98] 2)]).map fun (_, s) =>
        s.trie.store.itemsBelow start.store.root) = .ok [([97], 1), ([99], 3)] := by
    decide +kernel
  simp only [hstart, Except.bind, hperform, Except.map, Except.ok.injEq, Prod.mk.injEq]
    at hroots hitems
  obtain ⟨hold, hnew, hsize⟩ := hroots
  have hhas : s.trie.store.Has start.store.root := by
    rw [Store.Has, hold, hsize]
    decide
  exact ⟨start, answers, s, hstart, hperform, by rw [hold, hnew]; decide, hhas, hitems,
    hall _ hhas⟩

end Session

end ByteTrie
