import ByteTrie.Proofs.Store.Outline
import ByteTrie.Proofs.Trie.Regular
import ByteTrie.Proofs.Trie.Sweep

/-!
# The shape of a trie

What a trie looks like depends on the map that it holds and on nothing else: not
on the order in which the values were stored, nor on how rows are sized. There
are nodes just at the joints of the keys in the map, one at each, and two tries
that hold the same map have the same outline. Their censuses agree in all but
the room that rows have to spare.
-/

namespace ByteTrie

variable {V : Type}

/-- Two censuses agree in all but the capacities of rows. -/
structure Census.Alike (c c' : Census) : Prop where
  nodes : c.nodes = c'.nodes
  leaves : c.leaves = c'.leaves
  inner : c.inner = c'.inner
  values : c.values = c'.values
  used : c.used = c'.used
  height : c.height = c'.height

theorem Census.Alike.add {c c' : Census} (h : c.Alike c') (hasValue : Bool)
    (height capacity capacity' branches : Nat) :
    (c.add hasValue height capacity branches).Alike
      (c'.add hasValue height capacity' branches) := by
  obtain ⟨hnodes, hleaves, hinner, hvalues, hused, hheight⟩ := h
  rw [Census.add, Census.add]
  split <;> constructor <;> simp [*]

namespace Store

variable {s s' : Store V} {id id' : NodeId}

/-- Nodes of two stores, with their heights, that a census counts alike. -/
structure CountedAs (s s' : Store V) (node node' : NodeId × Nat) : Prop where
  height : node.2 = node'.2
  value : (s.node node.1).value.isSome = (s'.node node'.1).value.isSome
  degree : s.degree node.1 = s'.degree node'.1

/-- Nodes with the same outline are counted alike, and so is all that is below them. -/
theorem forall₂_preorderTo (hs : s.Sound) (hs' : s'.Sound) (hid : s.Has id) (hid' : s'.Has id')
    (houtline : s.outlineAt id = s'.outlineAt id') (height : Nat) {depth depth' : Nat}
    (hdepth : s.rank id < depth) (hdepth' : s'.rank id' < depth') :
    List.Forall₂ (s.CountedAs s') (s.preorderTo height id depth)
      (s'.preorderTo height id' depth') := by
  induction depth generalizing id id' height depth' with
  | zero => exact absurd hdepth (Nat.not_lt_zero _)
  | succ depth ih =>
    cases depth' with
    | zero => exact absurd hdepth' (Nat.not_lt_zero _)
    | succ depth' =>
      rw [hs.outlineAt_eq hid, hs'.outlineAt_eq hid'] at houtline
      obtain ⟨-, hvalue, hbranches⟩ := Outline.node.inj houtline
      have hdegree : s.degree id = s'.degree id' := by
        have hlength := congrArg List.length hbranches
        rw [List.length_map, List.length_map] at hlength
        rw [hs.degree_eq hid, hs'.degree_eq hid', children_eq_map_entriesAt,
          children_eq_map_entriesAt, List.length_map, List.length_map, hlength]
      rw [preorderTo, preorderTo, children_eq_map_entriesAt, children_eq_map_entriesAt,
        List.flatMap_map, List.flatMap_map]
      refine .cons ⟨rfl, congrArg Option.isSome hvalue, hdegree⟩ ?_
      refine List.rel_flatMap (forall₂_and_mem (map_eq_map_iff.mp hbranches)) ?_
      rintro entry entry' ⟨hentry, hentry', hlabel⟩
      have hchild := branch_of_mem_entriesAt hentry
      have hchild' := branch_of_mem_entriesAt hentry'
      have hrank := hs.rank_child_lt hid hchild
      have hrank' := hs'.rank_child_lt hid' hchild'
      exact ih (hs.has_child hid hchild) (hs'.has_child hid' hchild') (Prod.mk.inj hlabel).2
        (height + 1) (by omega) (by omega)

end Store

namespace Trie

variable {t t' : Trie V} {m : Contents V}

/-- What is counted of a trie is counted on its outline. -/
theorem census_alike (ht : t.store.Sound) (ht' : t'.store.Sound)
    (houtline : t.store.outline = t'.store.outline) : t.census.Alike t'.census := by
  have hpreorder : List.Forall₂ (t.store.CountedAs t'.store)
      (t.store.preorder t.store.root) (t'.store.preorder t'.store.root) :=
    Store.forall₂_preorderTo ht ht' ht.has_root ht'.has_root houtline 1
      (Store.Sound.rank_lt_size ht.has_root) (Store.Sound.rank_lt_size ht'.has_root)
  rw [census, census, Census.addNodes, Census.addNodes]
  refine List.rel_foldl (P := Census.Alike) (fun c c' h node node' hnode => ?_)
    ⟨rfl, rfl, rfl, rfl, rfl, rfl⟩ hpreorder
  change (c.addNode t.store node.1 node.2).Alike (c'.addNode t'.store node'.1 node'.2)
  rw [Census.addNode, Census.addNode, hnode.height, hnode.value, hnode.degree]
  exact h.add _ _ _ _ _

namespace Written

/-- A node has the value that the map holds under its key. -/
theorem value_eq (h : t.Written m) {id : NodeId} (hlive : t.store.Live id) :
    (t.store.node id).value = m.lookup (t.store.key id) := by
  rw [← h.sound.lookup_root_key hlive, h.holds.lookup]

/-- Values are held under the keys of the map. -/
theorem held_iff (h : t.Written m) (key : Key) : t.store.Held key ↔ key ∈ m := by
  rw [← Finmap.lookup_isSome]
  constructor
  · rintro ⟨id, hlive, rfl, hvalue⟩
    rw [← h.value_eq hlive]
    exact hvalue
  · intro hsome
    obtain ⟨value, hvalue⟩ := Option.isSome_iff_exists.mp hsome
    obtain ⟨id, hlive, hkey, hheld⟩ :=
      (h.sound.mem_itemsBelow h.sound.has_root).mp (h.holds.mem_itemsBelow.mpr hvalue)
    exact ⟨id, hlive, hkey, by rw [hheld]; rfl⟩

theorem exists_live_iff (h : t.Written m) (key : Key) :
    (∃ id, t.store.Live id ∧ t.store.key id = key) ↔ Key.Joint (· ∈ m) key := by
  have hheld : t.store.Held = (· ∈ m) := funext fun key => propext (h.held_iff key)
  rw [h.sound.exists_live_iff h.compact, hheld]

/-- There is one node at each joint of the keys in the map. -/
theorem existsUnique_live (h : t.Written m) {key : Key} (hjoint : Key.Joint (· ∈ m) key) :
    ∃! id, t.store.Live id ∧ t.store.key id = key := by
  obtain ⟨id, hlive, hkey⟩ := (h.exists_live_iff key).mpr hjoint
  exact ⟨id, ⟨hlive, hkey⟩, fun other hother =>
    h.sound.eq_of_key_eq h.sound.has_root hother.1 hlive (hother.2.trans hkey.symm)⟩

theorem agrees (h : t.Written m) (h' : t'.Written m) : t.store.Agrees t'.store where
  exists_live id hlive := (h'.exists_live_iff _).mpr ((h.exists_live_iff _).mp ⟨id, hlive, rfl⟩)
  exists_live' id hlive := (h.exists_live_iff _).mpr ((h'.exists_live_iff _).mp ⟨id, hlive, rfl⟩)
  value id id' hlive hlive' hkey := by rw [h.value_eq hlive, h'.value_eq hlive', hkey]

/-- Tries that hold the same map have the same outline. -/
theorem outline_eq (h : t.Written m) (h' : t'.Written m) : t.store.outline = t'.store.outline :=
  ((h.agrees h').outline_eq h.sound h'.sound).symm

end Written

/-- The shape of a trie is a function of what it holds. It has a node at every
joint of the keys in the map that its writes come to, just one, and at no other key,
and a node has a value just when its key is in the map. Any two runs that end with
the same map, in whatever ways they size rows, end with tries of the same outline,
whose censuses count the same. -/
theorem run_shape (sizing sizing' : Sizing) (entries entries' : List (Key × V))
    (writes writes' : List (Write V)) :
    ∃ start answers t start' answers' t', ∃ m m' : Contents V,
      Trie.ofList sizing entries = .ok start ∧ start.run writes = .ok (answers, t) ∧
      Trie.ofList sizing' entries' = .ok start' ∧ start'.run writes' = .ok (answers', t') ∧
      m = ((Contents.ofList entries).run writes).2 ∧
      m' = ((Contents.ofList entries').run writes').2 ∧
      (∀ key, t.contains key = .ok true ↔ key ∈ m) ∧
      (∀ key, Key.Joint (· ∈ m) key → ∃! id, t.store.Live id ∧ t.store.key id = key) ∧
      (∀ id, t.store.Live id → Key.Joint (· ∈ m) (t.store.key id) ∧
        ((t.store.node id).value.isSome ↔ t.store.key id ∈ m)) ∧
      (m = m' ↔ ∀ key, t.lookup key = t'.lookup key) ∧
      (m = m' → t.store.outline = t'.store.outline ∧ t.sweep.Alike t'.sweep) := by
  obtain ⟨start, answers, t, hstart, hrun, h⟩ := exists_written sizing entries writes
  obtain ⟨start', answers', t', hstart', hrun', h'⟩ := exists_written sizing' entries' writes'
  refine ⟨start, answers, t, start', answers', t', _, _, hstart, hrun, hstart', hrun', rfl, rfl,
    h.holds.contains_iff_mem, fun key => h.existsUnique_live, ?_, ⟨?_, ?_⟩, ?_⟩
  · intro id hlive
    rw [h.value_eq hlive, Finmap.lookup_isSome]
    exact ⟨(h.exists_live_iff _).mp ⟨id, hlive, rfl⟩, Iff.rfl⟩
  · intro hsame key
    rw [h.holds.lookup_eq, h'.holds.lookup_eq, hsame]
  · exact h.holds.eq_of_lookup_eq h'.holds
  · intro hsame
    have houtline := h.outline_eq (hsame ▸ h')
    rw [sweep_eq_census h.sound, sweep_eq_census h'.sound]
    exact ⟨houtline, census_alike h.sound h'.sound houtline⟩

/-- Two keys that part behind their first byte, in a trie that was made with them and in one
that has held others, been begun anew, and had one of its values replaced. -/
theorem run_shape_restarted :
    ∃ start' answers', ∃ t t' : Trie Nat,
      Trie.ofList .alphabet [([1, 2], 12), ([1, 3], 13)] = .ok t ∧
      Trie.ofList .alphabet [([1], 10), ([7, 7], 77)] = .ok start' ∧
      start'.run [.insert [1, 2] 0, .restart .exact [([1, 3], 0)],
        .insertEach [([1, 2], 12), ([1, 3], 13)]] = .ok (answers', t') ∧
      t.store.outline = t'.store.outline ∧ t.sweep.Alike t'.sweep ∧
      t.sweep.nodes = 4 ∧ t.sweep.slots = 5 ∧ t'.sweep.slots = 3 ∧
      ∃! id, t.store.Live id ∧ t.store.key id = [1] := by
  obtain ⟨t, _, _, start', answers', t', m, m', hstart, hrun, hstart', hrun', hm, hm', -, hunique, -,
    -, hsame⟩ := run_shape .alphabet .alphabet [([1, 2], 12), ([1, 3], 13)]
      [([1], 10), ([7, 7], 77)] []
      [.insert [1, 2] 0, .restart .exact [([1, 3], 0)], .insertEach [([1, 2], 12), ([1, 3], 13)]]
  obtain ⟨-, rfl⟩ := Prod.mk.inj (Except.ok.inj hrun)
  have hcounted : (Trie.ofList .alphabet [([1, 2], 12), ([1, 3], 13)]).map (fun t : Trie Nat =>
      (t.sweep.nodes, t.sweep.slots)) = .ok (4, 5) := by
    decide +kernel
  have hcounted' : (do
      let start ← Trie.ofList .alphabet [([1], 10), ([7, 7], 77)]
      let (_, t) ← start.run [.insert [1, 2] (0 : Nat), .restart .exact [([1, 3], 0)],
        .insertEach [([1, 2], 12), ([1, 3], 13)]]
      return t.sweep.slots : Except Fault Nat) = .ok 3 := by
    decide +kernel
  rw [hstart] at hcounted
  rw [hstart'] at hcounted'
  simp only [bind, Except.bind, hrun'] at hcounted'
  obtain ⟨hnodes, hslots⟩ := Prod.mk.inj (Except.ok.inj hcounted)
  obtain ⟨houtline, halike⟩ := hsame (by rw [hm, hm']; decide +kernel)
  have hjoint : Key.Joint (· ∈ m) [1] :=
    .parting (a := [1, 2]) (b := [1, 3]) (by rw [hm]; decide +kernel) (by rw [hm]; decide +kernel)
  exact ⟨start', answers', t, t', hstart, hstart', hrun', houtline, halike, hnodes, hslots,
    Except.ok.inj hcounted', hunique [1] hjoint⟩

end Trie

end ByteTrie
