import ByteTrie.Proofs.Store.Counting
import ByteTrie.Proofs.Trie.Emptiness
import ByteTrie.Proofs.Trie.Sweep

/-!
# How small a trie is

No node of a trie is a mere step on a way. A trie therefore has at most two nodes for
each key that is not empty, and a way down in it has no more nodes below the root than
there are such keys, nor than the longest of them has bytes.
-/

namespace ByteTrie

variable {V : Type}

namespace Trie

variable {t : Trie V} {m : Contents V}

theorem Holds.mem_properKeys (h : t.Holds m) (key : Key) :
    key ∈ t.store.properKeys ↔ key ≠ [] ∧ t.contains key = .ok true := by
  rw [h.contains_iff_mem, ← Finmap.mem_keys, ← h.toFinset_keys, List.mem_toFinset, Store.properKeys,
    List.mem_toFinset, List.mem_map, List.mem_map]
  constructor
  · rintro ⟨⟨key, value⟩, hitem, rfl⟩
    obtain ⟨hne, hmem⟩ := h.sound.mem_properItems.mp hitem
    exact ⟨hne, (key, value), hmem, rfl⟩
  · rintro ⟨hne, ⟨key, value⟩, hitem, rfl⟩
    exact ⟨(key, value), h.sound.mem_properItems.mpr ⟨hne, hitem⟩, rfl⟩

theorem census_nodes_le (h : t.store.Sound) (hc : t.store.Compact)
    (hsome : t.store.properKeys.Nonempty) : t.census.nodes ≤ 2 * t.store.properKeys.card := by
  have hle := h.length_nodesBelow_root_le hc
  rw [← Finset.card_pos, h.card_properKeys] at hsome
  have hbranch : 0 < (t.store.children t.store.root).length := by
    refine List.length_pos_of_ne_nil fun hnil => ?_
    rw [Store.properItems, hnil] at hsome
    exact Nat.lt_irrefl 0 hsome
  rw [census_nodes, h.card_properKeys]
  omega

theorem census_nodes_eq_one (h : t.store.Sound) (hc : t.store.Compact)
    (hnone : t.store.properKeys = ∅) : t.census.nodes = 1 := by
  have hle := h.length_nodesBelow_root_le hc
  rw [← Finset.card_eq_zero, h.card_properKeys] at hnone
  have hroot := h.length_nodesBelow h.has_root
  rw [census_nodes]
  omega

theorem census_height_le (h : t.store.Sound) (hc : t.store.Compact) :
    t.census.height ≤
      1 + min t.store.properKeys.card (t.store.properKeys.sup List.length) := by
  rw [census_height_le_iff]
  intro node hnode
  have hcard := h.height_le_of_mem hc hnode
  have hkey := h.height_add_length_le_of_mem h.has_root hnode
  have hlive := (h.mem_nodesBelow h.has_root).mp (List.mem_map_of_mem hnode)
  have hsup := h.length_key_le_sup hc hlive
  rw [h.card_properKeys]
  omega

theorem one_le_census_height (h : t.store.Sound) : 1 ≤ t.census.height :=
  t.census_height_le_iff.mp (Nat.le_refl _) (t.store.root, 1) h.root_mem_preorder

/-- With some keys in its map that are not empty a trie has at most two nodes for each of
them, and is at most one higher than their number and the length of the longest. Without
such keys it is the root alone. -/
theorem run_compressed (sizing : Sizing) (entries : List (Key × V)) (writes : List (Write V)) :
    ∃ start answers t, ∃ proper : Finset Key, Trie.ofList sizing entries = .ok start ∧
      start.run writes = .ok (answers, t) ∧
      (∀ key, t.contains key = .ok true ↔ key ∈ ((Contents.ofList entries).run writes).2) ∧
      (∀ key, key ∈ proper ↔ key ≠ [] ∧ t.contains key = .ok true) ∧
      (proper.Nonempty → t.sweep.nodes ≤ 2 * proper.card ∧
        t.sweep.height ≤ 1 + min proper.card (proper.sup List.length)) ∧
      (proper = ∅ → t.sweep.nodes = 1 ∧ t.sweep.height = 1) := by
  obtain ⟨start, answers, t, hstart, hrun, h⟩ := exists_written sizing entries writes
  have hheight := census_height_le h.sound h.compact
  refine ⟨start, answers, t, t.store.properKeys, hstart, hrun, h.holds.contains_iff_mem,
    h.holds.mem_properKeys, ?_⟩
  rw [sweep_eq_census h.sound]
  refine ⟨?_, ?_⟩
  · intro hsome
    exact ⟨census_nodes_le h.sound h.compact hsome, hheight⟩
  · intro hnone
    rw [hnone] at hheight
    exact ⟨census_nodes_eq_one h.sound h.compact hnone,
      Nat.le_antisymm hheight (one_le_census_height h.sound)⟩

/-- Two keys that part behind their first byte take all that two keys may take. -/
theorem run_compressed_parting :
    ∃ (t : Trie Nat) (proper : Finset Key),
      Trie.ofList .alphabet [([1, 2], 12), ([1, 3], 13)] = .ok t ∧
      (∀ key, key ∈ proper ↔ key ≠ [] ∧ t.contains key = .ok true) ∧ [1, 2] ∈ proper ∧
      t.sweep.nodes = 4 ∧ t.sweep.height = 3 ∧ t.sweep.nodes ≤ 2 * proper.card ∧
      t.sweep.height ≤ 1 + min proper.card (proper.sup List.length) := by
  obtain ⟨t, _, _, proper, hstart, hrun, -, hproper, hsome, -⟩ :=
    run_compressed .alphabet [([1, 2], 12), ([1, 3], 13)] []
  obtain ⟨-, rfl⟩ := Prod.mk.inj (Except.ok.inj hrun)
  have hcounted : (Trie.ofList .alphabet [([1, 2], 12), ([1, 3], 13)]).map (fun t : Trie Nat =>
      (t.contains [1, 2], t.sweep.nodes, t.sweep.height)) = .ok (.ok true, 4, 3) := by
    decide +kernel
  simp only [hstart, Except.map, Except.ok.injEq, Prod.mk.injEq] at hcounted
  obtain ⟨hcontains, hnodes, hheight⟩ := hcounted
  have hmem : [1, 2] ∈ proper := (hproper _).mpr ⟨List.cons_ne_nil _ _, hcontains⟩
  obtain ⟨hnodes', hheight'⟩ := hsome ⟨_, hmem⟩
  exact ⟨t, proper, hstart, hproper, hmem, hnodes, hheight, hnodes', hheight'⟩

end Trie

end ByteTrie
