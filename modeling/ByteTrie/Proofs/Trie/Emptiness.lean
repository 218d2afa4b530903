import ByteTrie.Proofs.Trie.Search
import ByteTrie.Proofs.Trie.Shape

/-!
# Tries without entries

To tell whether a trie has entries it is enough to look at its root, and to tell
whether some key starts with a stem it is enough to go down along the stem. Both
rest on there being no node, below the root, without an entry at or below it: what
a branch leads to is never in vain.
-/

namespace ByteTrie

variable {V : Type}

namespace Store

variable {s : Store V}

namespace Sound

/-- The root lists nothing just when it has neither a value nor a branch. -/
theorem itemsBelow_root_eq_nil_iff (h : s.Sound) (hc : s.Compact) :
    s.itemsBelow s.root = [] ↔ (s.node s.root).value = none ∧ s.children s.root = [] := by
  rw [h.itemsBelow_eq h.has_root, List.append_eq_nil_iff, List.flatMap_eq_nil_iff]
  refine and_congr ?_ ⟨fun hempty => ?_, fun hnil => ?_⟩
  · rw [Option.toList_eq_nil_iff, Node.item?, Option.map_eq_none_iff]
  · refine List.eq_nil_iff_forall_not_mem.mpr fun child hchild => ?_
    have hroot := h.ne_root_of_branch h.has_root hchild
    exact h.itemsBelow_ne_nil hc (Relation.ReflTransGen.single hchild) hroot (hempty child hchild)
  · rw [hnil]
    exact fun child hchild => absurd hchild List.not_mem_nil

/-- A stem that is not empty has a node that covers it just when some key with a value
starts with it. -/
theorem isSome_cover?_iff (h : s.Sound) (hc : s.Compact) (byte : UInt8) (rest : Key) :
    ∃ found, s.cover? (byte :: rest) = .ok found ∧
      (found.isSome ↔ ∃ key, s.Held key ∧ byte :: rest <+: key) := by
  obtain ⟨found, hcover, hfound, hall⟩ := h.cover? (byte :: rest)
  refine ⟨found, hcover, fun hsome => ?_, ?_⟩
  · obtain ⟨id, hid⟩ := Option.isSome_iff_exists.mp hsome
    obtain ⟨hlive, hstem⟩ := hfound id hid
    have hroot : id ≠ s.root := by
      rintro rfl
      rw [h.key_root] at hstem
      exact absurd (List.prefix_nil.mp hstem) (List.cons_ne_nil byte rest)
    obtain ⟨other, hbelow, hheld⟩ := h.exists_held_below hc hlive hroot
    exact ⟨s.key other, hheld, hstem.trans (h.key_isPrefix_of_below (h.has_live hlive) hbelow)⟩
  · rintro ⟨_, ⟨other, hlive, rfl, -⟩, hstem⟩
    obtain ⟨id, hid, -⟩ := hall other hlive hstem
    exact Option.isSome_iff_exists.mpr ⟨id, hid⟩

end Sound

end Store

theorem Contents.keys_eq_empty_iff (m : Contents V) : m.keys = ∅ ↔ m = ∅ := by
  constructor
  · intro hkeys
    refine Finmap.ext_lookup fun key => ?_
    rw [Finmap.lookup_empty, Finmap.lookup_eq_none, ← Finmap.mem_keys, hkeys]
    exact Finset.notMem_empty key
  · rintro rfl
    exact Finmap.keys_empty

namespace Trie

variable {t : Trie V} {m : Contents V}

theorem toList_eq (h : t.store.Sound) : t.toList = t.store.itemsBelow t.store.root := by
  have hsound : t.traversal.Sound t.store := Traversal.sound_start fun id hid =>
    Option.some.inj hid ▸ h.has_root
  rw [toList, hsound.items_eq h, traversal, Traversal.rest_start, Option.elim_some]

/-- The keys of the entries are those of the map, each once. -/
theorem Holds.toFinset_keys (h : t.Holds m) :
    ((t.store.itemsBelow t.store.root).map Prod.fst).toFinset = m.keys := by
  ext key
  rw [List.mem_toFinset, Finmap.mem_keys, ← Finmap.lookup_isSome, Option.isSome_iff_exists,
    List.mem_map]
  constructor
  · rintro ⟨⟨_, value⟩, hitem, rfl⟩
    exact ⟨value, h.mem_itemsBelow.mp hitem⟩
  · rintro ⟨value, hvalue⟩
    exact ⟨(key, value), h.mem_itemsBelow.mpr hvalue, rfl⟩

theorem Holds.size_eq_card (h : t.Holds m) : t.size = m.keys.card := by
  have hnodup := (h.sound.ascending_itemsBelow h.sound.has_root).nodup_map_fst
  rw [size_eq, toList_eq h.sound, ← h.toFinset_keys, List.toFinset_card_of_nodup hnodup,
    List.length_map]

theorem isEmpty_iff (h : t.store.Sound) (hc : t.store.Compact) : t.isEmpty = true ↔ t.size = 0 := by
  rw [size_eq, toList_eq h, List.length_eq_zero_iff, h.itemsBelow_root_eq_nil_iff hc, isEmpty,
    h.degree_eq h.has_root, Bool.and_eq_true, beq_iff_eq, List.length_eq_zero_iff,
    Option.isNone_iff_eq_none]

/-- The root tells whether a trie has entries, and they are as many as the keys in the
map. A node that covers a stem is found just when some key starts with the stem. -/
theorem run_isEmpty_iff (sizing : Sizing) (entries : List (Key × V)) (writes : List (Write V)) :
    ∃ start answers t m, Trie.ofList sizing entries = .ok start ∧
      start.run writes = .ok (answers, t) ∧ ((Contents.ofList entries).run writes).2 = m ∧
      (∀ key, t.contains key = .ok true ↔ key ∈ m) ∧ t.size = m.keys.card ∧
      (t.isEmpty = true ↔ t.size = 0) ∧ (t.size = 0 ↔ m = ∅) ∧
      ∀ byte rest, ∃ found, t.store.cover? (byte :: rest) = .ok found ∧
        (found.isSome ↔ ∃ key, t.contains key = .ok true ∧ byte :: rest <+: key) := by
  obtain ⟨start, answers, t, hstart, hrun, h⟩ := exists_written sizing entries writes
  refine ⟨start, answers, t, _, hstart, hrun, rfl, h.holds.contains_iff_mem,
    h.holds.size_eq_card, isEmpty_iff h.sound h.compact, ?_, fun byte rest => ?_⟩
  · rw [h.holds.size_eq_card, Finset.card_eq_zero, Contents.keys_eq_empty_iff]
  · obtain ⟨found, hcover, hfound⟩ := h.sound.isSome_cover?_iff h.compact byte rest
    refine ⟨found, hcover, hfound.trans (exists_congr fun key => ?_)⟩
    rw [h.held_iff, h.holds.contains_iff_mem]

end Trie

end ByteTrie
