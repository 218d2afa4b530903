import ByteTrie.Proofs.Session.Operations

/-!
# Operations without faults

An operation may fail in two ways only. A check on its way may refuse what it is
given, which would be a fault; and what it reads without a check may not be
there. The first does not happen in a sound session, as every operation answers.
Against the second stands `InBounds`: segments lie within their buffers, slots in
use are within their rows and hold nodes, and whatever a row, a traversal or a
listing names was made.
-/

namespace ByteTrie

namespace Store

variable {V : Type} {s : Store V}

/-- A row was made, and its slots in use hold nodes that were made. -/
structure RowInBounds (s : Store V) (row : RowId) : Prop where
  has : s.HasRow row
  size_keys : (s.row row).keys.size = (s.row row).capacity
  count_le : (s.row row).count ≤ (s.row row).capacity
  slot : ∀ index < (s.row row).count, ∃ byte child,
    (s.row row).byteAt index = .ok byte ∧ (s.row row).get? index = some child ∧ s.Has child

/-- What is read of a store without a check is there, for nodes that the root
leads to and for all others. -/
structure InBounds (s : Store V) : Prop where
  root : s.Has s.root
  segment : ∀ id, s.Has id → (s.node id).segment.Within
  row : ∀ id, s.Has id → ∀ row, (s.node id).row = some row → s.RowInBounds row
  listed : ∀ id, s.Has id → ∀ entry ∈ s.preorder id, s.Has entry.1

theorem RowSound.inBounds {path : Key} {row : RowId} (h : s.RowSound path row) :
    s.RowInBounds row where
  has := h.has
  size_keys := h.sound.size_keys
  count_le := h.sound.count_le
  slot index hindex := by
    obtain ⟨byte, child, hbyte, hchild, hentry⟩ := h.sound.exists_slot hindex
    refine ⟨byte, child, by rw [Branches.byteAt, Search.probe, hbyte], hchild, ?_⟩
    exact (h.leads (byte, child)
      (List.mem_filterMap.mpr ⟨index, List.mem_range.mpr hindex, hentry⟩)).has

theorem Sound.inBounds (h : s.Sound) : s.InBounds where
  root := h.has_root
  segment id hid := (h.node id hid).within
  row _ hid _ hrow := (h.rowSound hid hrow).inBounds
  listed _ hid _ hentry := h.has_below hid ((h.mem_nodesBelow hid).mp (List.mem_map_of_mem hentry))

end Store

namespace Session

variable {V : Type} {s : Session V}

/-- What is read in a session without a check is there. -/
structure InBounds (s : Session V) : Prop where
  store : s.trie.store.InBounds
  first : ∀ t ∈ s.traversals, ∀ id ∈ t.first, s.trie.store.Has id
  rows : ∀ t ∈ s.traversals, ∀ r ∈ t.rows,
    s.trie.store.RowInBounds r.row ∧ r.cursor.stop ≤ (s.trie.store.row r.row).count
  visited : ∀ t ∈ s.traversals, ∀ steps, ∀ id ∈ t.trail s.trie.store steps, s.trie.store.Has id

theorem Sound.inBounds (h : s.Sound) : s.InBounds where
  store := h.store.inBounds
  first t ht := (h.traversals t ht).first
  rows t ht r hr := by
    have hsound := (h.traversals t ht).rows r hr
    obtain ⟨path, hpath⟩ := hsound.path h.store
    exact ⟨hpath.inBounds, hsound.stop_le⟩
  visited t ht steps id hid := by
    rw [(h.traversals t ht).trail_eq h.store] at hid
    exact (h.traversals t ht).has_of_mem_listing h.store (List.mem_of_mem_take hid)

/-- No operation faults, however a trie is used: every run of operations is
answered, and at its end all that is read without a check is there. -/
theorem performAll_inBounds (sizing : Sizing) (entries : List (Key × V))
    (operations : List (Operation V)) :
    ∃ start answers s, Trie.ofList sizing entries = .ok start ∧
      (ofTrie start).performAll operations = .ok (answers, s) ∧ s.InBounds := by
  obtain ⟨start, answers, s, hstart, hperform, h⟩ := exists_performAll sizing entries operations
  exact ⟨start, answers, s, hstart, hperform, h.inBounds⟩

end Session

end ByteTrie
