import ByteTrie.Proofs.Trie.Written

/-!
# The nodes and rows of a trie

All that the operations of a trie rely on when they read a node is listed in
`Regular`. Most of it holds of any sound store; that no node below the root is
without a value and has fewer than two branches is owed to what an insertion
builds.
-/

namespace ByteTrie

namespace Store

variable {V : Type} {s : Store V}

/-- The slots of a row are filled up to the count, with children that begin with
their bytes, and the bytes are ascending. -/
structure RowRegular (s : Store V) (b : Branches NodeId) : Prop where
  count_pos : 1 ≤ b.count
  count_le : b.count ≤ b.capacity
  size_keys : b.keys.size = b.capacity
  filled : ∀ i < b.count, ∃ byte child, b.keys[i]? = some byte ∧ b.get? i = some child ∧
    (s.node child).segment.bytes.head? = some byte
  unused : ∀ i, b.count ≤ i → b.get? i = none
  ascending : (b.keys.toList.take b.count).Pairwise (· < ·)

/-- What the root leads to is as a trie should be. -/
structure Regular (s : Store V) : Prop where
  /-- The root, and no other node, has an empty segment. -/
  segment : ∀ id, s.Live id → ((s.node id).segment.length = 0 ↔ id = s.root)
  row : ∀ id, s.Live id → ∀ row, (s.node id).row = some row → s.RowRegular (s.row row)
  /-- A node below the root has a value, or at least two branches. -/
  needed : ∀ id, s.Live id → id ≠ s.root → (s.node id).value.isSome ∨ 2 ≤ s.degree id

theorem RowSound.regular {path : Key} {row : RowId} (h : s.RowSound path row) :
    s.RowRegular (s.row row) where
  count_pos := by
    rw [← h.sound.length_entries]
    exact List.length_pos_of_ne_nil h.inhabited
  count_le := h.sound.count_le
  size_keys := h.sound.size_keys
  filled i hi := by
    obtain ⟨byte, child, hbyte, hchild, hentry⟩ := h.sound.exists_slot hi
    refine ⟨byte, child, hbyte, hchild, (h.leads (byte, child) ?_).head?_bytes⟩
    exact List.mem_filterMap.mpr ⟨i, List.mem_range.mpr hi, hentry⟩
  unused _ hi := h.sound.get?_of_count_le hi
  ascending := h.sound.ascending

namespace Sound

theorem degree_eq (h : s.Sound) {id : NodeId} (hid : s.Has id) :
    s.degree id = (s.children id).length := by
  rw [degree, children]
  cases hrow : (s.node id).row with
  | none => simp [branches?, hrow]
  | some row =>
    have hbranches : s.branches? id = some (s.row row) := by simp [branches?, hrow]
    rw [hbranches, Option.elim_some, Option.elim_some, List.length_map,
      (h.rowSound hid hrow).sound.length_entries]

theorem length_eq_zero_iff (h : s.Sound) {id : NodeId} (hlive : s.Live id) :
    (s.node id).segment.length = 0 ↔ id = s.root := by
  constructor
  · intro hzero
    rcases Relation.ReflTransGen.cases_tail hlive with heq | ⟨parent, hparent, hstep⟩
    · exact heq
    · obtain ⟨byte, hlead⟩ := h.exists_leads (h.has_live hparent) hstep
      exact absurd hzero (Nat.ne_of_gt (h.length_pos hlead))
  · rintro rfl
    exact h.length_root

theorem regular (h : s.Sound) (hc : s.Compact) : s.Regular where
  segment _ hlive := h.length_eq_zero_iff hlive
  row _ hlive _ hrow := (h.rowSound (h.has_live hlive) hrow).regular
  needed id hlive hroot := by
    rw [h.degree_eq (h.has_live hlive)]
    exact hc id hlive hroot

end Sound

end Store

namespace Trie

variable {V : Type}

/-- After any run of writes all nodes that the root leads to are as they should be. -/
theorem run_regular (sizing : Sizing) (entries : List (Key × V)) (writes : List (Write V)) :
    ∃ start answers t, Trie.ofList sizing entries = .ok start ∧
      start.run writes = .ok (answers, t) ∧ t.store.Regular := by
  obtain ⟨start, answers, t, hstart, hrun, h⟩ := exists_written sizing entries writes
  exact ⟨start, answers, t, hstart, hrun, h.sound.regular h.compact⟩

end Trie

end ByteTrie
