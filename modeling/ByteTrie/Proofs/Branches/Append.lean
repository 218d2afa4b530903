import ByteTrie.Proofs.Branches.Order

/-!
# Appending in place

A child may be appended in place, or a new row may be built with the child behind
all others. The first looks at the last byte only, the second at every entry, and
a search tells by its answer whether the byte comes behind all others. In a row
without emptied slots the three agree, and the row that was appended to is the row
that would have been built.
-/

universe u

namespace ByteTrie

namespace Branches

variable {α : Type u} {b b' : Branches α} {byte : UInt8} {child : α}

namespace Ordered

theorem exists_push?_iff (h : b.Ordered) :
    (∃ b', b.push? byte child = some b') ↔
      b.count < b.capacity ∧ ∀ other ∈ b.keys.toList.take b.count, other < byte := by
  rw [forall_lt_iff_getLast? h.ascending, ← h.lastByte?_eq]
  constructor
  · rintro ⟨b', hpush⟩
    exact (push?_eq_some_iff.mp hpush).1
  · exact fun hpush => ⟨_, push?_eq_some_iff.mpr ⟨hpush, rfl⟩⟩

/-- A search answers with the complement of the count when every byte in use is less. -/
theorem locate_code_eq_compl_count_iff (h : b.Ordered) :
    (b.locate byte).map Position.code = .ok (~~~(b.count : Int)) ↔
      ∀ other ∈ b.keys.toList.take b.count, other < byte := by
  have hcode : ~~~(b.count : Int) = (Position.absent b.count).code := rfl
  have hall := List.countP_eq_length (p := fun other => decide (other < byte))
    (l := b.keys.toList.take b.count)
  simp only [h.length_take_keys, decide_eq_true_eq] at hall
  rw [h.locate_eq, Except.map, Except.ok.injEq, hcode, Position.code_absent, ← hall]
  split
  · rename_i hmem
    rw [Position.code_found]
    refine ⟨fun heq => by omega, fun hcount => ?_⟩
    exact absurd (hall.mp hcount byte hmem) (UInt8.lt_irrefl byte)
  · rw [Position.code_absent]
    omega

end Ordered

namespace Sound

/-- A row is given by its entries and its capacity. -/
theorem eq_of_entries_eq (h : b.Sound) (h' : b'.Sound) (hcapacity : b'.capacity = b.capacity)
    (hentries : b'.entries = b.entries) : b' = b := by
  have hcount : b'.count = b.count := by
    rw [← h'.length_entries, ← h.length_entries, hentries]
  have hkeys : b'.keys = b.keys := by
    refine Array.ext_getElem? fun index => h.keys_congr h' hcapacity ?_
    rw [hentries]
  have hslots : b'.slots = b.slots := by
    refine Array.ext hcapacity fun index hindex' hindex => ?_
    have hget : b'.get? index = b.get? index := by rw [h'.get?_eq, h.get?_eq, hentries]
    rwa [get?, get?, Array.getElem?_eq_getElem hindex', Array.getElem?_eq_getElem hindex,
      Option.join_some, Option.join_some] at hget
  cases b
  cases b'
  congr

/-- Behind the last child another finds its place when its byte is greater than all. -/
theorem exists_insertIdx_count_iff (h : b.Sound) {capacity : Nat} :
    (∃ copy, b.insertIdx b.count byte child capacity = .ok copy) ↔
      b.count < capacity ∧ ∀ other ∈ b.keys.toList.take b.count, other < byte := by
  rw [Branches.insertIdx, if_pos (Nat.le_refl _), ofEntries_eq_ok_iff, h.length_insertIdx,
    ← h.length_entries, List.take_length, List.drop_length, h.length_entries, ← h.map_fst_entries,
    List.map_append, List.pairwise_append]
  refine and_congr_right fun _ => ⟨fun hlt other hother => ?_, fun hlt => ?_⟩
  · exact hlt.2.2 other hother byte (List.mem_singleton_self byte)
  · refine ⟨h.ascending_entries, List.pairwise_singleton _ _, fun other hother last hlast => ?_⟩
    exact List.mem_singleton.mp hlast ▸ hlt other hother

/-- The row that took a child in place is the one that is built with it. -/
theorem insertIdx_count_of_push? (h : b.Sound) (hpush : b.push? byte child = some b') :
    b.insertIdx b.count byte child b.capacity = .ok b' := by
  obtain ⟨hsound, hentries⟩ := h.push? hpush
  obtain ⟨copy, hcopy⟩ :=
    h.exists_insertIdx_count_iff.mpr (h.toOrdered.exists_push?_iff.mp ⟨b', hpush⟩)
  have hbuilt := hcopy
  rw [Branches.insertIdx, if_pos (Nat.le_refl _), ← h.length_entries, List.take_length,
    List.drop_length] at hbuilt
  obtain ⟨hsound', hentries'⟩ := sound_of_ofEntries hbuilt
  have hcapacity := (capacity_of_ofEntries hbuilt).trans (capacity_of_push? hpush).symm
  rw [hcopy, hsound.eq_of_entries_eq hsound' hcapacity (hentries'.trans hentries.symm)]

end Sound

end Branches

end ByteTrie
