import ByteTrie.Proofs.Branches.Order

/-!
# A child among those that are there

A row that is built with one more child takes over the entries of the old row, and
those leave out the slots that were emptied. The position of the child is checked
against the count and then counted among the entries, so positions behind the last
entry all mean the place behind it. The entries of a row in order are ascending even
so, and the new byte only has to lie between the two beside its place.
-/

universe u

namespace ByteTrie

namespace Branches

variable {α : Type u} {b b' : Branches α} {index capacity : Nat} {byte : UInt8} {child : α}

/-- A byte is above the one before a place and below the one behind it. -/
structure Parts (bytes : List UInt8) (place : Nat) (byte : UInt8) : Prop where
  before : place = 0 ∨ ∃ other, bytes[place - 1]? = some other ∧ other < byte
  behind : place = bytes.length ∨ ∃ other, bytes[place]? = some other ∧ byte < other

/-- The bytes beside a place among ascending ones stand for all others. -/
theorem parts_iff {bytes : List UInt8} (h : bytes.Pairwise (· < ·)) {place : Nat}
    (hplace : place ≤ bytes.length) :
    Parts bytes place byte ↔
      (∀ other ∈ bytes.take place, other < byte) ∧ ∀ other ∈ bytes.drop place, byte < other := by
  constructor
  · rintro ⟨hbefore, hbehind⟩
    have htake : bytes.toArray.toList.take bytes.length = bytes := List.take_length
    have hsuits : Search.Suits bytes.toArray bytes.length byte (.absent place) :=
      ⟨hplace, by simpa [Search.Above] using hbefore, by simpa [Search.Below] using hbehind⟩
    have hsize : bytes.length ≤ bytes.toArray.size := Nat.le_refl _
    have hlocates := Search.locates_of_suits hsize (by rwa [htake]) hsuits
    rw [htake] at hlocates
    exact hlocates.2
  · rintro ⟨hbelow, habove⟩
    constructor
    · by_cases hzero : place = 0
      · exact Or.inl hzero
      · have hlt : place - 1 < bytes.length := by omega
        refine Or.inr ⟨bytes[place - 1], List.getElem?_eq_getElem hlt, hbelow _ ?_⟩
        exact List.mem_take_iff_getElem.mpr ⟨place - 1, by omega, rfl⟩
    · by_cases hend : place = bytes.length
      · exact Or.inl hend
      · have hlt : place < bytes.length := by omega
        refine Or.inr ⟨bytes[place], List.getElem?_eq_getElem hlt, habove _ ?_⟩
        exact List.mem_drop_iff_getElem.mpr ⟨0, by omega, by simp⟩

theorem filterMap_keys_range (h : b.Ordered) :
    (List.range b.count).filterMap (b.keys[·]?) = b.keys.toList.take b.count := by
  have hsize : b.count ≤ b.keys.size := h.size_keys ▸ h.count_le
  refine List.ext_getElem? fun i => ?_
  have hkeys : b.keys.toList[i]? = b.keys[i]? := Array.getElem?_toList
  rw [getElem?_filterMap_of_forall, List.getElem?_take, hkeys]
  · split
    · rename_i hi
      rw [List.getElem?_range hi, Option.bind_some]
    · rename_i hi
      rw [List.getElem?_eq_none (by simpa using hi), Option.bind_none]
  · intro i hi
    have hlt : i < b.keys.size := Nat.lt_of_lt_of_le (List.mem_range.mp hi) hsize
    exact ⟨_, Array.getElem?_eq_getElem hlt⟩

/-- The bytes of the children that are there are among those in use. -/
theorem Ordered.sublist_entries (h : b.Ordered) :
    (b.entries.map Prod.fst).Sublist (b.keys.toList.take b.count) := by
  have hentries : b.entries.map Prod.fst =
      ((List.range b.count).filter fun i => (b.get? i).isSome).filterMap (b.keys[·]?) := by
    rw [entries, List.map_filterMap, List.filterMap_filter]
    refine List.filterMap_congr fun i _ => ?_
    unfold entry?
    cases b.keys[i]? <;> cases b.get? i <;> rfl
  rw [hentries, ← filterMap_keys_range h]
  exact List.filter_sublist.filterMap _

theorem Ordered.ascending_entries (h : b.Ordered) : (b.entries.map Prod.fst).Pairwise (· < ·) :=
  h.ascending.sublist h.sublist_entries

/-! ### Building a row with one more child -/

/-- The entries that a row is to have with one more child among its own. -/
def withEntry (b : Branches α) (index : Nat) (byte : UInt8) (child : α) : List (UInt8 × α) :=
  b.entries.take index ++ (byte, child) :: b.entries.drop index

theorem length_withEntry (b : Branches α) (index : Nat) (byte : UInt8) (child : α) :
    (b.withEntry index byte child).length = b.entries.length + 1 := by
  simp only [withEntry, List.length_append, List.length_take, List.length_cons, List.length_drop]
  omega

/-- A position behind the last entry means the place behind it. -/
theorem withEntry_eq_min (b : Branches α) (index : Nat) (byte : UInt8) (child : α) :
    b.withEntry index byte child = b.withEntry (min index b.entries.length) byte child := by
  rw [withEntry, withEntry, ← List.take_eq_take_min, ← List.drop_eq_drop_min]

theorem Ordered.ascending_withEntry_iff (h : b.Ordered) :
    ((b.withEntry index byte child).map Prod.fst).Pairwise (· < ·) ↔
      Parts (b.entries.map Prod.fst) (min index b.entries.length) byte := by
  rw [withEntry_eq_min, withEntry, List.map_append, List.map_cons, List.map_take, List.map_drop]
  rw [pairwise_take_cons_drop_iff h.ascending_entries, parts_iff h.ascending_entries]
  rw [List.length_map]
  exact Nat.min_le_right _ _

/-- A row can be built with a child at a position in use, if there is room for it and its
byte parts the entries there. -/
theorem Ordered.exists_insertIdx_iff (h : b.Ordered) :
    (∃ b', b.insertIdx index byte child capacity = .ok b') ↔
      index ≤ b.count ∧ b.entries.length + 1 ≤ capacity ∧
        Parts (b.entries.map Prod.fst) (min index b.entries.length) byte := by
  have hbuilds := ofEntries_eq_ok_iff (b.withEntry index byte child) capacity
  rw [length_withEntry, h.ascending_withEntry_iff] at hbuilds
  rw [insertIdx]
  split
  · rename_i hindex
    rw [and_iff_right hindex]
    exact hbuilds
  · rename_i hindex
    refine ⟨?_, fun hparts => absurd hparts.1 hindex⟩
    rintro ⟨_, ⟨⟩⟩

theorem entries_of_insertIdx (h : b.insertIdx index byte child capacity = .ok b') :
    b'.Sound ∧ b'.capacity = capacity ∧ b'.entries = b.withEntry index byte child := by
  rw [insertIdx] at h
  split at h
  · obtain ⟨hsound, hentries⟩ := sound_of_ofEntries h
    exact ⟨hsound, capacity_of_ofEntries h, hentries⟩
  · cases h

/-- The position is checked first, then the room, and the order last. -/
theorem fault_of_insertIdx {fault : Fault}
    (h : b.insertIdx index byte child capacity = .error fault) :
    fault = if b.count < index then .insertPastCount
      else if capacity < b.entries.length + 1 then .entriesPastCapacity
      else .entriesNotAscending := by
  rw [insertIdx] at h
  split at h
  · rename_i hindex
    rw [if_neg (Nat.not_lt.mpr hindex)]
    change ofEntries (b.withEntry index byte child) capacity = .error fault at h
    rw [ofEntries, length_withEntry] at h
    split at h
    · rename_i hroom
      rw [if_pos hroom]
      exact (Except.error.inj h).symm
    · rename_i hroom
      rw [if_neg hroom]
      split at h
      · cases h
      · exact (Except.error.inj h).symm
  · rename_i hindex
    rw [if_pos (Nat.lt_of_not_le hindex)]
    exact (Except.error.inj h).symm

end Branches

end ByteTrie
