import ByteTrie.Proofs.Branches

/-!
# Rows with emptied slots

A slot in use may be empty: `vacate` takes the children out and leaves the bytes
and the count. So the bytes of a row are not those of its entries, and what keeps
them in order is that no operation writes to the byte of a slot in use. A row is
`Ordered` whatever is done to it, and `Retains` says what stays of it. The byte of
an empty slot still counts when a child comes in behind it, and a search still
finds it.
-/

universe u

namespace ByteTrie

namespace Branches

variable {α : Type u} {b b' b'' : Branches α}

/-- The capacity and the bytes in use are as they were; there may be more in use. -/
structure Retains (b b' : Branches α) : Prop where
  capacity : b'.capacity = b.capacity
  count_le : b.count ≤ b'.count
  byte : ∀ index < b.count, b'.keys[index]? = b.keys[index]?

namespace Retains

theorem refl (b : Branches α) : b.Retains b := ⟨rfl, Nat.le_refl _, fun _ _ => rfl⟩

theorem trans (h : b.Retains b') (h' : b'.Retains b'') : b.Retains b'' where
  capacity := h'.capacity.trans h.capacity
  count_le := Nat.le_trans h.count_le h'.count_le
  byte index hindex :=
    (h'.byte index (Nat.lt_of_lt_of_le hindex h.count_le)).trans (h.byte index hindex)

theorem byteAt_eq (h : b.Retains b') (hb : b.Ordered) (hb' : b'.Ordered) {index : Nat}
    (hindex : index < b.count) : b'.byteAt index = b.byteAt index := by
  rw [byteAt, byteAt, Search.probe, Search.probe, h.byte index hindex, hb'.size_keys, hb.size_keys,
    h.capacity]

end Retains

/-- A row after one operation on it. -/
inductive Operated (b : Branches α) : Branches α → Prop
  | pushed {byte : UInt8} {child : α} {b' : Branches α} (pushes : b.push? byte child = some b') :
      Operated b b'
  | replaced {index : Nat} {child : α} {old : Option α} {b' : Branches α}
      (replaces : b.replace index child = .ok (old, b')) : Operated b b'
  | vacated : Operated b b.vacate.2

theorem Operated.retains (h : b.Operated b') : b.Retains b' := by
  cases h with
  | pushed hpush =>
    have hcapacity := capacity_of_push? hpush
    obtain ⟨-, rfl⟩ := push?_eq_some_iff.mp hpush
    refine ⟨hcapacity, Nat.le_succ _, fun index hindex => ?_⟩
    exact Array.getElem?_setIfInBounds_ne (Nat.ne_of_gt hindex)
  | replaced hreplace =>
    have hcapacity := capacity_of_replace hreplace
    obtain ⟨-, -, rfl⟩ := replace_eq_ok_iff.mp hreplace
    exact ⟨hcapacity, Nat.le_refl _, fun _ _ => rfl⟩
  | vacated => exact ⟨capacity_vacate b, Nat.le_refl _, fun _ _ => rfl⟩

theorem ordered_blank (capacity : Nat) : (blank capacity : Branches α).Ordered where
  size_keys := by simp [blank, Branches.capacity]
  count_le := Nat.zero_le _
  spare index _ hindex := by
    rw [capacity_blank] at hindex
    simp [blank, get?, hindex]
  ascending := List.Pairwise.nil

theorem byteAt_eq_ok_iff {index : Nat} {byte : UInt8} (hindex : index < b.count) :
    b.byteAt index = .ok byte ↔ (b.keys.toList.take b.count)[index]? = some byte := by
  rw [byteAt, Search.probe, List.getElem?_take_of_lt hindex, Array.getElem?_toList]
  cases b.keys[index]? <;> simp

namespace Ordered

variable {byte : UInt8}

theorem operated (h : b.Ordered) (hoperated : b.Operated b') : b'.Ordered := by
  have hcapacity := hoperated.retains.capacity
  cases hoperated with
  | pushed hpush => exact h.push? hpush
  | replaced hreplace => exact h.replace hreplace
  | vacated =>
    refine ⟨h.size_keys.trans hcapacity.symm, hcapacity ▸ h.count_le, fun other hcount hother => ?_,
      h.ascending⟩
    exact ⟨(h.spare other hcount (hcapacity ▸ hother)).1, get?_vacate b other⟩

theorem count_le_256 (h : b.Ordered) : b.count ≤ 256 :=
  h.length_take_keys ▸ Search.length_le_of_ascending h.ascending

/-- In a row a search has one answer for each byte. -/
theorem locate_eq (h : b.Ordered) (byte : UInt8) :
    b.locate byte = .ok (if byte ∈ b.keys.toList.take b.count
      then .found ((b.keys.toList.take b.count).countP (· < byte))
      else .absent ((b.keys.toList.take b.count).countP (· < byte))) := by
  obtain ⟨position, hlocate, hplace⟩ :=
    Search.locate_of_ascending (h.size_keys ▸ h.count_le) h.ascending byte
  rw [locate, hlocate, hplace.eq h.ascending]

/-- Only one slot in use has a byte. -/
theorem eq_iff_byteAt (h : b.Ordered) {place index : Nat}
    (hplace : (b.keys.toList.take b.count)[place]? = some byte) :
    place = index ↔ index < b.count ∧ b.byteAt index = .ok byte := by
  have hnodup : (b.keys.toList.take b.count).Nodup := h.ascending.imp UInt8.ne_of_lt
  obtain ⟨hlt, hget⟩ := List.getElem?_eq_some_iff.mp hplace
  constructor
  · rintro rfl
    have hcount := h.length_take_keys ▸ hlt
    exact ⟨hcount, (byteAt_eq_ok_iff hcount).mpr hplace⟩
  · rintro ⟨hindex, hbyte⟩
    obtain ⟨hlt', hget'⟩ := List.getElem?_eq_some_iff.mp ((byteAt_eq_ok_iff hindex).mp hbyte)
    exact hnodup.getElem_inj_iff.mp (hget.trans hget'.symm)

/-- A search answers the slot in use that has the byte, or else how many have lesser ones. -/
theorem locate_code (h : b.Ordered) (byte : UInt8) :
    ∃ code : Int, (b.locate byte).map Position.code = .ok code ∧
      (∀ index : Nat, code = index ↔ index < b.count ∧ b.byteAt index = .ok byte) ∧
      ((∀ index : Nat, code ≠ index) →
        code = ~~~((b.keys.toList.take b.count).countP (· < byte) : Int)) := by
  obtain ⟨position, hlocate, hplace⟩ :=
    Search.locate_of_ascending (h.size_keys ▸ h.count_le) h.ascending byte
  have hcode : (b.locate byte).map Position.code = .ok position.code := by
    rw [locate, hlocate]
    rfl
  have heq := hplace.eq h.ascending
  refine ⟨position.code, hcode, ?_⟩
  cases position with
  | found place =>
    refine ⟨fun index => ?_, fun hmiss => absurd rfl (hmiss place)⟩
    rw [Position.code_found, Int.ofNat_inj]
    exact h.eq_iff_byteAt hplace
  | absent place =>
    split at heq
    · cases heq
    · rename_i hnot
      obtain rfl := Position.absent.inj heq
      refine ⟨fun index => ⟨fun h => ?_, fun ⟨hindex, hbyte⟩ => ?_⟩, fun _ => rfl⟩
      · rw [Position.code_absent] at h
        omega
      · exact absurd (List.mem_of_getElem? ((byteAt_eq_ok_iff hindex).mp hbyte)) hnot

end Ordered

end Branches

end ByteTrie
