import ByteTrie.Branches.Cursor
import ByteTrie.Proofs.Search

/-!
# Rows through their entries

A row of branches is described by its entries: the children that are there, each
with its byte. In a row that is `Ordered` the bytes in use are ascending and
nothing is in the slots behind them; in one that is `Sound` no slot in use is
empty either, so that a position in the row is a position among the entries.
Each operation on a sound row comes down to one on the list of its entries.
-/

universe u

namespace ByteTrie

namespace Branches

variable {α : Type u} {b : Branches α}

/-- The bytes in use are strictly ascending and the slots behind them unused. -/
structure Ordered (b : Branches α) : Prop where
  size_keys : b.keys.size = b.capacity
  count_le : b.count ≤ b.capacity
  spare : ∀ i, b.count ≤ i → i < b.capacity → b.keys[i]? = some 0 ∧ b.get? i = none
  ascending : (b.keys.toList.take b.count).Pairwise (· < ·)

/-- A row with a child in every slot that is in use. -/
structure Sound (b : Branches α) : Prop extends Ordered b where
  filled : ∀ i < b.count, (b.get? i).isSome

theorem get?_of_capacity_le {i : Nat} (h : b.capacity ≤ i) : b.get? i = none := by
  simp [get?, Array.getElem?_eq_none h]

theorem getElem?_filterMap_of_forall {β γ : Type*} {f : β → Option γ} {l : List β}
    (h : ∀ a ∈ l, ∃ c, f a = some c) (i : Nat) : (l.filterMap f)[i]? = l[i]?.bind f := by
  induction l generalizing i with
  | nil => simp
  | cons a l ih =>
    obtain ⟨c, hc⟩ := h a List.mem_cons_self
    rw [List.filterMap_cons_some hc]
    cases i with
    | zero => simp [hc]
    | succ i => simpa using ih (fun a ha => h a (List.mem_cons_of_mem _ ha)) i

theorem Ordered.get?_of_count_le (h : Ordered b) {i : Nat} (hi : b.count ≤ i) :
    b.get? i = none := by
  by_cases hcap : i < b.capacity
  · exact (h.spare i hi hcap).2
  · exact get?_of_capacity_le (Nat.le_of_not_lt hcap)

namespace Sound

theorem exists_slot (h : Sound b) {i : Nat} (hi : i < b.count) :
    ∃ byte child, b.keys[i]? = some byte ∧ b.get? i = some child ∧
      b.entry? i = some (byte, child) := by
  have hsize : i < b.keys.size := by
    have := h.count_le
    have := h.size_keys
    omega
  have hbyte : b.keys[i]? = some b.keys[i] := Array.getElem?_eq_getElem hsize
  obtain ⟨child, hchild⟩ := Option.isSome_iff_exists.mp (h.filled i hi)
  refine ⟨b.keys[i], child, hbyte, hchild, ?_⟩
  unfold entry?
  rw [hbyte, hchild]
  rfl

theorem getElem?_entries (h : Sound b) (i : Nat) :
    b.entries[i]? = if i < b.count then b.entry? i else none := by
  rw [entries, getElem?_filterMap_of_forall]
  · split
    · rename_i hi
      rw [List.getElem?_range hi, Option.bind_some]
    · rename_i hi
      rw [List.getElem?_eq_none (by simpa using hi), Option.bind_none]
  · intro j hj
    obtain ⟨byte, child, -, -, hentry⟩ := h.exists_slot (List.mem_range.mp hj)
    exact ⟨(byte, child), hentry⟩

@[simp] theorem length_entries (h : Sound b) : b.entries.length = b.count := by
  apply Nat.le_antisymm
  · simpa [entries] using List.length_filterMap_le b.entry? (List.range b.count)
  · by_contra hlt
    have hnone := List.getElem?_eq_none (Nat.le_refl b.entries.length)
    obtain ⟨byte, child, -, -, hentry⟩ := h.exists_slot (Nat.lt_of_not_le hlt)
    rw [h.getElem?_entries, if_pos (Nat.lt_of_not_le hlt), hentry] at hnone
    cases hnone

theorem get?_eq (h : Sound b) (i : Nat) : b.get? i = b.entries[i]?.map Prod.snd := by
  rw [h.getElem?_entries]
  split
  · rename_i hi
    obtain ⟨byte, child, -, hchild, hentry⟩ := h.exists_slot hi
    rw [hchild, hentry, Option.map_some]
  · rename_i hi
    exact h.get?_of_count_le (Nat.le_of_not_lt hi)

theorem map_fst_entries (h : Sound b) : b.entries.map Prod.fst = b.keys.toList.take b.count := by
  apply List.ext_getElem?
  intro i
  rw [List.getElem?_map, h.getElem?_entries, List.getElem?_take]
  split
  · rename_i hi
    obtain ⟨byte, child, hbyte, -, hentry⟩ := h.exists_slot hi
    rw [hentry, Array.getElem?_toList, hbyte, Option.map_some]
  · rfl

theorem ascending_entries (h : Sound b) : (b.entries.map Prod.fst).Pairwise (· < ·) :=
  h.map_fst_entries ▸ h.ascending

theorem locate (h : Sound b) (byte : UInt8) :
    ∃ position, b.locate byte = .ok position ∧
      Search.Locates (b.entries.map Prod.fst) byte position := by
  rw [h.map_fst_entries]
  exact Search.locate_of_ascending (h.size_keys ▸ h.count_le) h.ascending byte

end Sound

/-- A row in order is sound, and given by what is in its slots, when nothing is missing there. -/
theorem Ordered.sound_of_slots (h : Ordered b) {entries : List (UInt8 × α)}
    (hcount : b.count = entries.length) (hentry : ∀ i < b.count, b.entry? i = entries[i]?) :
    Sound b ∧ b.entries = entries := by
  have hfilled (i : Nat) (hi : i < b.count) : (b.get? i).isSome := by
    have hheld := hentry i hi
    rw [List.getElem?_eq_getElem (hcount ▸ hi), entry?] at hheld
    obtain ⟨byte, -, hchild⟩ := Option.bind_eq_some_iff.mp hheld
    obtain ⟨child, hget, -⟩ := Option.map_eq_some_iff.mp hchild
    exact hget ▸ rfl
  have hsound : Sound b := ⟨h, hfilled⟩
  refine ⟨hsound, List.ext_getElem? fun i => ?_⟩
  rw [hsound.getElem?_entries]
  split
  · rename_i hi
    exact hentry i hi
  · rename_i hi
    exact (List.getElem?_eq_none (by omega)).symm

/-- A row is given by its bytes and slots in use when nothing is behind them. -/
theorem sound_of_entries {entries : List (UInt8 × α)} (hcount : b.count = entries.length)
    (hsize : b.keys.size = b.capacity) (hcap : entries.length ≤ b.capacity)
    (hkeys : ∀ i < b.capacity, b.keys[i]? = some ((entries[i]?.map Prod.fst).getD 0))
    (hslots : ∀ i < b.capacity, b.get? i = entries[i]?.map Prod.snd)
    (hasc : (entries.map Prod.fst).Pairwise (· < ·)) : Sound b ∧ b.entries = entries := by
  have htake : b.keys.toList.take b.count = entries.map Prod.fst := by
    apply List.ext_getElem?
    intro i
    rw [List.getElem?_take, List.getElem?_map, Array.getElem?_toList]
    split
    · rename_i hi
      rw [hkeys i (by omega), List.getElem?_eq_getElem (by omega)]
      rfl
    · rename_i hi
      rw [List.getElem?_eq_none (by omega)]
      rfl
  have hordered : Ordered b := {
    size_keys := hsize
    count_le := hcount ▸ hcap
    spare := by
      intro i hi hcapi
      rw [hkeys i hcapi, hslots i hcapi, List.getElem?_eq_none (by omega)]
      exact ⟨rfl, rfl⟩
    ascending := htake ▸ hasc }
  refine hordered.sound_of_slots hcount fun i hi => ?_
  unfold entry?
  rw [hkeys i (by omega), hslots i (by omega), List.getElem?_eq_getElem (by omega)]
  rfl

theorem Sound.getElem?_keys (h : Sound b) {i : Nat} (hi : i < b.capacity) :
    b.keys[i]? = some ((b.entries[i]?.map Prod.fst).getD 0) := by
  rw [← List.getElem?_map, h.map_fst_entries, List.getElem?_take, Array.getElem?_toList]
  split
  · rw [Array.getElem?_eq_getElem (h.size_keys ▸ hi)]
    rfl
  · rename_i hcount
    exact (h.spare i (Nat.le_of_not_lt hcount) hi).1

/-- A slot has the byte of its entry, and so have slots with entries of one byte. -/
theorem Sound.keys_congr (h : Sound b) {b' : Branches α} (h' : Sound b')
    (hcapacity : b'.capacity = b.capacity) {i : Nat}
    (hbyte : b'.entries[i]?.map Prod.fst = b.entries[i]?.map Prod.fst) :
    b'.keys[i]? = b.keys[i]? := by
  by_cases hi : i < b.capacity
  · rw [h'.getElem?_keys (hcapacity ▸ hi), h.getElem?_keys hi, hbyte]
  · have hsize := h.size_keys
    have hsize' := h'.size_keys
    rw [Array.getElem?_eq_none (by omega), Array.getElem?_eq_none (by omega)]

theorem sound_of_ofEntries {entries : List (UInt8 × α)} {capacity : Nat}
    (h : ofEntries entries capacity = .ok b) : Sound b ∧ b.entries = entries := by
  obtain ⟨hfits, hasc⟩ := (ofEntries_eq_ok_iff entries capacity).mp ⟨b, h⟩
  have hcap : b.capacity = capacity := capacity_of_ofEntries h
  rw [ofEntries, if_neg (Nat.not_lt.mpr hfits),
    if_pos ((ascending_iff_pairwise _).mpr hasc), Except.ok.injEq] at h
  have hkeys (i : Nat) (hi : i < capacity) :
      b.keys[i]? = some ((entries[i]?.map Prod.fst).getD 0) := by
    rw [← h]
    by_cases hlt : i < entries.length
    · simp [Array.getElem?_append, hlt]
    · have hspare : i - entries.length < capacity - entries.length := by omega
      simp [Array.getElem?_append, hlt, hspare]
  have hslots (i : Nat) (hi : i < capacity) : b.get? i = entries[i]?.map Prod.snd := by
    rw [← h]
    by_cases hlt : i < entries.length
    · simp [get?, Array.getElem?_append, hlt]
    · have hspare : i - entries.length < capacity - entries.length := by omega
      simp [get?, Array.getElem?_append, hlt, hspare]
  have hsize : b.keys.size = b.capacity := by
    rw [← h]
    simp [Branches.capacity]
  have hcount : b.count = entries.length := by rw [← h]
  exact sound_of_entries hcount hsize (hcap ▸ hfits) (hcap ▸ hkeys) (hcap ▸ hslots) hasc

/-- Bytes stay as they are when a child is replaced. -/
theorem map_fst_set {entries : List (UInt8 × α)} {i : Nat} {byte : UInt8} {old new : α}
    (hi : entries[i]? = some (byte, old)) :
    (entries.set i (byte, new)).map Prod.fst = entries.map Prod.fst := by
  obtain ⟨hlt, hget⟩ := List.getElem?_eq_some_iff.mp hi
  apply List.ext_getElem?
  intro j
  rw [List.getElem?_map, List.getElem?_map, List.getElem?_set]
  split
  · rename_i heq
    simp [← heq, hlt, hget]
  · rfl

/-! ### A child for a slot -/

/-- A slot that is given a child has it, and the others have what they had. -/
theorem get?_setIfInBounds {keys : Array UInt8} {count index : Nat} (hindex : index < b.capacity)
    (child : α) (i : Nat) :
    (⟨keys, b.slots.setIfInBounds index (some child), count⟩ : Branches α).get? i =
      if index = i then some child else b.get? i := by
  rw [get?, Array.getElem?_setIfInBounds, if_pos (show index < b.slots.size from hindex)]
  split <;> rfl

theorem replace_eq_ok_iff {b' : Branches α} {index : Nat} {child : α} {old : Option α} :
    b.replace index child = .ok (old, b') ↔
      index < b.count ∧ old = b.get? index ∧
        b' = { b with slots := b.slots.setIfInBounds index (some child) } := by
  rw [replace]
  split
  · rename_i hindex
    rw [Except.ok.injEq, Prod.mk.injEq, eq_comm (a := old), eq_comm (a := b'), and_iff_right hindex]
  · rename_i hindex
    refine ⟨?_, fun h => absurd h.1 hindex⟩
    rintro ⟨⟩

theorem capacity_of_replace {b' : Branches α} {index : Nat} {child : α} {old : Option α}
    (hreplace : b.replace index child = .ok (old, b')) : b'.capacity = b.capacity := by
  obtain ⟨-, -, rfl⟩ := replace_eq_ok_iff.mp hreplace
  exact Array.size_setIfInBounds

theorem Ordered.replace (h : Ordered b) {b' : Branches α} {index : Nat} {child : α}
    {old : Option α} (hreplace : b.replace index child = .ok (old, b')) : Ordered b' := by
  have hcapacity := capacity_of_replace hreplace
  obtain ⟨hindex, -, rfl⟩ := replace_eq_ok_iff.mp hreplace
  have hroom := Nat.lt_of_lt_of_le hindex h.count_le
  refine ⟨h.size_keys.trans hcapacity.symm, hcapacity ▸ h.count_le, fun i hcount hi => ?_,
    h.ascending⟩
  rw [get?_setIfInBounds hroom, if_neg (Nat.ne_of_lt (Nat.lt_of_lt_of_le hindex hcount))]
  exact h.spare i hcount (hcapacity ▸ hi)

theorem Sound.replace (h : Sound b) {i : Nat} {byte : UInt8} {old : α}
    (hi : b.entries[i]? = some (byte, old)) (child : α) :
    ∃ b', b.replace i child = .ok (some old, b') ∧ Sound b' ∧ b'.capacity = b.capacity ∧
      b'.entries = b.entries.set i (byte, child) := by
  obtain ⟨hlt, hget⟩ := List.getElem?_eq_some_iff.mp hi
  have hcount : i < b.count := h.length_entries ▸ hlt
  have hroom : i < b.capacity := Nat.lt_of_lt_of_le hcount h.count_le
  have hold : b.get? i = some old := by rw [h.get?_eq, hi, Option.map_some]
  have hreplace : b.replace i child =
      .ok (some old, { b with slots := b.slots.setIfInBounds i (some child) }) :=
    replace_eq_ok_iff.mpr ⟨hcount, hold.symm, rfl⟩
  refine ⟨_, hreplace, and_left_comm.mp ⟨capacity_of_replace hreplace, ?_⟩⟩
  have hlength : b.count = (b.entries.set i (byte, child)).length := by
    rw [List.length_set, h.length_entries]
  refine (h.toOrdered.replace hreplace).sound_of_slots hlength fun j hj => ?_
  rw [List.getElem?_set, entry?, get?_setIfInBounds hroom]
  split
  · rename_i heq
    subst heq
    rw [h.getElem?_keys hroom, hi]
    rfl
  · rw [h.getElem?_entries, if_pos hj, entry?]

/-! ### A child behind the last -/

theorem Ordered.length_take_keys (h : Ordered b) :
    (b.keys.toList.take b.count).length = b.count :=
  Search.length_take_of_le (h.size_keys ▸ h.count_le)

theorem Ordered.lastByte?_eq (h : Ordered b) :
    b.lastByte? = (b.keys.toList.take b.count).getLast? := by
  rw [lastByte?, List.getLast?_eq_getElem?, h.length_take_keys]
  split
  · rename_i hzero
    rw [hzero, List.take_zero, List.getElem?_nil]
  · rename_i hpos
    rw [List.getElem?_take_of_lt (by omega), Array.getElem?_toList]

/-- Of ascending bytes the last one tells whether all are below another byte. -/
theorem forall_lt_iff_getLast? {bytes : List UInt8} (h : bytes.Pairwise (· < ·)) (byte : UInt8) :
    (∀ other ∈ bytes, other < byte) ↔ bytes.getLast?.all (· < byte) = true := by
  cases hlast : bytes.getLast? with
  | none =>
    rw [List.getLast?_eq_none_iff.mp hlast]
    simp
  | some last =>
    obtain ⟨front, rfl⟩ := List.getLast?_eq_some_iff.mp hlast
    rw [Option.all_some, decide_eq_true_eq]
    refine ⟨fun hall => hall last (List.mem_append_right _ (List.mem_singleton_self _)), ?_⟩
    intro hlt other hother
    rcases List.mem_append.mp hother with hfirst | hsame
    · have hstep := (List.pairwise_append.mp h).2.2 other hfirst last List.mem_cons_self
      exact UInt8.lt_trans hstep hlt
    · exact List.mem_singleton.mp hsame ▸ hlt

/-- Ascending bytes stay so when one comes in behind the last. -/
theorem pairwise_concat {bytes : List UInt8} {byte : UInt8} (h : bytes.Pairwise (· < ·))
    (hlast : bytes.getLast?.all (· < byte)) : (bytes ++ [byte]).Pairwise (· < ·) := by
  refine List.pairwise_append.mpr ⟨h, List.pairwise_singleton _ _, fun other hother _ hbyte => ?_⟩
  exact List.mem_singleton.mp hbyte ▸ (forall_lt_iff_getLast? h byte).mpr hlast other hother

theorem getElem?_concat_of_ne {β : Type*} {l : List β} {a : β} {i : Nat} (h : i ≠ l.length) :
    (l ++ [a])[i]? = l[i]? := by
  rcases Nat.lt_or_gt_of_ne h with hlt | hgt
  · exact List.getElem?_append_left hlt
  · rw [List.getElem?_eq_none (Nat.le_of_lt hgt), List.getElem?_eq_none]
    rw [List.length_append]
    exact hgt

theorem push?_eq_some_iff {b' : Branches α} {byte : UInt8} {child : α} :
    b.push? byte child = some b' ↔
      (b.count < b.capacity ∧ b.lastByte?.all (· < byte)) ∧
        b' = ⟨b.keys.setIfInBounds b.count byte, b.slots.setIfInBounds b.count (some child),
          b.count + 1⟩ := by
  rw [push?, Option.ite_none_right_eq_some, Option.some.injEq, eq_comm (a := b')]

/-- Behind the last byte in use there is room for a greater one. -/
theorem Ordered.push? (h : Ordered b) {b' : Branches α} {byte : UInt8} {child : α}
    (hpush : b.push? byte child = some b') : Ordered b' := by
  have hcapacity := capacity_of_push? hpush
  obtain ⟨⟨hroom, hlast⟩, rfl⟩ := push?_eq_some_iff.mp hpush
  have hkeys : (b.keys.setIfInBounds b.count byte).toList.take (b.count + 1) =
      b.keys.toList.take b.count ++ [byte] := by
    rw [Array.toList_setIfInBounds, List.take_add_one, List.take_set_of_le (Nat.le_refl _),
      List.getElem?_set_self (by simpa using h.size_keys ▸ hroom), Option.toList_some]
  refine ⟨?_, ?_, fun i hcount hi => ?_, ?_⟩
  · rw [hcapacity, Array.size_setIfInBounds, h.size_keys]
  · rw [hcapacity]
    exact hroom
  · have hne : b.count ≠ i := Nat.ne_of_lt hcount
    rw [get?_setIfInBounds hroom, if_neg hne, Array.getElem?_setIfInBounds_ne hne]
    exact h.spare i (Nat.le_of_lt hcount) (hcapacity ▸ hi)
  · rw [hkeys]
    exact pairwise_concat h.ascending (h.lastByte?_eq ▸ hlast)

theorem Sound.push? (h : Sound b) {b' : Branches α} {byte : UInt8} {child : α}
    (hpush : b.push? byte child = some b') :
    Sound b' ∧ b'.entries = b.entries ++ [(byte, child)] := by
  have hordered := h.toOrdered.push? hpush
  obtain ⟨⟨hroom, -⟩, rfl⟩ := push?_eq_some_iff.mp hpush
  have hlength : b.count + 1 = (b.entries ++ [(byte, child)]).length := by
    rw [List.length_append, h.length_entries, List.length_singleton]
  refine hordered.sound_of_slots hlength fun i hi => ?_
  unfold entry?
  rw [get?_setIfInBounds hroom]
  by_cases heq : b.count = i
  · rw [if_pos heq, ← heq, Array.getElem?_setIfInBounds_self_of_lt (h.size_keys ▸ hroom),
      ← h.length_entries, List.getElem?_concat_length]
    rfl
  · rw [if_neg heq, Array.getElem?_setIfInBounds_ne heq,
      getElem?_concat_of_ne (h.length_entries ▸ Ne.symm heq), h.getElem?_entries,
      if_pos (Nat.lt_of_le_of_ne (Nat.le_of_lt_succ hi) (Ne.symm heq)), entry?]

/-! ### A child among the others -/

/-- Bytes stay ascending when one comes in exactly when it is above those before it and below
those behind. -/
theorem pairwise_take_cons_drop_iff {bytes : List UInt8} {index : Nat} {byte : UInt8}
    (h : bytes.Pairwise (· < ·)) :
    (bytes.take index ++ byte :: bytes.drop index).Pairwise (· < ·) ↔
      (∀ other ∈ bytes.take index, other < byte) ∧ ∀ other ∈ bytes.drop index, byte < other := by
  have hsplit := h
  rw [← List.take_append_drop index bytes, List.pairwise_append] at hsplit
  obtain ⟨htake, hdrop, hcross⟩ := hsplit
  rw [List.pairwise_append, List.pairwise_cons]
  constructor
  · rintro ⟨-, ⟨habove, -⟩, hbelow⟩
    exact ⟨fun other hother => hbelow other hother byte List.mem_cons_self, habove⟩
  · rintro ⟨hbelow, habove⟩
    refine ⟨htake, ⟨habove, hdrop⟩, fun before hbefore after hafter => ?_⟩
    rcases List.mem_cons.mp hafter with rfl | hafter
    · exact hbelow before hbefore
    · exact hcross before hbefore after hafter

/-- The entries stay in order when a child comes in where its byte belongs. -/
theorem Sound.ascending_insertIdx (h : Sound b) {index : Nat} {byte : UInt8} (child : α)
    (hplace : Search.Locates (b.entries.map Prod.fst) byte (.absent index)) :
    ((b.entries.take index ++ (byte, child) :: b.entries.drop index).map Prod.fst).Pairwise
      (· < ·) := by
  rw [List.map_append, List.map_cons, List.map_take, List.map_drop]
  exact (pairwise_take_cons_drop_iff h.ascending_entries).mpr hplace.2

theorem Sound.length_insertIdx (h : Sound b) (index : Nat) (entry : UInt8 × α) :
    (b.entries.take index ++ entry :: b.entries.drop index).length = b.count + 1 := by
  simp only [List.length_append, List.length_take, List.length_cons, List.length_drop,
    h.length_entries]
  omega

/-- A byte that is missing leaves one of the possible branches free. -/
theorem Sound.count_lt (h : Sound b) {index : Nat} {byte : UInt8} (child : α)
    (hplace : Search.Locates (b.entries.map Prod.fst) byte (.absent index)) : b.count < 256 := by
  have hlength := Search.length_le_of_ascending (h.ascending_insertIdx child hplace)
  rw [List.length_map, h.length_insertIdx] at hlength
  exact hlength

/-- One more child finds its place when there is room for it. -/
theorem Sound.insertIdx (h : Sound b) {index capacity : Nat} {byte : UInt8} (child : α)
    (hplace : Search.Locates (b.entries.map Prod.fst) byte (.absent index))
    (hroom : b.count < capacity) :
    ∃ b', b.insertIdx index byte child capacity = .ok b' ∧ Sound b' ∧ b'.capacity = capacity ∧
      b'.entries = b.entries.take index ++ (byte, child) :: b.entries.drop index := by
  have hle : index ≤ b.count := by
    have hle := hplace.1
    rwa [List.length_map, h.length_entries] at hle
  obtain ⟨b', hb'⟩ := (ofEntries_eq_ok_iff _ capacity).mpr
    ⟨(h.length_insertIdx index (byte, child)).trans_le hroom, h.ascending_insertIdx child hplace⟩
  obtain ⟨hsound, hentries⟩ := sound_of_ofEntries hb'
  refine ⟨b', ?_, hsound, capacity_of_ofEntries hb', hentries⟩
  rw [Branches.insertIdx, if_pos hle, hb']

end Branches

end ByteTrie
