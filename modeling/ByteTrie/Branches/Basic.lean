import ByteTrie.Search
import ByteTrie.Sizing

/-!
# Rows of branches

The branches out of a node stand in a row of slots, sorted by the byte that
each begins with. A row has a fixed capacity; its first `count` slots are in
use, and a slot in use may have been emptied. Unused slots hold the byte 0 and
no child.

A child is appended in place while there is room behind the last byte. Anywhere
else it is inserted by building a new row from the entries of the old one,
which are its children that are still there, each with its byte.
-/

universe u

namespace ByteTrie

/-- A row of slots for children, sorted by their bytes. -/
structure Branches (α : Type u) where
  /-- The byte of each slot. -/
  keys : Array UInt8
  /-- The child in each slot. -/
  slots : Array (Option α)
  /-- How many slots are in use. -/
  count : Nat
  deriving Repr, DecidableEq

namespace Branches

variable {α : Type u}

/-- How many slots there are. -/
def capacity (b : Branches α) : Nat := b.slots.size

/-- A row in which no slot is in use. -/
def blank (capacity : Nat) : Branches α :=
  ⟨Array.replicate capacity 0, Array.replicate capacity none, 0⟩

/-- The child in a slot. -/
def get? (b : Branches α) (index : Nat) : Option α := b.slots[index]?.join

/-- The byte of a slot, which must lie within the capacity. -/
def byteAt (b : Branches α) (index : Nat) : Except Fault UInt8 := Search.probe b.keys index

/-- The child in a slot, with its byte. -/
def entry? (b : Branches α) (index : Nat) : Option (UInt8 × α) :=
  b.keys[index]?.bind fun byte => (b.get? index).map fun child => (byte, child)

/-- The children that are there, each with its byte, in order. -/
def entries (b : Branches α) : List (UInt8 × α) := (List.range b.count).filterMap b.entry?

/-- The byte of the last slot in use. -/
def lastByte? (b : Branches α) : Option UInt8 :=
  if b.count = 0 then none else b.keys[b.count - 1]?

/-- The slot of a byte, or where a slot for it would go. -/
def locate (b : Branches α) (byte : UInt8) : Except Fault Position :=
  Search.locate b.keys b.count byte

/-- Each byte is below the next. -/
def ascending : List UInt8 → Bool
  | first :: second :: rest => first < second && ascending (second :: rest)
  | _ => true

/-- A row of the given capacity that holds entries in strictly ascending order. -/
def ofEntries (entries : List (UInt8 × α)) (capacity : Nat) : Except Fault (Branches α) :=
  if capacity < entries.length then .error .entriesPastCapacity
  else if ascending (entries.map Prod.fst) then
    let unused := capacity - entries.length
    .ok {
      keys := (entries.map Prod.fst).toArray ++ Array.replicate unused 0
      slots := (entries.map fun entry => some entry.2).toArray ++ Array.replicate unused none
      count := entries.length }
  else .error .entriesNotAscending

/-- Put a child into a slot in use, and say what it replaces. -/
def replace (b : Branches α) (index : Nat) (child : α) :
    Except Fault (Option α × Branches α) :=
  if index < b.count then
    .ok (b.get? index, { b with slots := b.slots.setIfInBounds index (some child) })
  else .error .replacePastCount

/-- Append a child behind the last one. There is no row when no slot is left or
the byte does not come after the last. -/
def push? (b : Branches α) (byte : UInt8) (child : α) : Option (Branches α) :=
  if b.count < b.capacity ∧ b.lastByte?.all (· < byte) then
    some {
      keys := b.keys.setIfInBounds b.count byte
      slots := b.slots.setIfInBounds b.count (some child)
      count := b.count + 1 }
  else none

/-- A new row of the given capacity: the entries with one more among them. -/
def insertIdx (b : Branches α) (index : Nat) (byte : UInt8) (child : α) (capacity : Nat) :
    Except Fault (Branches α) :=
  if index ≤ b.count then
    ofEntries (b.entries.take index ++ (byte, child) :: b.entries.drop index) capacity
  else .error .insertPastCount

/-- Empty every slot, and say which children were there. Bytes and count stay. -/
def vacate (b : Branches α) : List α × Branches α :=
  (b.slots.toList.filterMap id, { b with slots := Array.replicate b.capacity none })

@[simp] theorem capacity_blank (capacity : Nat) :
    (blank capacity : Branches α).capacity = capacity := by
  simp [Branches.capacity, blank]

@[simp] theorem count_blank (capacity : Nat) : (blank capacity : Branches α).count = 0 := rfl

@[simp] theorem entries_blank (capacity : Nat) : (blank capacity : Branches α).entries = [] := rfl

@[simp] theorem capacity_vacate (b : Branches α) : b.vacate.2.capacity = b.capacity := by
  simp [vacate, Branches.capacity]

theorem get?_vacate (b : Branches α) (index : Nat) : b.vacate.2.get? index = none := by
  simp only [vacate, get?, Array.getElem?_replicate]
  split <;> rfl

theorem ascending_iff_pairwise (bytes : List UInt8) :
    ascending bytes = true ↔ bytes.Pairwise (· < ·) := by
  induction bytes with
  | nil => simp [ascending]
  | cons first rest ih =>
    cases rest with
    | nil => simp [ascending]
    | cons second rest =>
      rw [ascending, Bool.and_eq_true, ih, List.pairwise_cons]
      simp only [decide_eq_true_eq, List.mem_cons, List.pairwise_cons]
      constructor
      · rintro ⟨below, above, sorted⟩
        refine ⟨?_, above, sorted⟩
        rintro byte (rfl | later)
        · exact below
        · exact UInt8.lt_trans below (above byte later)
      · rintro ⟨below, above, sorted⟩
        exact ⟨below second (Or.inl rfl), above, sorted⟩

theorem ofEntries_eq_ok_iff (entries : List (UInt8 × α)) (capacity : Nat) :
    (∃ b, ofEntries entries capacity = .ok b) ↔
      entries.length ≤ capacity ∧ (entries.map Prod.fst).Pairwise (· < ·) := by
  rw [← ascending_iff_pairwise]
  unfold ofEntries
  by_cases fits : entries.length ≤ capacity
  · have notLong : ¬capacity < entries.length := Nat.not_lt.mpr fits
    by_cases sorted : ascending (entries.map Prod.fst) <;> simp [fits, notLong, sorted]
  · have long : capacity < entries.length := Nat.lt_of_not_le fits
    simp [fits, long]

theorem capacity_of_ofEntries {entries : List (UInt8 × α)} {capacity : Nat} {b : Branches α}
    (h : ofEntries entries capacity = .ok b) : b.capacity = capacity := by
  unfold ofEntries at h
  split at h
  · cases h
  · split at h
    · cases h
      simp only [Branches.capacity, Array.size_append, List.size_toArray, List.length_map,
        Array.size_replicate]
      omega
    · cases h

theorem capacity_of_push? {b c : Branches α} {byte : UInt8} {child : α}
    (h : b.push? byte child = some c) : c.capacity = b.capacity := by
  unfold push? at h
  split at h
  · cases h
    simp [Branches.capacity]
  · cases h

end Branches

end ByteTrie
