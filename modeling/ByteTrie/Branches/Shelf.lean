import ByteTrie.Branches.Cursor

/-!
# Rows in use

A shelf holds rows that are used by themselves, and the cursors that are open on
them. Both are known by number in the order of their making. A call that is
answered with a fault leaves the shelf as it was, and later calls go on from there.
-/

universe u

namespace ByteTrie

/-- Rows, and the cursors that are open on them. -/
structure Shelf (α : Type u) where
  rows : Array (Branches α)
  /-- Each cursor with the number of its row. -/
  cursors : Array (Nat × Branches.Cursor)

namespace Shelf

variable {α : Type u}

/-- What can be done with the rows of a shelf. -/
inductive Call (α : Type u) where
  | blank (capacity : Nat)
  | ofEntries (entries : List (UInt8 × α)) (capacity : Nat)
  | insertIdx (row index : Nat) (byte : UInt8) (child : α) (capacity : Nat)
  | push (row : Nat) (byte : UInt8) (child : α)
  | replace (row index : Nat) (child : α)
  | vacate (row : Nat)
  | cursor (row : Nat)
  | step (cursor : Nat)

/-- What a call is answered with. -/
inductive Answer (α : Type u) where
  /-- The number of a new row. -/
  | made (row : Nat)
  | pushed
  /-- The row did not take the child, which is handed back. -/
  | refused (child : α)
  | replaced (old : Option α)
  | vacated (children : List α)
  /-- The number of a new cursor. -/
  | opened (cursor : Nat)
  | met (entry : Option (UInt8 × α))

/-- A shelf without rows. -/
def empty : Shelf α := ⟨#[], #[]⟩

/-- The row with a number; one that was never made has no slots. -/
def row (s : Shelf α) (id : Nat) : Branches α := s.rows.getD id (Branches.blank 0)

/-- Put a new row on the shelf. -/
def add (s : Shelf α) (b : Branches α) : Answer α × Shelf α :=
  (.made s.rows.size, { s with rows := s.rows.push b })

/-- Put a changed row in the place of the old one. -/
def setRow (s : Shelf α) (id : Nat) (b : Branches α) : Shelf α :=
  { s with rows := s.rows.setIfInBounds id b }

/-- Answer a call, unless it is at fault. -/
def call (s : Shelf α) : Call α → Except Fault (Answer α × Shelf α)
  | .blank capacity => .ok (s.add (Branches.blank capacity))
  | .ofEntries entries capacity => (Branches.ofEntries entries capacity).map s.add
  | .insertIdx row index byte child capacity =>
      ((s.row row).insertIdx index byte child capacity).map s.add
  | .push row byte child =>
      match (s.row row).push? byte child with
      | some changed => .ok (.pushed, s.setRow row changed)
      | none => .ok (.refused child, s)
  | .replace row index child =>
      ((s.row row).replace index child).map fun (old, changed) =>
        (.replaced old, s.setRow row changed)
  | .vacate row =>
      let (children, changed) := (s.row row).vacate
      .ok (.vacated children, s.setRow row changed)
  | .cursor row =>
      .ok (.opened s.cursors.size, { s with cursors := s.cursors.push (row, (s.row row).cursor) })
  | .step cursor =>
      let (row, before) := s.cursors.getD cursor (0, ⟨0, 0⟩)
      let (entry, after) := before.stepEntry (s.row row)
      .ok (.met entry, { s with cursors := s.cursors.setIfInBounds cursor (row, after) })

/-- Answer a call; one at fault changes nothing. -/
def perform (s : Shelf α) (c : Call α) : Except Fault (Answer α) × Shelf α :=
  match s.call c with
  | .ok (answer, s) => (.ok answer, s)
  | .error fault => (.error fault, s)

/-- Answer several calls one after the other. -/
def performAll (s : Shelf α) : List (Call α) → List (Except Fault (Answer α)) × Shelf α
  | [] => ([], s)
  | c :: rest =>
      let (answer, s) := s.perform c
      let (later, s) := s.performAll rest
      (answer :: later, s)

end Shelf

end ByteTrie
