/-!
# Faults

Every checked operation of the library answers in `Except Fault`. A fault names
its cause, and `Fault.message` is the one place that words it. Sizes and
positions live below `sizeLimit`; a sum that reaches it is a fault of its own.
-/

namespace ByteTrie

/-- The first number that is not a size or a position. -/
def sizeLimit : Nat := UInt64.size

/-- Why a checked operation refused its arguments. -/
inductive Fault where
  /-- A sum of sizes reached `sizeLimit`. -/
  | sumTooLarge
  /-- A size was taken from a smaller one. -/
  | differenceNegative
  /-- A segment would run past the end of its buffer. -/
  | segmentPastBuffer
  /-- More bytes were to be kept than the segment has. -/
  | takePastSegment
  /-- More bytes were to be left out than the segment has. -/
  | dropPastSegment
  /-- A byte was asked for at or past the end of the segment. -/
  | bytePastSegment
  /-- A position at or past the end of an array of `size` elements was read. -/
  | indexOutOfBounds (size index : Nat)
  /-- Room was asked for more branches than there are byte values. -/
  | tooManyBranches
  /-- More entries were given than the capacity holds. -/
  | entriesPastCapacity
  /-- The key bytes of the entries were not strictly ascending. -/
  | entriesNotAscending
  /-- A branch was to be replaced at or past the count. -/
  | replacePastCount
  /-- A branch was to be inserted past the count. -/
  | insertPastCount
  /-- A search found a branch in a slot that holds no child. -/
  | branchVacant (index : Nat)
  /-- A segment was to be cut at one of its ends. -/
  | cutOutsideSegment
  /-- A sibling was to stand beside a branch of the same first byte. -/
  | siblingByteTaken (byte : UInt8)
  deriving DecidableEq, Repr

/-- The wording of a fault. -/
def Fault.message : Fault → String
  | .sumTooLarge => "attempt to add with overflow"
  | .differenceNegative => "attempt to subtract with overflow"
  | .segmentPastBuffer => "assertion failed: offset + length <= buffer.len()"
  | .takePastSegment => "assertion failed: length <= self.length"
  | .dropPastSegment => "assertion failed: start <= self.length"
  | .bytePastSegment => "assertion failed: pos < self.length"
  | .indexOutOfBounds size index =>
      s!"index out of bounds: the len is {size} but the index is {index}"
  | .tooManyBranches => "assertion failed: needed <= MAX_CHILDREN"
  | .entriesPastCapacity => "assertion failed: entries.len() <= capacity"
  | .entriesNotAscending => "assertion failed: entries.windows(2).all(|w| w[0].0 < w[1].0)"
  | .replacePastCount => "assertion failed: idx < self.num_children()"
  | .insertPastCount => "assertion failed: idx <= len"
  | .branchVacant index =>
      s!"internal error: entered unreachable code: child index {index} found but not published"
  | .cutOutsideSegment => "assertion failed: at > 0 && at < self.segment.len()"
  | .siblingByteTaken byte =>
      s!"assertion `left != right` failed\n  left: {byte}\n right: {byte}"

/-! ### Answers that are no fault -/

theorem exists_of_map_eq_ok {α β : Type _} {x : Except Fault α} {f : α → β} {b : β}
    (h : x.map f = .ok b) : ∃ a, x = .ok a ∧ f a = b := by
  cases x with
  | error fault => cases h
  | ok a => exact ⟨a, rfl, Except.ok.inj h⟩

theorem exists_of_bind_eq_ok {α β : Type _} {x : Except Fault α} {f : α → Except Fault β} {b : β}
    (h : x >>= f = .ok b) : ∃ a, x = .ok a ∧ f a = .ok b := by
  cases x with
  | error fault => cases h
  | ok a => exact ⟨a, rfl, h⟩

end ByteTrie
