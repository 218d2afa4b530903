import ByteTrie.Fault

/-!
# Room for branches

A row of branches that has to be built anew is given a capacity. Rounding it up
to the size of a common alphabet keeps later rebuilds rare; taking exactly what
is needed wastes nothing.
-/

namespace ByteTrie

/-- The most branches a node can have: one for each byte value. -/
def maxBranches : Nat := 256

/-- How much room a new row of branches is given. -/
inductive Sizing where
  /-- The size of the smallest common alphabet that holds what is needed. -/
  | alphabet
  /-- What is needed and no more. -/
  | exact
  deriving DecidableEq, Repr

namespace Sizing

instance : Inhabited Sizing := ⟨.alphabet⟩

/-- The alphabets, each as the largest need it serves and the room it gives. -/
def alphabets : List (Nat × Nat) :=
  [(0, 0), (1, 1), (3, 4), (10, 10), (15, 16), (31, 32), (64, 65), (94, 95), (127, 128)]

/-- The room of the first alphabet that serves the need, or a branch for every
byte value when none does. -/
def alphabetRoom (needed : Nat) : Nat :=
  match alphabets.find? fun (most, _) => needed ≤ most with
  | some (_, room) => room
  | none => maxBranches

/-- The capacity of a new row that must hold `needed` branches. -/
def capacity (sizing : Sizing) (needed : Nat) : Except Fault Nat :=
  if needed ≤ maxBranches then
    match sizing with
    | .alphabet => .ok (alphabetRoom needed)
    | .exact => .ok needed
  else .error .tooManyBranches

theorem capacity_exact {needed : Nat} (h : needed ≤ maxBranches) :
    exact.capacity needed = .ok needed := by
  simp [capacity, h]

theorem capacity_alphabet {needed : Nat} (h : needed ≤ maxBranches) :
    alphabet.capacity needed = .ok (alphabetRoom needed) := by
  simp [capacity, h]

theorem capacity_of_gt (sizing : Sizing) {needed : Nat} (h : maxBranches < needed) :
    sizing.capacity needed = .error .tooManyBranches := by
  simp [capacity, Nat.not_le.mpr h]

end Sizing

end ByteTrie
