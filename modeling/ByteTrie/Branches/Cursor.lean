import ByteTrie.Branches.Basic

/-!
# Walking along a row

A cursor goes along the slots of a row up to the count that was read when it
was opened. It keeps positions only, so each step sees the row as it is at that
moment: a child replaced ahead of the cursor is met, one appended later is not,
and emptied slots are passed over.
-/

universe u

namespace ByteTrie

namespace Branches

variable {α : Type u}

/-- The first child among `more` slots from `index` on, with its position. -/
def firstFrom? (b : Branches α) (index : Nat) : Nat → Option (Nat × α)
  | 0 => none
  | more + 1 =>
      match b.get? index with
      | some child => some (index, child)
      | none => b.firstFrom? (index + 1) more

/-- A place in a row, and the place to stop at. -/
structure Cursor where
  next : Nat
  stop : Nat
  deriving DecidableEq, Repr

/-- A cursor before the first slot of a row. -/
def cursor (b : Branches α) : Cursor := ⟨0, b.count⟩

namespace Cursor

/-- An upper bound on the children still to come; there may be none. -/
def remaining (c : Cursor) : Nat := c.stop - c.next

/-- The next child of a row with its position, and the cursor behind it. -/
def step (c : Cursor) (b : Branches α) : Option (Nat × α) × Cursor :=
  match b.firstFrom? c.next c.remaining with
  | some (index, child) => (some (index, child), { c with next := index + 1 })
  | none => (none, { c with next := c.stop })

/-- The next child of a row with its byte, and the cursor behind it. -/
def stepEntry (c : Cursor) (b : Branches α) : Option (UInt8 × α) × Cursor :=
  let (child, c) := c.step b
  (child.bind fun (index, _) => b.entry? index, c)

end Cursor

theorem firstFrom?_eq_some {b : Branches α} {index more place : Nat} {child : α}
    (h : b.firstFrom? index more = some (place, child)) :
    index ≤ place ∧ place < index + more ∧ b.get? place = some child ∧
      ∀ other, index ≤ other → other < place → b.get? other = none := by
  induction more generalizing index with
  | zero => cases h
  | succ more ih =>
    simp only [firstFrom?] at h
    split at h
    · cases h
      exact ⟨Nat.le_refl _, by omega, ‹_›, fun other hother hlt => by omega⟩
    · rename_i missing
      obtain ⟨lower, upper, held, passed⟩ := ih h
      refine ⟨by omega, by omega, held, fun other hother hlt => ?_⟩
      by_cases here : other = index
      · exact here ▸ missing
      · exact passed other (by omega) hlt

theorem firstFrom?_eq_none_iff {b : Branches α} {index more : Nat} :
    b.firstFrom? index more = none ↔
      ∀ place, index ≤ place → place < index + more → b.get? place = none := by
  induction more generalizing index with
  | zero =>
    simp only [firstFrom?, true_iff]
    intro place lower upper
    omega
  | succ more ih =>
    simp only [firstFrom?]
    split
    · rename_i child held
      constructor
      · intro h
        cases h
      · intro h
        rw [h index (Nat.le_refl _) (by omega)] at held
        cases held
    · rename_i missing
      rw [ih]
      constructor
      · intro h place lower upper
        by_cases here : place = index
        · exact here ▸ missing
        · exact h place (by omega) (by omega)
      · intro h place lower upper
        exact h place (by omega) (by omega)

end Branches

end ByteTrie
