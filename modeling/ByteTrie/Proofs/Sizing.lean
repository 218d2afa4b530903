import ByteTrie.Sizing
import Mathlib.Data.List.Basic

/-!
# The room that rows are given

A row has the capacity for what it had to hold when it was made, and keeps it
while more comes in. So its capacity is not told by what it holds now, and yet
it stays within bounds: the first alphabet that serves a need gives the least room
of all that serve it, and a greater need is given no less.
-/

namespace ByteTrie

namespace Sizing

variable {sizing : Sizing} {needed count capacity : Nat}

/-- The rooms that the common alphabets come to. -/
def rooms : List Nat := alphabets.map Prod.snd ++ [maxBranches]

/-- A capacity has been chosen for as many branches as there are. -/
def Fits (sizing : Sizing) (count capacity : Nat) : Prop :=
  count ≤ capacity ∧ sizing.capacity count = .ok capacity

/-- A capacity has been chosen for no more branches than there are now, and holds them. -/
def Serves (sizing : Sizing) (count capacity : Nat) : Prop :=
  count ≤ capacity ∧ ∃ built ≤ count, sizing.capacity built = .ok capacity

/-- The capacities that a row of branches may have. -/
def Allows : Sizing → Nat → Nat → Prop
  | .exact, count, capacity => capacity = count
  | .alphabet, count, capacity =>
      capacity ∈ rooms ∧ count ≤ capacity ∧
        ∃ room, alphabet.capacity count = .ok room ∧ capacity ≤ room

theorem alphabetRoom_mem_rooms (needed : Nat) : alphabetRoom needed ∈ rooms := by
  rw [rooms, alphabetRoom, List.mem_append]
  split
  · rename_i hfind
    exact Or.inl (List.mem_map_of_mem (List.mem_of_find?_eq_some hfind))
  · exact Or.inr (List.mem_singleton_self _)

theorem alphabetRoom_le_maxBranches (needed : Nat) : alphabetRoom needed ≤ maxBranches := by
  have hrooms : ∀ room ∈ rooms, room ≤ maxBranches := by decide
  exact hrooms _ (alphabetRoom_mem_rooms needed)

/-- No alphabet that serves a need gives less room for it. -/
theorem alphabetRoom_le {entry : Nat × Nat} (hentry : entry ∈ alphabets) (h : needed ≤ entry.1) :
    alphabetRoom needed ≤ entry.2 := by
  have hascending : alphabets.Pairwise fun a b => a.2 ≤ b.2 := by decide
  unfold alphabetRoom
  split
  · rename_i most room hfind
    -- An alphabet that serves the need cannot stand before the first that does.
    obtain ⟨-, before, behind, hsplit, hbefore⟩ := List.find?_eq_some_iff_append.mp hfind
    rw [hsplit] at hentry hascending
    have hbehind := (List.pairwise_cons.mp (List.pairwise_append.mp hascending).2.1).1
    rcases List.mem_append.mp hentry with hmem | hmem
    · exact absurd h (by simpa using hbefore entry hmem)
    · rcases List.mem_cons.mp hmem with rfl | hmem
      · exact Nat.le_refl _
      · exact hbehind entry hmem
  · rename_i hfind
    exact absurd h (by simpa using List.find?_eq_none.mp hfind entry hentry)

theorem alphabetRoom_mono {needed' : Nat} (h : needed ≤ needed') :
    alphabetRoom needed ≤ alphabetRoom needed' := by
  rw [alphabetRoom.eq_def needed']
  split
  · rename_i most room hfind
    have hserves : needed' ≤ most := by simpa using List.find?_some hfind
    exact alphabetRoom_le (List.mem_of_find?_eq_some hfind) (Nat.le_trans h hserves)
  · exact alphabetRoom_le_maxBranches needed

theorem le_alphabetRoom (h : needed ≤ maxBranches) : needed ≤ alphabetRoom needed := by
  unfold alphabetRoom
  split
  · rename_i most room hfind
    have hmost : needed ≤ most := by simpa using List.find?_some hfind
    have hroom : ∀ entry ∈ alphabets, entry.1 ≤ entry.2 := by decide
    exact Nat.le_trans hmost (hroom _ (List.mem_of_find?_eq_some hfind))
  · exact h

theorem exists_capacity (sizing : Sizing) (h : needed ≤ maxBranches) :
    ∃ capacity, sizing.capacity needed = .ok capacity ∧ needed ≤ capacity := by
  cases sizing with
  | alphabet => exact ⟨_, capacity_alphabet h, le_alphabetRoom h⟩
  | exact => exact ⟨_, capacity_exact h, Nat.le_refl needed⟩

/-- A single branch is given no spare room. -/
theorem capacity_one (sizing : Sizing) : sizing.capacity 1 = .ok 1 := by
  cases sizing <;> rfl

theorem le_maxBranches_of_capacity (h : sizing.capacity needed = .ok capacity) :
    needed ≤ maxBranches := by
  by_contra hgt
  rw [capacity_of_gt sizing (Nat.lt_of_not_le hgt)] at h
  cases h

/-- More branches are given no less room. -/
theorem capacity_mono {needed' capacity' : Nat} (h : sizing.capacity needed = .ok capacity)
    (h' : sizing.capacity needed' = .ok capacity') (hle : needed ≤ needed') :
    capacity ≤ capacity' := by
  have hmax := le_maxBranches_of_capacity h
  have hmax' := le_maxBranches_of_capacity h'
  cases sizing with
  | exact =>
    rw [capacity_exact hmax] at h
    rw [capacity_exact hmax'] at h'
    exact Except.ok.inj h ▸ Except.ok.inj h' ▸ hle
  | alphabet =>
    rw [capacity_alphabet hmax] at h
    rw [capacity_alphabet hmax'] at h'
    exact Except.ok.inj h ▸ Except.ok.inj h' ▸ alphabetRoom_mono hle

namespace Fits

theorem zero (sizing : Sizing) : sizing.Fits 0 0 :=
  ⟨Nat.le_refl 0, by cases sizing <;> rfl⟩

theorem serves (h : sizing.Fits count capacity) : sizing.Serves count capacity :=
  ⟨h.1, count, Nat.le_refl count, h.2⟩

/-- A row that is made for more branches than another has no less room. -/
theorem le_of_serves (h : sizing.Fits count capacity) {count' capacity' : Nat}
    (h' : sizing.Serves count' capacity') (hle : count' ≤ count) : capacity' ≤ capacity := by
  obtain ⟨-, built, hbuilt, hcapacity⟩ := h'
  exact capacity_mono hcapacity h.2 (Nat.le_trans hbuilt hle)

end Fits

namespace Serves

/-- A row may be filled further, up to its capacity. -/
theorem mono (h : sizing.Serves count capacity) {count' : Nat} (hcount : count ≤ count')
    (hroom : count' ≤ capacity) : sizing.Serves count' capacity := by
  obtain ⟨-, built, hbuilt, hcapacity⟩ := h
  exact ⟨hroom, built, Nat.le_trans hbuilt hcount, hcapacity⟩

/-- However a row has been filled since it was made, its capacity is one that it may have. -/
theorem allows (h : sizing.Serves count capacity) : sizing.Allows count capacity := by
  obtain ⟨hcount, built, hbuilt, hcapacity⟩ := h
  have hmax := le_maxBranches_of_capacity hcapacity
  cases sizing with
  | exact =>
    rw [capacity_exact hmax] at hcapacity
    obtain rfl := Except.ok.inj hcapacity
    exact Nat.le_antisymm hbuilt hcount
  | alphabet =>
    rw [capacity_alphabet hmax] at hcapacity
    obtain rfl := Except.ok.inj hcapacity
    have hcount' := Nat.le_trans hcount (alphabetRoom_le_maxBranches built)
    exact ⟨alphabetRoom_mem_rooms built, hcount, _, capacity_alphabet hcount',
      alphabetRoom_mono hbuilt⟩

end Serves

end Sizing

end ByteTrie
