import ByteTrie.Proofs.Search
import Mathlib.Algebra.Group.Nat.Defs

/-!
# Searching among any bytes

A search may be made among bytes in no order, and for more of them than there are.
Its answer then tells nothing about the bytes that were not looked at, but it still
stands between a lesser byte and a greater one, and a fault is always a read past
the end of the array, which only a count above its size brings about.

The ends of a bisection never add up to more than a size. They might when the count
is more than half the first number that is not a size; but then the first middle
lies past the end of any array that is less than a quarter of it.
-/

namespace ByteTrie

namespace Search

variable {keys : Array UInt8} {count : Nat} {needle : UInt8}

/-- A fault is a read past the end of the array, of a position among the `count`, and never
a sum of positions that is too large. An answer that is not negative is the index of the
needle. A negative one is the complement of a place behind a lesser byte and before a
greater one. -/
structure Bracketed (keys : Array UInt8) (count : Nat) (needle : UInt8)
    (result : Except Fault Position) : Prop where
  fault : ∀ fault, result = .error fault →
    ∃ index, fault = .indexOutOfBounds keys.size index ∧ keys.size ≤ index ∧ index < count
  answers : count ≤ keys.size → ∃ position, result = .ok position
  index : ∀ code : Int, result.map Position.code = .ok code → 0 ≤ code →
    ∃ index : Nat, code = index ∧ index < count ∧ keys[index]? = some needle
  place : ∀ code : Int, result.map Position.code = .ok code → code < 0 →
    ∃ place : Nat, code = ~~~(place : Int) ∧ place ≤ count ∧ place ≤ keys.size ∧
      (place = 0 ∨ ∃ byte, keys[place - 1]? = some byte ∧ byte < needle) ∧
      (place = count ∨ ∃ byte, keys[place]? = some byte ∧ needle < byte)

theorem Above.le_size {place : Nat} (h : Above keys needle place) : place ≤ keys.size := by
  rcases h with rfl | ⟨byte, hbyte, -⟩
  · exact Nat.zero_le _
  · obtain ⟨hlt, -⟩ := Array.getElem?_eq_some_iff.mp hbyte
    omega

/-- A search that goes by what it has read answers between two of the bytes. -/
theorem bracketed_of_reads {result : Except Fault Position}
    (h : Reads keys count (Suits keys count needle) result) :
    Bracketed keys count needle result := by
  cases result with
  | error fault =>
    obtain ⟨index, hfault, hsize, hindex⟩ := h
    refine ⟨?_, fun hcount => ?_, ?_, ?_⟩
    · rintro _ ⟨⟩
      exact ⟨index, hfault, hsize, hindex⟩
    · omega
    · rintro _ ⟨⟩
    · rintro _ ⟨⟩
  | ok position =>
    refine ⟨?_, fun _ => ⟨position, rfl⟩, ?_, ?_⟩
    · rintro _ ⟨⟩
    · rintro code ⟨⟩ hcode
      cases position with
      | found index => exact ⟨index, rfl, h.1, h.2⟩
      | absent place =>
        rw [Position.code_absent] at hcode
        omega
    · rintro code ⟨⟩ hcode
      cases position with
      | found index =>
        rw [Position.code_found] at hcode
        omega
      | absent place =>
        obtain ⟨hplace, habove, hbelow⟩ := h
        exact ⟨place, rfl, hplace, habove.le_size, habove, hbelow⟩

/-- A bisection of too many positions ends at once, with a read past the end. -/
theorem bisect_of_sizeLimit_lt (hsize : 4 * keys.size < sizeLimit) (hcount : count < sizeLimit)
    (hlarge : sizeLimit < 2 * count) :
    bisect keys count needle = .error (.indexOutOfBounds keys.size (count / 2)) := by
  have hprobe : probe keys ((0 + count) / 2) =
      .error (.indexOutOfBounds keys.size (count / 2)) := by
    rw [probe, Array.getElem?_eq_none (by omega), Nat.zero_add]
  rw [bisect, bisectBetween, if_pos (by omega), if_pos (by omega)]
  simp only [hprobe]
  rfl

theorem reads_bisect_of_lt (hsize : 4 * keys.size < sizeLimit) (hcount : count < sizeLimit) :
    Reads keys count (Suits keys count needle) (bisect keys count needle) := by
  by_cases hlarge : sizeLimit < 2 * count
  · rw [bisect_of_sizeLimit_lt hsize hcount hlarge]
    exact ⟨count / 2, rfl, by omega, by omega⟩
  · exact reads_bisect (Nat.le_of_not_lt hlarge)

/-- Whatever the bytes are and however many are claimed, both searches end with an answer
between two bytes or with a read past the end. For 256 bytes the search by count does not
look, and takes it that each has its own number. -/
theorem locate_bracketed (hsize : keys.size < 2 ^ 62) (hcount : count < 2 ^ 64) (needle : UInt8) :
    Bracketed keys count needle (bisect keys count needle) ∧
      (count ≠ 256 → Bracketed keys count needle (locate keys count needle)) := by
  have hlimit : sizeLimit = 2 ^ 64 := rfl
  have hbisect : Reads keys count (Suits keys count needle) (bisect keys count needle) :=
    reads_bisect_of_lt (by omega) (by omega)
  exact ⟨bracketed_of_reads hbisect, fun hne => bracketed_of_reads (reads_locate hbisect hne)⟩

/-- Among bytes in no order the needle is passed by, and a place beside it is answered. The
largest count of all is past the end at once. -/
theorem locate_bracketed_disordered : ∃ keys : Array UInt8, keys = #[9, 5, 1, 7] ∧
    keys.size < 2 ^ 62 ∧ Bracketed keys 4 5 (bisect keys 4 5) ∧
      Bracketed keys 4 5 (locate keys 4 5) ∧ bisect keys 4 5 = .ok (.absent 3) ∧
      Bracketed keys (2 ^ 64 - 1) 5 (bisect keys (2 ^ 64 - 1) 5) := by
  refine ⟨_, rfl, by decide, (locate_bracketed (by decide) (by decide) 5).1,
    (locate_bracketed (by decide) (by decide) 5).2 (by decide), by cbv,
    (locate_bracketed (by decide) (by decide) 5).1⟩

end Search

end ByteTrie
