import ByteTrie.Proofs.Key.CommonPrefix
import ByteTrie.Proofs.Key.Order
import Mathlib.Order.Defs.Unbundled

/-!
# Keys compared by what they have in common

Behind their common prefix two keys both end, one of them goes on, or they go on with
different bytes (`Parting`). What comparing them answers is read off these cases: a key
that ends is before one that goes on, and else the two bytes decide, whatever comes behind
them. The keys that start with a given one are therefore next to each other in the order.
-/

namespace ByteTrie

namespace Key

variable {a b c p stem : Key}

/-- Two keys have the same first `n` bytes. -/
structure Agree (a b : Key) (n : Nat) : Prop where
  le_left : n ≤ a.length
  le_right : n ≤ b.length
  take_eq : a.take n = b.take n

/-- How two keys go on behind a stem of both. -/
inductive Parting : Key → Key → Key → Prop where
  | same (a : Key) : Parting a a a
  | leftEnds (a : Key) (byte : UInt8) (rest : Key) : Parting a (a ++ byte :: rest) a
  | rightEnds (b : Key) (byte : UInt8) (rest : Key) : Parting (b ++ byte :: rest) b b
  | differ (stem : Key) {x y : UInt8} (h : x ≠ y) (a b : Key) :
      Parting (stem ++ x :: a) (stem ++ y :: b) stem

/-! ### The common prefix -/

theorem Parting.cons (byte : UInt8) (h : Parting a b stem) :
    Parting (byte :: a) (byte :: b) (byte :: stem) := by
  cases h with
  | same => exact .same (byte :: a)
  | leftEnds _ x rest => exact .leftEnds (byte :: a) x rest
  | rightEnds _ x rest => exact .rightEnds (byte :: b) x rest
  | differ _ h a b => exact .differ (byte :: stem) h a b

theorem parting_commonPrefix (a b : Key) : Parting a b (commonPrefix a b) := by
  induction a generalizing b with
  | nil =>
    cases b with
    | nil => exact .same []
    | cons y b => exact .leftEnds [] y b
  | cons x a ih =>
    cases b with
    | nil => exact .rightEnds [] x a
    | cons y b =>
      rw [commonPrefix_cons]
      split
      · subst y
        exact (ih b).cons x
      · exact .differ [] ‹x ≠ y› a b

/-- Two keys agree as far as their common prefix reaches, and no further. -/
theorem agree_iff {n : Nat} : Agree a b n ↔ n ≤ (commonPrefix a b).length := by
  have hleft := commonPrefix_isPrefix_left a b
  have hright := commonPrefix_isPrefix_right a b
  constructor
  · intro h
    have hboth : a.take n <+: commonPrefix a b :=
      isPrefix_commonPrefix (List.take_prefix n a) (h.take_eq ▸ List.take_prefix n b)
    calc n = (a.take n).length := (List.length_take_of_le h.le_left).symm
      _ ≤ (commonPrefix a b).length := hboth.length_le
  · intro h
    have htake : ∀ key : Key, commonPrefix a b <+: key →
        key.take n = (commonPrefix a b).take n := by
      rintro key ⟨rest, hrest⟩
      rw [← hrest, List.take_append_of_le_length h]
    exact ⟨Nat.le_trans h hleft.length_le, Nat.le_trans h hright.length_le,
      (htake a hleft).trans (htake b hright).symm⟩

/-! ### Comparing -/

theorem compare_append_left (stem a b : Key) :
    compare (stem ++ a) (stem ++ b) = compare a b := by
  induction stem with
  | nil => rfl
  | cons byte stem ih =>
    rw [List.cons_append, List.cons_append, List.compare_cons_cons, ih,
      Std.compare_self, Ordering.eq_then]

theorem compare_append_cons (a : Key) (byte : UInt8) (rest : Key) :
    compare a (a ++ byte :: rest) = .lt := by
  simpa using compare_append_left a [] (byte :: rest)

/-- What comes behind the bytes that differ counts for nothing. -/
theorem compare_of_differ (stem : Key) {x y : UInt8} (h : x ≠ y) (a b : Key) :
    compare (stem ++ x :: a) (stem ++ y :: b) = compare x y := by
  rw [compare_append_left, List.compare_cons_cons]
  cases hxy : compare x y with
  | lt => rfl
  | eq => exact absurd (Std.LawfulEqCmp.compare_eq_iff_eq.mp hxy) h
  | gt => rfl

theorem compare_eq_lt_iff_lt : compare a b = .lt ↔ a < b := by
  induction a generalizing b with
  | nil => cases b <;> simp [List.compare_nil_cons]
  | cons x a ih =>
    cases b with
    | nil => simp [List.compare_cons_nil]
    | cons y b =>
      rw [List.compare_cons_cons, Ordering.then_eq_lt, List.cons_lt_cons_iff, ih,
        Std.compare_eq_lt, Std.LawfulEqCmp.compare_eq_iff_eq]

theorem Parting.compare_eq_lt_iff (h : Parting a b stem) :
    compare a b = .lt ↔ stem.length = a.length ∧ a.length < b.length ∨
      ∃ (ha : stem.length < a.length) (hb : stem.length < b.length),
        a[stem.length] < b[stem.length] := by
  cases h with
  | same => simp
  | leftEnds _ byte rest => simp [compare_append_cons]
  | rightEnds _ byte rest =>
    simp [Std.OrientedCmp.gt_of_lt (compare_append_cons b byte rest)]
  | differ _ h a b => simp [compare_of_differ stem h, Std.compare_eq_lt]

/-- Between keys that start with another there are only keys that start with it. -/
theorem isPrefix_of_between (hab : (compare a b).isLE) (hbc : (compare b c).isLE)
    (ha : p <+: a) (hc : p <+: c) : p <+: b := by
  obtain ⟨a, rfl⟩ := ha
  obtain ⟨c, rfl⟩ := hc
  have hparting := parting_commonPrefix p b
  generalize commonPrefix p b = stem at hparting
  cases hparting with
  | same => exact List.prefix_rfl
  | leftEnds p byte rest => exact List.prefix_append p _
  | rightEnds _ byte rest =>
    -- A key that ends within `p` is before all that start with `p`.
    have hlt : compare b (b ++ byte :: rest ++ a) = .lt := by
      simpa using compare_append_cons b byte (rest ++ a)
    exact absurd hab (Std.OrientedCmp.not_isLE_of_lt hlt)
  | differ _ h p b =>
    -- One that departs from `p` is on the same side of all that start with `p`.
    rw [List.append_assoc, List.cons_append, compare_of_differ stem h] at hab
    rw [List.append_assoc, List.cons_append, compare_of_differ stem h.symm] at hbc
    exact absurd (Std.LawfulEqCmp.compare_eq_iff_eq.mp (Std.OrientedCmp.isLE_antisymm hab hbc)) h

theorem isLinearOrder_compare : IsLinearOrder Key fun a b => (compare a b).isLE where
  refl _ := Std.ReflCmp.isLE_rfl
  trans _ _ _ := Std.TransCmp.isLE_trans
  antisymm _ _ hab hba :=
    Std.LawfulEqCmp.compare_eq_iff_eq.mp (Std.OrientedCmp.isLE_antisymm hab hba)
  total a b := by
    have hswap : compare b a = (compare a b).swap := Std.OrientedCmp.eq_swap
    rw [hswap]
    cases compare a b <;> simp

/-- What comparing two keys answers, told from a number `n` of bytes. -/
structure Comparison (a b : Key) (n : Nat) : Prop where
  /-- The keys agree on `n` bytes and on no more. -/
  agree_iff : ∀ m, Agree a b m ↔ m ≤ n
  eq_iff : compare a b = .eq ↔ a = b
  eq_iff_length : compare a b = .eq ↔ n = a.length ∧ n = b.length
  /-- The first key ends where the second goes on, or a lesser byte stands there. -/
  lt_iff : compare a b = .lt ↔ n = a.length ∧ a.length < b.length ∨
    ∃ (ha : n < a.length) (hb : n < b.length), a[n] < b[n]
  gt_iff : compare a b = .gt ↔ compare b a = .lt
  /-- It is the order in which keys are listed. -/
  listed_iff : compare a b = .lt ↔ a < b

/-- The length of the common prefix decides together with the bytes behind it how two keys
compare. That is a total order, and what stands in it between keys that start with some
key starts with that key as well. -/
theorem compare_commonPrefix :
    (∀ a b : Key, Comparison a b (commonPrefix a b).length) ∧
    IsLinearOrder Key (fun a b => (compare a b).isLE) ∧
    ∀ a b c p : Key, (compare a b).isLE → (compare b c).isLE → p <+: a → p <+: c → p <+: b := by
  refine ⟨fun a b => ?_, isLinearOrder_compare, fun a b c p => isPrefix_of_between⟩
  have heq : compare a b = .eq ↔ a = b := Std.LawfulEqCmp.compare_eq_iff_eq
  exact {
    agree_iff := fun m => agree_iff
    eq_iff := heq
    eq_iff_length := heq.trans eq_iff_length_commonPrefix
    lt_iff := (parting_commonPrefix a b).compare_eq_lt_iff
    gt_iff := Std.OrientedCmp.gt_iff_lt
    listed_iff := compare_eq_lt_iff_lt }

theorem compare_commonPrefix_between :
    (compare ([1] : Key) [1, 0]).isLE ∧ (compare ([1, 0] : Key) [1, 255]).isLE ∧
      ([1] : Key) <+: [1] ∧ ([1] : Key) <+: [1, 255] ∧ ([1] : Key) <+: [1, 0] :=
  ⟨by decide, by decide, by decide, by decide,
    compare_commonPrefix.2.2 [1] [1, 0] [1, 255] [1] (by decide) (by decide) (by decide)
      (by decide)⟩

end Key

end ByteTrie
