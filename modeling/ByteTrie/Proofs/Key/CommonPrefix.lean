import ByteTrie.Key.Basic

/-!
# What two keys have in common

The common prefix of two keys is the greatest of the keys that both start with.
Where it ends the keys part, or one of them ends.
-/

namespace ByteTrie

namespace Key

theorem commonPrefix_isPrefix_left (a b : Key) : commonPrefix a b <+: a := by
  induction a generalizing b with
  | nil => exact List.prefix_refl []
  | cons x a ih =>
    cases b with
    | nil => exact List.nil_prefix
    | cons y b =>
      rw [commonPrefix_cons]
      split
      · exact (List.prefix_cons_inj x).mpr (ih b)
      · exact List.nil_prefix

theorem commonPrefix_isPrefix_right (a b : Key) : commonPrefix a b <+: b :=
  commonPrefix_comm a b ▸ commonPrefix_isPrefix_left b a

/-- Keys are equal when what they have in common is all of both. -/
theorem eq_iff_length_commonPrefix {a b : Key} :
    a = b ↔ (commonPrefix a b).length = a.length ∧ (commonPrefix a b).length = b.length := by
  constructor
  · rintro rfl
    rw [commonPrefix_self]
    exact ⟨rfl, rfl⟩
  · rintro ⟨hleft, hright⟩
    calc a = commonPrefix a b := ((commonPrefix_isPrefix_left a b).eq_of_length hleft).symm
      _ = b := (commonPrefix_isPrefix_right a b).eq_of_length hright

/-- What two keys both start with, their common prefix starts with as well. -/
theorem isPrefix_commonPrefix {p a b : Key} (ha : p <+: a) (hb : p <+: b) :
    p <+: commonPrefix a b := by
  induction p generalizing a b with
  | nil => exact List.nil_prefix
  | cons x p ih =>
    obtain ⟨a, rfl⟩ := ha
    obtain ⟨b, rfl⟩ := hb
    rw [List.cons_append, List.cons_append, commonPrefix_cons, if_pos rfl]
    exact (List.prefix_cons_inj x).mpr (ih (List.prefix_append p a) (List.prefix_append p b))

/-- No byte behind the common prefix is in both keys. -/
theorem not_isPrefix_of_isPrefix {a b : Key} {byte : UInt8}
    (ha : commonPrefix a b ++ [byte] <+: a) : ¬commonPrefix a b ++ [byte] <+: b := by
  intro hb
  have hle := (isPrefix_commonPrefix ha hb).length_le
  rw [List.length_append, List.length_singleton] at hle
  omega

/-- Keys that go on with different bytes have no more in common than what comes before. -/
theorem commonPrefix_of_parting {p a b : Key} {x y : UInt8} (ha : p ++ [x] <+: a)
    (hb : p ++ [y] <+: b) (hne : x ≠ y) : commonPrefix a b = p := by
  obtain ⟨a, rfl⟩ := ha
  obtain ⟨b, rfl⟩ := hb
  induction p with
  | nil =>
    change commonPrefix (x :: a) (y :: b) = []
    rw [commonPrefix_cons, if_neg hne]
  | cons z p ih =>
    change commonPrefix (z :: (p ++ [x] ++ a)) (z :: (p ++ [y] ++ b)) = z :: p
    rw [commonPrefix_cons, if_pos rfl, ih]

end Key

end ByteTrie
