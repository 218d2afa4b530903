/-!
# Keys

A key is a list of bytes. Keys are ordered by the first byte in which they
differ, a key that ends coming before its extensions; that order is `compare`
on lists. What two keys have in common is the list of their leading bytes up to
the first difference.
-/

namespace ByteTrie

/-- A byte string under which a value is stored. -/
abbrev Key := List UInt8

namespace Key

/-- The longest byte string that two keys both start with. -/
def commonPrefix (a b : Key) : Key :=
  ((a.zip b).takeWhile fun (x, y) => x == y).map Prod.fst

@[simp] theorem commonPrefix_nil_left (b : Key) : commonPrefix [] b = [] := rfl

@[simp] theorem commonPrefix_nil_right (a : Key) : commonPrefix a [] = [] := by
  cases a <;> rfl

theorem commonPrefix_cons (x y : UInt8) (a b : Key) :
    commonPrefix (x :: a) (y :: b) = if x = y then x :: commonPrefix a b else [] := by
  by_cases h : x = y <;> simp [commonPrefix, h]

theorem commonPrefix_self (a : Key) : commonPrefix a a = a := by
  induction a with
  | nil => rfl
  | cons x a ih => simp [commonPrefix_cons, ih]

theorem commonPrefix_comm (a b : Key) : commonPrefix a b = commonPrefix b a := by
  induction a generalizing b with
  | nil => simp
  | cons x a ih =>
    cases b with
    | nil => simp
    | cons y b =>
      by_cases h : x = y
      · simp [commonPrefix_cons, h, ih b]
      · simp [commonPrefix_cons, h, Ne.symm h]

end Key

end ByteTrie
