import ByteTrie.Key.Basic

/-!
# The order of keys

Keys are compared byte by byte, and a key comes before its extensions. A key
`a` *precedes* a key `b` when the two part at some byte, so that everything that
starts with `a` comes before everything that starts with `b`; an order of
addresses of this kind is inherited by whatever is stored below them.
-/

namespace ByteTrie

namespace Key

/-- Every extension of `a` comes before every extension of `b`. -/
def Precedes (a b : Key) : Prop := ∀ a' b', a <+: a' → b <+: b' → a' < b'

theorem lt_append_cons (a : Key) (byte : UInt8) (rest : Key) : a < a ++ byte :: rest := by
  have h : a ++ [] < a ++ byte :: rest := List.append_left_lt (List.nil_lt_cons byte rest)
  rwa [List.append_nil] at h

theorem append_lt_append_of_lt (stem : Key) {x y : UInt8} (h : x < y) (a b : Key) :
    stem ++ x :: a < stem ++ y :: b :=
  List.append_left_lt (List.cons_lt_cons_iff.mpr (Or.inl h))

/-- A key that is before another is before all that start with it. -/
theorem lt_of_lt_of_isPrefix {a b c : Key} (h : a < b) (hp : b <+: c) : a < c := by
  obtain ⟨rest, rfl⟩ := hp
  cases rest with
  | nil => simpa using h
  | cons byte rest => exact List.lt_trans h (lt_append_cons b byte rest)

theorem lt_of_isPrefix_of_length_lt {a b : Key} (hp : a <+: b) (h : a.length < b.length) :
    a < b := by
  obtain ⟨rest, rfl⟩ := hp
  cases rest with
  | nil => simp at h
  | cons byte rest => exact lt_append_cons a byte rest

theorem precedes_of_lt (stem : Key) {x y : UInt8} (h : x < y) :
    Precedes (stem ++ [x]) (stem ++ [y]) := by
  rintro a b ⟨a', rfl⟩ ⟨b', rfl⟩
  simpa using append_lt_append_of_lt stem h a' b'

theorem Precedes.mono {a b a' b' : Key} (h : Precedes a b) (ha : a <+: a') (hb : b <+: b') :
    Precedes a' b' :=
  fun a'' b'' hA hB => h a'' b'' (ha.trans hA) (hb.trans hB)

theorem Precedes.lt {a b : Key} (h : Precedes a b) : a < b :=
  h a b (List.prefix_refl a) (List.prefix_refl b)

/-- A byte behind a common beginning is the same in every key that starts with both. -/
theorem byte_eq_of_isPrefix {stem key : Key} {x y : UInt8} (hx : stem ++ [x] <+: key)
    (hy : stem ++ [y] <+: key) : x = y := by
  have h : stem ++ [x] <+: stem ++ [y] := List.prefix_of_prefix_length_le hx hy (by simp)
  simpa using h

end Key

end ByteTrie
