import ByteTrie.Trie.Basic

/-!
# What a lookup structure promises

A structure for lookup by prefix states how much it may be shared while it
changes, whether it searches in the order of the keys, and whether it can
change at all. One that states nothing is taken to promise nothing.
-/

namespace ByteTrie

/-- How much use at the same time is allowed without a lock. -/
inductive Sharing where
  /-- None. -/
  | none
  /-- Any readers beside one writer. -/
  | read
  /-- Any writers, but no readers beside them. -/
  | write
  /-- Any readers and writers. -/
  | full
  deriving DecidableEq, Repr

/-- What a lookup structure promises. -/
structure Profile where
  sharing : Sharing := .none
  sorted : Bool := false
  immutable : Bool := false
  deriving DecidableEq, Repr

/-- The promise of a structure that states nothing. -/
def Profile.unstated : Profile := {}

/-- The promise of a trie. -/
def Trie.profile : Profile := { sharing := .read, sorted := true }

end ByteTrie
