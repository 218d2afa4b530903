import ByteTrie.Key.Basic

/-!
# Sorted indexes of keys

An index gives each key of a list the position at which it occurs last, in the
order of the keys.
-/

namespace ByteTrie.Key

/-- Keys in ascending order, each with a position. -/
structure Index where
  entries : List (Key × Nat)
  deriving DecidableEq, Repr

namespace Index

/-- Entries in ascending order with one more among them, or with a new position
for a key that is there. -/
def insertEntry (key : Key) (position : Nat) : List (Key × Nat) → List (Key × Nat)
  | [] => [(key, position)]
  | (other, held) :: rest =>
      match compare key other with
      | .lt => (key, position) :: (other, held) :: rest
      | .eq => (key, position) :: rest
      | .gt => (other, held) :: insertEntry key position rest

/-- An index without keys. -/
def empty : Index := ⟨[]⟩

/-- Set the position of a key. -/
def insert (index : Index) (key : Key) (position : Nat) : Index :=
  ⟨insertEntry key position index.entries⟩

/-- The last position of each key of a list. -/
def ofKeys (keys : List Key) : Index :=
  keys.zipIdx.foldl (fun index (key, position) => index.insert key position) empty

/-- The position of a key. -/
def find? (index : Index) (key : Key) : Option Nat :=
  (index.entries.find? fun (other, _) => other == key).map Prod.snd

end Index

end ByteTrie.Key
