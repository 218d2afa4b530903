import ByteTrie.Store.Insertion
import ByteTrie.Store.Preorder
import ByteTrie.Store.Traversal

/-!
# Tries

A trie maps keys to values, for exact lookup and for search by a common
beginning. It is a store together with the way new rows are sized. Lookups and
searches only read; `insert` and `clear` give a new trie, in whose store the
nodes of the old one can still be read, so that traversals stay open.
-/

namespace ByteTrie

/-- A map from keys to values. -/
structure Trie (V : Type) where
  store : Store V
  sizing : Sizing

namespace Trie

variable {V : Type}

/-- A trie without entries. -/
def empty (sizing : Sizing) : Trie V := ⟨Store.empty, sizing⟩

instance : Inhabited (Trie V) := ⟨empty default⟩

/-- Store a value under a key, and say which value it replaces. -/
def insert (t : Trie V) (key : Key) (value : V) : Except Fault (Option V × Trie V) :=
  (t.store.insert t.sizing key value).map fun (replaced, store) => (replaced, ⟨store, t.sizing⟩)

/-- Store several values one after the other, and say what each replaces. -/
def insertEach (t : Trie V) : List (Key × V) → Except Fault (List (Option V) × Trie V)
  | [] => .ok ([], t)
  | (key, value) :: rest => do
      let (replaced, t) ← t.insert key value
      let (later, t) ← t.insertEach rest
      return (replaced :: later, t)

/-- Store several values one after the other. -/
def insertMany (t : Trie V) (entries : List (Key × V)) : Except Fault (Trie V) :=
  (t.insertEach entries).map Prod.snd

/-- A trie of the given entries, in which the last one for a key counts. -/
def ofList (sizing : Sizing) (entries : List (Key × V)) : Except Fault (Trie V) :=
  (empty sizing).insertMany entries

/-- The value stored under a key. -/
def lookup (t : Trie V) (key : Key) : Except Fault (Option V) := t.store.lookup key

/-- A value is stored under a key. -/
def contains (t : Trie V) (key : Key) : Except Fault Bool := (t.lookup key).map Option.isSome

/-- A traversal of all entries. -/
def traversal (t : Trie V) : Traversal := Traversal.start (some t.store.root)

/-- A traversal of the entries whose keys start with a stem. -/
def search (t : Trie V) (stem : Key) : Except Fault Traversal :=
  (t.store.cover? stem).map Traversal.start

/-- The entries whose keys start with a stem, at once. -/
def itemsWith (t : Trie V) (stem : Key) : Except Fault (List (Key × V)) :=
  (t.store.cover? stem).map fun node => node.elim [] t.store.itemsBelow

/-- The values of the entries whose keys start with a stem, at once. -/
def valuesWith (t : Trie V) (stem : Key) : Except Fault (List V) :=
  (t.store.cover? stem).map fun node => node.elim [] t.store.valuesBelow

/-- All entries, in the order of their keys. -/
def toList (t : Trie V) : List (Key × V) := t.traversal.items t.store

/-- All values, in the order of their keys. -/
def values (t : Trie V) : List V := t.traversal.values t.store

/-- The number of entries. -/
def size (t : Trie V) : Nat := t.values.length

/-- There are no entries; the root alone tells. -/
def isEmpty (t : Trie V) : Bool :=
  (t.store.node t.store.root).value.isNone && t.store.degree t.store.root == 0

/-- A trie without entries in the same store. -/
def clear (t : Trie V) : Trie V := ⟨t.store.reset, t.sizing⟩

/-- A trie without entries in the same store, which sizes its rows in its own way. -/
def restart (t : Trie V) (sizing : Sizing) : Trie V := ⟨t.store.reset, sizing⟩

@[simp] theorem sizing_clear (t : Trie V) : t.clear.sizing = t.sizing := rfl

theorem sizing_insert {t t' : Trie V} {key : Key} {value : V} {replaced : Option V}
    (h : t.insert key value = .ok (replaced, t')) : t'.sizing = t.sizing := by
  obtain ⟨_, -, hstore⟩ := exists_of_map_eq_ok h
  cases hstore
  rfl

theorem sizing_insertEach {t t' : Trie V} {entries : List (Key × V)} {answers : List (Option V)}
    (h : t.insertEach entries = .ok (answers, t')) : t'.sizing = t.sizing := by
  induction entries generalizing t answers with
  | nil =>
    cases h
    rfl
  | cons entry rest ih =>
    obtain ⟨⟨replaced, t₁⟩, hinsert, h⟩ := exists_of_bind_eq_ok h
    obtain ⟨⟨later, t₂⟩, hrest, h⟩ := exists_of_bind_eq_ok h
    cases h
    exact (ih hrest).trans (sizing_insert hinsert)

theorem sizing_insertMany {t t' : Trie V} {entries : List (Key × V)}
    (h : t.insertMany entries = .ok t') : t'.sizing = t.sizing := by
  obtain ⟨⟨answers, _⟩, hinsert, rfl⟩ := exists_of_map_eq_ok h
  exact sizing_insertEach hinsert

@[simp] theorem insertEach_nil (t : Trie V) : t.insertEach [] = .ok ([], t) := rfl

@[simp] theorem insertMany_nil (t : Trie V) : t.insertMany [] = .ok t := rfl

@[simp] theorem search_nil (t : Trie V) : t.search [] = .ok t.traversal := rfl

theorem values_eq (t : Trie V) : t.values = t.toList.map Prod.snd :=
  t.traversal.values_eq t.store

theorem size_eq (t : Trie V) : t.size = t.toList.length := by
  simp [size, values_eq]

end Trie

end ByteTrie
