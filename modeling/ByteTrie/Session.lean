import ByteTrie.Trie.Basic

/-!
# Sessions

A session is a trie in use: the trie as it is now, the traversals that were
opened on it, and two collections that searches are gathered in. Traversals
stay open while the trie is written to, cleared, or started anew, and are known
by number in the order of their opening.
-/

namespace ByteTrie

/-- A trie with its open traversals and what was gathered. -/
structure Session (V : Type) where
  trie : Trie V
  traversals : Array Traversal
  items : List (Key × V)
  values : List V

namespace Session

variable {V : Type}

/-- A session with a trie that nobody uses yet. -/
def ofTrie (trie : Trie V) : Session V := ⟨trie, #[], [], []⟩

/-- Store a value under a key, and say which value it replaces. -/
def insert (s : Session V) (key : Key) (value : V) : Except Fault (Option V × Session V) :=
  (s.trie.insert key value).map fun (replaced, trie) => (replaced, { s with trie })

/-- Store several values one after the other, and say what each replaces. -/
def insertEach (s : Session V) (entries : List (Key × V)) :
    Except Fault (List (Option V) × Session V) :=
  (s.trie.insertEach entries).map fun (replaced, trie) => (replaced, { s with trie })

/-- Take all entries away; open traversals go on over what was there. -/
def clear (s : Session V) : Session V := { s with trie := s.trie.clear }

/-- Begin a new trie with the given entries; open traversals go on over the old one. -/
def restart (s : Session V) (sizing : Sizing) (entries : List (Key × V)) :
    Except Fault (Session V) :=
  ((s.trie.restart sizing).insertMany entries).map fun trie => { s with trie }

/-- Keep a traversal open, and say its number. -/
def keep (s : Session V) (t : Traversal) : Nat × Session V :=
  (s.traversals.size, { s with traversals := s.traversals.push t })

/-- Open a traversal of all entries, and say its number. -/
def openAll (s : Session V) : Nat × Session V := s.keep s.trie.traversal

/-- Open a traversal of the entries whose keys start with a stem, and say its number. -/
def openSearch (s : Session V) (stem : Key) : Except Fault (Nat × Session V) :=
  (s.trie.search stem).map s.keep

/-- The traversal with a number; one that was never opened has nothing to come. -/
def traversal (s : Session V) (id : Nat) : Traversal := s.traversals.getD id Traversal.done

/-- Put a traversal in the place of the one with a number. -/
def setTraversal (s : Session V) (id : Nat) (t : Traversal) : Session V :=
  { s with traversals := s.traversals.setIfInBounds id t }

/-- Take the next key and value from an open traversal. -/
def next (s : Session V) (id : Nat) : Option (Key × V) × Session V :=
  let (item, t) := (s.traversal id).next s.trie.store
  (item, s.setTraversal id t)

/-- Take the next value from an open traversal. -/
def nextValue (s : Session V) (id : Nat) : Option V × Session V :=
  let (value, t) := (s.traversal id).nextValue s.trie.store
  (value, s.setTraversal id t)

/-- Close a traversal: nothing is to come from it. -/
def close (s : Session V) (id : Nat) : Session V := s.setTraversal id Traversal.done

/-- Take all keys and values that are to come from an open traversal. -/
def drain (s : Session V) (id : Nat) : List (Key × V) × Session V :=
  ((s.traversal id).items s.trie.store, s.close id)

/-- Take all values that are to come from an open traversal. -/
def drainValues (s : Session V) (id : Nat) : List V × Session V :=
  ((s.traversal id).values s.trie.store, s.close id)

/-- Gather the entries whose keys start with a stem behind those gathered before. -/
def gatherItems (s : Session V) (stem : Key) : Except Fault (Session V) :=
  (s.trie.itemsWith stem).map fun found => { s with items := s.items ++ found }

/-- Gather the values of the entries whose keys start with a stem. -/
def gatherValues (s : Session V) (stem : Key) : Except Fault (Session V) :=
  (s.trie.valuesWith stem).map fun found => { s with values := s.values ++ found }

/-- Take the gathered entries out. -/
def takeItems (s : Session V) : List (Key × V) × Session V := (s.items, { s with items := [] })

/-- Take the gathered values out. -/
def takeValues (s : Session V) : List V × Session V := (s.values, { s with values := [] })

@[simp] theorem trie_clear (s : Session V) : s.clear.trie = s.trie.clear := rfl

@[simp] theorem traversals_clear (s : Session V) : s.clear.traversals = s.traversals := rfl

@[simp] theorem trie_next (s : Session V) (id : Nat) : (s.next id).2.trie = s.trie := rfl

@[simp] theorem trie_nextValue (s : Session V) (id : Nat) : (s.nextValue id).2.trie = s.trie := rfl

theorem traversal_keep (s : Session V) (t : Traversal) :
    (s.keep t).2.traversal (s.keep t).1 = t := by
  simp [keep, traversal]

end Session

end ByteTrie
