import ByteTrie.Session
import ByteTrie.Trie.Census
import ByteTrie.Trie.Writes

/-!
# Operations of a session

`Operation` has every operation of a trie in use: the writes, the look-ups, the
searches that are gathered at once, the counts, and the steps of traversals that
are open meanwhile. Each of them is answered. An `Action` is one of those that
change the trie or move a traversal, without its answer.
-/

namespace ByteTrie

variable {V : Type}

/-- What can be asked of a session. -/
inductive Operation (V : Type) where
  | write (w : Write V)
  | lookup (key : Key)
  | contains (key : Key)
  | openAll
  | openSearch (stem : Key)
  | next (id : Nat)
  | nextValue (id : Nat)
  | drain (id : Nat)
  | drainValues (id : Nat)
  | close (id : Nat)
  | gatherItems (stem : Key)
  | gatherValues (stem : Key)
  | takeItems
  | takeValues
  | toList
  | values
  | size
  | isEmpty
  | census

/-- What a session answers. -/
inductive Answer (V : Type) where
  | nothing
  | flag (flag : Bool)
  | number (number : Nat)
  | item (item : Option (Key × V))
  | items (items : List (Key × V))
  | value (value : Option V)
  | values (values : List V)
  | replaced (values : List (Option V))
  | census (census : Census)

/-- A write, an opening or a step: what traversals and the trie do to one another. -/
inductive Action (V : Type) where
  | insert (key : Key) (value : V)
  | clear
  | restart (sizing : Sizing) (entries : List (Key × V))
  | openAll
  | openSearch (stem : Key)
  | next (id : Nat)
  | nextValue (id : Nat)

/-- The operation that an action is. -/
def Action.operation : Action V → Operation V
  | .insert key value => .write (.insert key value)
  | .clear => .write .clear
  | .restart sizing entries => .write (.restart sizing entries)
  | .openAll => .openAll
  | .openSearch stem => .openSearch stem
  | .next id => .next id
  | .nextValue id => .nextValue id

namespace Session

/-- The answer to a write, and the session behind it. -/
def write (s : Session V) : Write V → Except Fault (Answer V × Session V)
  | .insert key value => (s.insert key value).map fun (replaced, s) => (.value replaced, s)
  | .insertEach entries => (s.insertEach entries).map fun (replaced, s) => (.replaced replaced, s)
  | .clear => .ok (.nothing, s.clear)
  | .restart sizing entries => (s.restart sizing entries).map fun s => (.nothing, s)

/-- The answer to an operation, and the session behind it. -/
def perform (s : Session V) : Operation V → Except Fault (Answer V × Session V)
  | .write w => s.write w
  | .lookup key => (s.trie.lookup key).map fun value => (.value value, s)
  | .contains key => (s.trie.contains key).map fun flag => (.flag flag, s)
  | .openAll => .ok (.number s.openAll.1, s.openAll.2)
  | .openSearch stem => (s.openSearch stem).map fun (id, s) => (.number id, s)
  | .next id => .ok (.item (s.next id).1, (s.next id).2)
  | .nextValue id => .ok (.value (s.nextValue id).1, (s.nextValue id).2)
  | .drain id => .ok (.items (s.drain id).1, (s.drain id).2)
  | .drainValues id => .ok (.values (s.drainValues id).1, (s.drainValues id).2)
  | .close id => .ok (.nothing, s.close id)
  | .gatherItems stem => (s.gatherItems stem).map fun s => (.number s.items.length, s)
  | .gatherValues stem => (s.gatherValues stem).map fun s => (.number s.values.length, s)
  | .takeItems => .ok (.items s.takeItems.1, s.takeItems.2)
  | .takeValues => .ok (.values s.takeValues.1, s.takeValues.2)
  | .toList => .ok (.items s.trie.toList, s)
  | .values => .ok (.values s.trie.values, s)
  | .size => .ok (.number s.trie.size, s)
  | .isEmpty => .ok (.flag s.trie.isEmpty, s)
  | .census => .ok (.census s.trie.sweep, s)

/-- The answers to several operations, and the session behind them. -/
def performAll (s : Session V) : List (Operation V) → Except Fault (List (Answer V) × Session V)
  | [] => .ok ([], s)
  | operation :: rest => do
      let (answer, s) ← s.perform operation
      let (later, s) ← s.performAll rest
      return (answer :: later, s)

/-- The session behind an action. -/
def act (s : Session V) : Action V → Except Fault (Session V)
  | .insert key value => (s.insert key value).map Prod.snd
  | .clear => .ok s.clear
  | .restart sizing entries => s.restart sizing entries
  | .openAll => .ok s.openAll.2
  | .openSearch stem => (s.openSearch stem).map Prod.snd
  | .next id => .ok (s.next id).2
  | .nextValue id => .ok (s.nextValue id).2

/-- The session behind several actions. -/
def run (s : Session V) : List (Action V) → Except Fault (Session V)
  | [] => .ok s
  | a :: rest => (s.act a).bind fun s => s.run rest

/-- An action does what its operation does. -/
theorem act_eq_perform (s : Session V) (a : Action V) :
    s.act a = (s.perform a.operation).map Prod.snd := by
  cases a with
  | insert key value =>
    simp only [act, Action.operation, perform, write]
    cases s.insert key value <;> rfl
  | clear | openAll | next | nextValue => rfl
  | restart sizing entries =>
    simp only [act, Action.operation, perform, write]
    cases s.restart sizing entries <;> rfl
  | openSearch stem =>
    simp only [act, Action.operation, perform]
    cases s.openSearch stem <;> rfl

end Session

end ByteTrie
