import ByteTrie.Store.Basic

/-!
# Traversals that stay open

A traversal goes through the nodes at and below a starting node in the order of
their keys, and it can be left open while the store changes. It keeps numbers
and positions only: the node to start with, and for each row that it is in the
middle of, the row and a cursor. The end of a cursor is read when the traversal
comes to a node with that row. Everything else is read from the store at the
moment of the step.

No traversal visits more nodes than the store has, which bounds its loops.
-/

namespace ByteTrie

/-- A row that a traversal is in the middle of. -/
structure OpenRow where
  row : RowId
  cursor : Branches.Cursor
  deriving DecidableEq, Repr

/-- What is to come: a node with all that is below it, if the traversal has not
begun, and the rest of some rows, the innermost first. -/
structure Traversal where
  first : Option NodeId
  rows : List OpenRow
  deriving DecidableEq, Repr

namespace Traversal

variable {V : Type}

/-- A traversal from a node, or over nothing. -/
def start (id : Option NodeId) : Traversal := ⟨id, []⟩

/-- A traversal that has come to its end. -/
def done : Traversal := ⟨none, []⟩

/-- The rows to come once a node is visited: its own before the others. -/
def enter (s : Store V) (id : NodeId) (rows : List OpenRow) : List OpenRow :=
  match (s.node id).row with
  | none => rows
  | some row =>
      let cursor := (s.row row).cursor
      if cursor.remaining = 0 then rows else ⟨row, cursor⟩ :: rows

/-- The next node of rows, and the traversal behind it. -/
def resume (s : Store V) : List OpenRow → Option (NodeId × Traversal)
  | [] => none
  | inner :: outer =>
      match inner.cursor.step (s.row inner.row) with
      | (some (_, child), cursor) =>
          some (child, ⟨none, enter s child ({ inner with cursor } :: outer)⟩)
      | (none, _) => resume s outer

/-- The next node of a traversal, and the traversal behind it. -/
def visit (s : Store V) (t : Traversal) : Option (NodeId × Traversal) :=
  match t.first with
  | some id => some (id, ⟨none, enter s id t.rows⟩)
  | none => resume s t.rows

/-- The nodes that the next `steps` steps visit, if the store does not change. -/
def trail (s : Store V) (t : Traversal) : Nat → List NodeId
  | 0 => []
  | steps + 1 =>
      match t.visit s with
      | some (id, t) => id :: t.trail s steps
      | none => []

/-- The next node that has a value, within `steps` steps, and the traversal
behind it. -/
def seek (s : Store V) (t : Traversal) : Nat → Option NodeId × Traversal
  | 0 => (none, done)
  | steps + 1 =>
      match t.visit s with
      | some (id, t) => if (s.node id).value.isSome then (some id, t) else t.seek s steps
      | none => (none, done)

/-- The next node that has a value, and the traversal behind it. -/
def nextNode (s : Store V) (t : Traversal) : Option NodeId × Traversal :=
  t.seek s (s.nodes.size + 1)

/-- The next key with its value, and the traversal behind it. -/
def next (s : Store V) (t : Traversal) : Option (Key × V) × Traversal :=
  let (id, t) := t.nextNode s
  (id.bind fun id => (s.node id).item?, t)

/-- The next value, and the traversal behind it. -/
def nextValue (s : Store V) (t : Traversal) : Option V × Traversal :=
  let (id, t) := t.nextNode s
  (id.bind fun id => (s.node id).value, t)

/-- The nodes to come, if the store does not change. -/
def ahead (s : Store V) (t : Traversal) : List NodeId := t.trail s s.nodes.size

/-- The keys and values to come, if the store does not change. -/
def items (s : Store V) (t : Traversal) : List (Key × V) :=
  (t.ahead s).filterMap fun id => (s.node id).item?

/-- The values to come, if the store does not change. -/
def values (s : Store V) (t : Traversal) : List V :=
  (t.ahead s).filterMap fun id => (s.node id).value

@[simp] theorem visit_done (s : Store V) : done.visit s = none := rfl

@[simp] theorem next_done (s : Store V) : done.next s = (none, done) := rfl

@[simp] theorem ahead_done (s : Store V) : done.ahead s = [] := by
  unfold ahead
  cases s.nodes.size <;> rfl

@[simp] theorem items_done (s : Store V) : done.items s = [] := by
  simp [items]

theorem values_eq (s : Store V) (t : Traversal) : t.values s = (t.items s).map Prod.snd := by
  simp [values, items, List.map_filterMap]

end Traversal

end ByteTrie
