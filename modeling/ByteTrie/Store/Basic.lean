import ByteTrie.Branches.Cursor
import ByteTrie.Segment

/-!
# The store of a trie

A store holds every node and every row of branches that was ever made, and
which node is the root now. Nodes and rows are known by number and are never
taken away, so whoever still holds a number can go on reading.

The writes are few: add a node, add a row, set the value of a node, replace or
append a branch of a row, and choose the root. The segment of a node and the
row that it refers to never change; several nodes may refer to one row.
-/

namespace ByteTrie

/-- The number of a node. -/
structure NodeId where
  index : Nat
  deriving DecidableEq, Repr

/-- The number of a row of branches. -/
structure RowId where
  index : Nat
  deriving DecidableEq, Repr

/-- A node: a stretch of key, the value of the key that ends with it, and the
row of its branches. -/
structure Node (V : Type) where
  segment : Segment
  value : Option V
  row : Option RowId
  deriving Repr

/-- A node without bytes, value or branches. -/
def Node.blank {V : Type} (buffer : Nat) : Node V := ⟨Segment.empty buffer, none, none⟩

/-- The key that ends with a node, and the value stored under it. -/
def Node.item? {V : Type} (n : Node V) : Option (Key × V) :=
  n.value.map fun value => (n.segment.key, value)

@[simp] theorem Node.map_snd_item? {V : Type} (n : Node V) : n.item?.map Prod.snd = n.value := by
  cases h : n.value <;> simp [item?, h]

/-- All nodes and rows that were made, and the root. -/
structure Store (V : Type) where
  nodes : Array (Node V)
  rows : Array (Branches NodeId)
  root : NodeId
  deriving Repr

/-- Where a node can be found: at the root, or in a slot of a row. -/
inductive Seat where
  | root
  | branch (row : RowId) (index : Nat)
  deriving DecidableEq, Repr

/-- A node and its seat. -/
structure Place where
  seat : Seat
  node : NodeId
  deriving DecidableEq, Repr

namespace Store

variable {V : Type}

/-- A store with a blank root. -/
def empty : Store V := ⟨#[Node.blank 0], #[], ⟨0⟩⟩

instance : Inhabited (Store V) := ⟨empty⟩

/-- The node with a number. -/
def node (s : Store V) (id : NodeId) : Node V := s.nodes.getD id.index (Node.blank 0)

/-- The row with a number. -/
def row (s : Store V) (id : RowId) : Branches NodeId := s.rows.getD id.index (Branches.blank 0)

/-- The row of a node's branches. -/
def branches? (s : Store V) (id : NodeId) : Option (Branches NodeId) := (s.node id).row.map s.row

/-- How many branches a node has. -/
def degree (s : Store V) (id : NodeId) : Nat := (s.branches? id).elim 0 Branches.count

/-- The nodes that the branches of a node lead to. -/
def children (s : Store V) (id : NodeId) : List NodeId :=
  (s.branches? id).elim [] fun row => row.entries.map Prod.snd

/-- The root in its seat. -/
def rootPlace (s : Store V) : Place := ⟨.root, s.root⟩

/-- Add a node, and say its number. -/
def addNode (s : Store V) (node : Node V) : NodeId × Store V :=
  (⟨s.nodes.size⟩, { s with nodes := s.nodes.push node })

/-- Add a row, and say its number. -/
def addRow (s : Store V) (row : Branches NodeId) : RowId × Store V :=
  (⟨s.rows.size⟩, { s with rows := s.rows.push row })

/-- Set the value of a node. -/
def setValue (s : Store V) (id : NodeId) (value : V) : Store V :=
  { s with nodes := s.nodes.modify id.index fun node => { node with value := some value } }

/-- Put a changed row in the place of the old one. -/
def setRow (s : Store V) (id : RowId) (row : Branches NodeId) : Store V :=
  { s with rows := s.rows.setIfInBounds id.index row }

/-- Put a node into a seat, in the place of the one that was there. -/
def install (s : Store V) (seat : Seat) (id : NodeId) : Except Fault (Store V) :=
  match seat with
  | .root => .ok { s with root := id }
  | .branch row index => do
      let (_, changed) ← (s.row row).replace index id
      return s.setRow row changed

/-- Choose a new blank node as the root; all that was there stays readable. -/
def reset (s : Store V) : Store V :=
  let (root, s) := s.addNode (Node.blank s.nodes.size)
  { s with root := root }

@[simp] theorem node_addNode_self (s : Store V) (n : Node V) :
    (s.addNode n).2.node (s.addNode n).1 = n := by
  simp [addNode, node]

theorem node_addNode_of_lt (s : Store V) (n : Node V) {id : NodeId}
    (h : id.index < s.nodes.size) : (s.addNode n).2.node id = s.node id := by
  simp [addNode, node, Array.getElem?_push, Nat.ne_of_lt h]

@[simp] theorem row_addNode (s : Store V) (n : Node V) (id : RowId) :
    (s.addNode n).2.row id = s.row id := rfl

@[simp] theorem row_addRow_self (s : Store V) (b : Branches NodeId) :
    (s.addRow b).2.row (s.addRow b).1 = b := by
  simp [addRow, row]

theorem row_addRow_of_lt (s : Store V) (b : Branches NodeId) {id : RowId}
    (h : id.index < s.rows.size) : (s.addRow b).2.row id = s.row id := by
  simp [addRow, row, Array.getElem?_push, Nat.ne_of_lt h]

@[simp] theorem node_addRow (s : Store V) (b : Branches NodeId) (id : NodeId) :
    (s.addRow b).2.node id = s.node id := rfl

@[simp] theorem node_setRow (s : Store V) (row : RowId) (b : Branches NodeId) (id : NodeId) :
    (s.setRow row b).node id = s.node id := rfl

@[simp] theorem row_setValue (s : Store V) (node : NodeId) (value : V) (id : RowId) :
    (s.setValue node value).row id = s.row id := rfl

end Store

end ByteTrie
