import ByteTrie.Store.Descent

/-!
# Storing a value under a key

The descent along the key tells what has to be built. A key that ends at the end
of a segment has its node, and only the value changes. Otherwise the new nodes
and rows are made beside the old ones, and one write makes them part of the
trie: they are put into the seat of the node that they replace, or a last branch
is appended in place.

Cutting a node in two makes a node for the first part of its segment and one
for the rest, which keeps the value and the row of the node that was cut.
-/

namespace ByteTrie

namespace Store

variable {V : Type}

/-- A new node for the end of a key, from `depth` on. -/
def addLeaf (s : Store V) (key : Key) (depth : Nat) (value : V) :
    Except Fault (NodeId × Store V) := do
  let segment ← Segment.ofOffset ⟨s.nodes.size, key.toArray⟩ depth
  return s.addNode ⟨segment, some value, none⟩

/-- The branches of a cut node: the rest of it, and the sibling if there is one,
the lesser first byte first. -/
def siblings (s : Store V) (byte : UInt8) (lower : NodeId) (sibling : Option NodeId) :
    Except Fault (List (UInt8 × NodeId)) :=
  match sibling with
  | none => .ok [(byte, lower)]
  | some other => do
      let otherByte ← (s.node other).segment.get 0
      match compare otherByte byte with
      | .lt => .ok [(otherByte, other), (byte, lower)]
      | .eq => .error (.siblingByteTaken byte)
      | .gt => .ok [(byte, lower), (otherByte, other)]

/-- A new node for the first `cut` bytes of a node's segment, with a value of its
own. Its branches are the rest of the node and a sibling. -/
def addUpper (s : Store V) (sizing : Sizing) (id : NodeId) (cut : Nat) (value : Option V)
    (sibling : Option NodeId) : Except Fault (NodeId × Store V) := do
  let node := s.node id
  if 0 < cut ∧ cut < node.segment.length then
    let rest ← node.segment.drop cut
    let byte ← rest.get 0
    let (lower, s) := s.addNode { node with segment := rest }
    let entries ← s.siblings byte lower sibling
    let capacity ← sizing.capacity entries.length
    let branches ← Branches.ofEntries entries capacity
    let first ← node.segment.take cut
    let (row, s) := s.addRow branches
    return s.addNode ⟨first, value, some row⟩
  else throw .cutOutsideSegment

/-- Cut the node at a place, and put the first part into its seat. -/
def split (s : Store V) (sizing : Sizing) (place : Place) (cut : Nat) (value : Option V)
    (sibling : Option NodeId) : Except Fault (Store V) := do
  let (upper, s) ← s.addUpper sizing place.node cut value sibling
  s.install place.seat upper

/-- The row of a node, as it is with one more branch behind its last. There is
none when the branch does not come last or finds no room. -/
def appended? (s : Store V) (id : NodeId) (index : Nat) (byte : UInt8) (child : NodeId) :
    Option (RowId × Branches NodeId) := do
  let row ← (s.node id).row
  if index = (s.row row).count then
    let changed ← (s.row row).push? byte child
    return (row, changed)
  else none

/-- A new node like an old one, with a new row that has one branch more. -/
def addWidened (s : Store V) (sizing : Sizing) (id : NodeId) (index : Nat) (byte : UInt8)
    (child : NodeId) : Except Fault (NodeId × Store V) := do
  let capacity ← sizing.capacity (s.degree id + 1)
  let branches ← match s.branches? id with
    | some old => old.insertIdx index byte child capacity
    | none => Branches.ofEntries [(byte, child)] capacity
  let (row, s) := s.addRow branches
  return s.addNode { s.node id with row := some row }

/-- Give the node at a place one more branch: in place if that can be, otherwise
by a new node that takes its place. -/
def addBranch (s : Store V) (sizing : Sizing) (place : Place) (index : Nat) (byte : UInt8)
    (child : NodeId) : Except Fault (Store V) :=
  match s.appended? place.node index byte child with
  | some (row, changed) => .ok (s.setRow row changed)
  | none => do
      let (widened, s) ← s.addWidened sizing place.node index byte child
      s.install place.seat widened

/-- Store a value under a key, and say which value it replaces. -/
def insert (s : Store V) (sizing : Sizing) (key : Key) (value : V) :
    Except Fault (Option V × Store V) := do
  match ← s.trace key with
  | .ended place matched =>
      let node := s.node place.node
      if matched = node.segment.length then
        return (node.value, s.setValue place.node value)
      else
        return (none, ← s.split sizing place matched (some value) none)
  | .diverged place matched rest =>
      let (leaf, s) ← s.addLeaf key (key.length - rest.length) value
      return (none, ← s.split sizing place matched none (some leaf))
  | .branchless place index rest =>
      let (leaf, s) ← s.addLeaf key (key.length - rest.length) value
      let byte ← (s.node leaf).segment.get 0
      return (none, ← s.addBranch sizing place index byte leaf)
  | .vacant index => throw (.branchVacant index)

end Store

end ByteTrie
