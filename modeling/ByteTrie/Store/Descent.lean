import ByteTrie.Store.Basic

/-!
# Going down along a key

A descent reads a key byte by byte, from the root on. Inside a segment the byte
must be the next one of the segment; at the end of a segment it chooses the
branch to take. A descent stops when the key ends, or at the first byte that
leads nowhere, and `Stop` says which of the ways it was. Looking up a key and
looking for the node that covers a stem are two readings of that answer, and
an insertion is a third.
-/

namespace ByteTrie

/-- How a descent along a key stops. `matched` counts the bytes of the node's
segment that were read, and `rest` is what is left of the key. -/
inductive Stop where
  /-- The key ends. -/
  | ended (place : Place) (matched : Nat)
  /-- The segment goes on with a byte other than the key's. -/
  | diverged (place : Place) (matched : Nat) (rest : Key)
  /-- The segment ends, and no branch begins with the next byte of the key; one
  that did would stand at `index`. -/
  | branchless (place : Place) (index : Nat) (rest : Key)
  /-- The segment ends, and the branch of the next byte has been emptied. -/
  | vacant (index : Nat)
  deriving DecidableEq, Repr

namespace Store

variable {V : Type}

/-- The branch of a node that begins with a byte, or where it would stand. -/
def locate (s : Store V) (id : NodeId) (byte : UInt8) : Except Fault Position :=
  match s.branches? id with
  | some row => row.locate byte
  | none => .ok (.absent 0)

/-- The place of a node's branch. -/
def branch? (s : Store V) (id : NodeId) (index : Nat) : Option Place := do
  let row ← (s.node id).row
  let child ← (s.row row).get? index
  return ⟨.branch row index, child⟩

/-- Read on along a key, `matched` bytes into the segment of the node at a place.
A branch begins with the byte it was chosen by, so on the way down one byte of
its segment counts as read. -/
def descend (s : Store V) (place : Place) (matched : Nat) : Key → Except Fault Stop
  | [] => .ok (.ended place matched)
  | byte :: rest =>
      match (s.node place.node).segment.get? matched with
      | some expected =>
          if expected = byte then s.descend place (matched + 1) rest
          else .ok (.diverged place matched (byte :: rest))
      | none =>
          match s.locate place.node byte with
          | .error fault => .error fault
          | .ok (.absent index) => .ok (.branchless place index (byte :: rest))
          | .ok (.found index) =>
              match s.branch? place.node index with
              | some child => s.descend child 1 rest
              | none => .ok (.vacant index)

/-- Where the descent along a key from the root stops. -/
def trace (s : Store V) (key : Key) : Except Fault Stop := s.descend s.rootPlace 0 key

/-- The value of the node whose segment ends just where the key ends. -/
def lookup (s : Store V) (key : Key) : Except Fault (Option V) := do
  match ← s.trace key with
  | .ended place matched =>
      let node := s.node place.node
      return if matched = node.segment.length then node.value else none
  | _ => return none

/-- The node at and below which the keys that start with a stem are stored: the
first one whose key is at least as long as the stem. -/
def cover? (s : Store V) (stem : Key) : Except Fault (Option NodeId) := do
  match ← s.trace stem with
  | .ended place _ => return some place.node
  | _ => return none

end Store

end ByteTrie
