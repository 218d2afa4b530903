import ByteTrie.Store.Basic

/-!
# The nodes below a node

`preorder` lists a node and everything below it, each node before its branches
and the branches in the order of their bytes, so that keys come in ascending
order. Each node is listed with its height, which is one more than its parent's.

The depth of the recursion is bounded by the number of nodes, which no path of
a trie exceeds.
-/

namespace ByteTrie

namespace Store

variable {V : Type}

/-- A node and what is below it down to a depth, with heights. -/
def preorderTo (s : Store V) (height : Nat) (id : NodeId) : Nat → List (NodeId × Nat)
  | 0 => []
  | depth + 1 =>
      (id, height) ::
        (s.children id).flatMap fun child => s.preorderTo (height + 1) child depth

/-- A node, at height one, and everything below it. -/
def preorder (s : Store V) (id : NodeId) : List (NodeId × Nat) :=
  s.preorderTo 1 id s.nodes.size

/-- The keys and values at and below a node. -/
def itemsBelow (s : Store V) (id : NodeId) : List (Key × V) :=
  (s.preorder id).filterMap fun (node, _) => (s.node node).item?

/-- The values at and below a node. -/
def valuesBelow (s : Store V) (id : NodeId) : List V :=
  (s.preorder id).filterMap fun (node, _) => (s.node node).value

theorem valuesBelow_eq (s : Store V) (id : NodeId) :
    s.valuesBelow id = (s.itemsBelow id).map Prod.snd := by
  simp [valuesBelow, itemsBelow, List.map_filterMap]

end Store

end ByteTrie
