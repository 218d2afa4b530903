import ByteTrie.Trie.Basic

/-!
# Counting what a trie is made of

The census of a trie counts its nodes, its values and the slots of its rows,
and sorts the nodes that have branches by the capacity of their rows. It is
taken by a sweep, one node at a time: the nodes that are still to be counted
stand on a stack, and a node that is counted leaves its branches there.
-/

namespace ByteTrie

/-- A part as a fraction of a whole, zero when there is no whole. -/
def fraction (part whole : Nat) : Float :=
  if whole = 0 then 0.0 else Float.ofNat part / Float.ofNat whole

/-- The nodes whose rows have the same capacity. -/
structure Bucket where
  capacity : Nat
  /-- How many nodes there are. -/
  nodes : Nat
  /-- How many branches they have together. -/
  branches : Nat
  deriving DecidableEq, Repr

namespace Bucket

/-- All slots of the rows. -/
def slots (b : Bucket) : Nat := b.capacity * b.nodes

/-- The fraction of the slots that are in use. -/
def density (b : Bucket) : Float := fraction b.branches b.slots

/-- Count a node with some branches. -/
def add (b : Bucket) (branches : Nat) : Bucket :=
  { b with nodes := b.nodes + 1, branches := b.branches + branches }

/-- Count a node in the bucket under its capacity, the capacities ascending. -/
def count (capacity branches : Nat) : List (Nat × Bucket) → List (Nat × Bucket)
  | [] => [(capacity, add ⟨capacity, 0, 0⟩ branches)]
  | (under, b) :: rest =>
      if capacity < under then (capacity, add ⟨capacity, 0, 0⟩ branches) :: (under, b) :: rest
      else if capacity = under then (under, b.add branches) :: rest
      else (under, b) :: count capacity branches rest

end Bucket

/-- What a trie is made of. -/
structure Census where
  /-- The buckets, each under the capacity that it was begun for. -/
  buckets : List (Nat × Bucket)
  nodes : Nat
  /-- Nodes without branches. -/
  leaves : Nat
  /-- Nodes with branches. -/
  inner : Nat
  values : Nat
  /-- The capacities of all rows together. -/
  slots : Nat
  /-- The slots in use. -/
  used : Nat
  /-- The number of nodes on the longest way down, the root included. -/
  height : Nat
  deriving DecidableEq, Repr

namespace Census

/-- The census of nothing. -/
def zero : Census := ⟨[], 0, 0, 0, 0, 0, 0, 0⟩

/-- The fraction of all slots that are in use. -/
def density (c : Census) : Float := fraction c.used c.slots

/-- Count a node that has a value or not, stands at a height, and has a row of
`branches` branches in `capacity` slots. -/
def add (c : Census) (hasValue : Bool) (height capacity branches : Nat) : Census :=
  let c := {
    c with
    nodes := c.nodes + 1
    values := c.values + hasValue.toNat
    height := max c.height height }
  if branches = 0 then { c with leaves := c.leaves + 1 }
  else {
    c with
    inner := c.inner + 1
    slots := c.slots + capacity
    used := c.used + branches
    buckets := Bucket.count capacity branches c.buckets }

/-- Count a node of a store at a height. -/
def addNode {V : Type} (s : Store V) (c : Census) (id : NodeId) (height : Nat) : Census :=
  c.add (s.node id).value.isSome height ((s.branches? id).elim 0 Branches.capacity) (s.degree id)

/-- Count the nodes on a stack and all below them, taking the top each time. -/
def drain {V : Type} (s : Store V) (c : Census) : List (NodeId × Nat) → Nat → Census
  | [], _ => c
  | _, 0 => c
  | (id, height) :: rest, steps + 1 =>
      let branches := (s.children id).map fun child => (child, height + 1)
      drain s (c.addNode s id height) (branches.reverse ++ rest) steps

end Census

/-- The census of a trie. There are as many steps as nodes were made. -/
def Trie.sweep {V : Type} (t : Trie V) : Census :=
  Census.zero.drain t.store [(t.store.root, 1)] t.store.nodes.size

end ByteTrie
