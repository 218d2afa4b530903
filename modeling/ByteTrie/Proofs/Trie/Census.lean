import ByteTrie.Proofs.Store.Room
import ByteTrie.Trie.Census
import Mathlib.Algebra.Ring.Nat

/-!
# What a census comes to

A census is taken one node after the other. When the nodes that the root leads to
are counted as they are listed, each count is the sum of what they add to it, and
the height is the greatest of theirs.
-/

namespace ByteTrie

variable {V : Type}

namespace Census

variable {s : Store V} {c : Census} {id : NodeId} {height : Nat}

/-- Count the nodes of a list. -/
def addNodes (s : Store V) (c : Census) (nodes : List (NodeId × Nat)) : Census :=
  nodes.foldl (fun c (id, height) => c.addNode s id height) c

theorem addNodes_cons (s : Store V) (c : Census) (node : NodeId × Nat)
    (nodes : List (NodeId × Nat)) :
    c.addNodes s (node :: nodes) = (c.addNode s node.1 node.2).addNodes s nodes := rfl

theorem nodes_addNode : (c.addNode s id height).nodes = c.nodes + 1 := by
  rw [addNode, add]
  split <;> rfl

theorem height_addNode : (c.addNode s id height).height = max c.height height := by
  rw [addNode, add]
  split <;> rfl

theorem used_addNode : (c.addNode s id height).used = c.used + s.degree id := by
  rw [addNode, add]
  split
  · rename_i hzero
    rw [hzero]
    rfl
  · rfl

theorem slots_addNode :
    (c.addNode s id height).slots = c.slots + if s.degree id = 0 then 0 else s.room id := by
  rw [addNode, add]
  split <;> rfl

theorem leaves_addNode :
    (c.addNode s id height).leaves = c.leaves + if s.degree id = 0 then 1 else 0 := by
  rw [addNode, add]
  split <;> rfl

theorem inner_addNode :
    (c.addNode s id height).inner = c.inner + if s.degree id = 0 then 0 else 1 := by
  rw [addNode, add]
  split <;> rfl

theorem values_addNode :
    (c.addNode s id height).values = c.values + (s.node id).value.isSome.toNat := by
  rw [addNode, add]
  split <;> rfl

theorem buckets_addNode : (c.addNode s id height).buckets =
    if s.degree id = 0 then c.buckets
    else Bucket.count (s.room id) (s.degree id) c.buckets := by
  rw [addNode, add]
  split <;> rfl

/-- What every node adds to a count is added up. -/
theorem addNodes_eq_sum {count : Census → Nat} {weight : NodeId → Nat}
    (hadd : ∀ c id height, count (c.addNode s id height) = count c + weight id)
    (nodes : List (NodeId × Nat)) (c : Census) :
    count (c.addNodes s nodes) = count c + ((nodes.map Prod.fst).map weight).sum := by
  induction nodes generalizing c with
  | nil => rfl
  | cons node nodes ih =>
    rw [addNodes_cons, ih, hadd, List.map_cons, List.map_cons, List.sum_cons, Nat.add_assoc]

theorem height_addNodes_le_iff (s : Store V) (nodes : List (NodeId × Nat)) (c : Census)
    {bound : Nat} :
    (c.addNodes s nodes).height ≤ bound ↔ c.height ≤ bound ∧ ∀ node ∈ nodes, node.2 ≤ bound := by
  induction nodes generalizing c with
  | nil => exact ⟨fun h => ⟨h, by simp⟩, And.left⟩
  | cons node nodes ih =>
    rw [addNodes_cons, ih, height_addNode, Nat.max_le, List.forall_mem_cons, and_assoc]

end Census

namespace Trie

variable {t : Trie V}

/-- The nodes that the root leads to, counted as they are listed. -/
def census (t : Trie V) : Census :=
  Census.zero.addNodes t.store (t.store.preorder t.store.root)

/-- A count is the sum of what the nodes add to it. -/
theorem census_eq_sum (t : Trie V) {count : Census → Nat} {weight : NodeId → Nat}
    (hzero : count Census.zero = 0)
    (hadd : ∀ c id height, count (c.addNode t.store id height) = count c + weight id) :
    count t.census = ((t.store.nodesBelow t.store.root).map weight).sum := by
  have hsum := Census.addNodes_eq_sum hadd (t.store.preorder t.store.root) Census.zero
  rw [hzero, Nat.zero_add] at hsum
  exact hsum

theorem census_nodes (t : Trie V) :
    t.census.nodes = (t.store.nodesBelow t.store.root).length := by
  rw [t.census_eq_sum rfl fun _ _ _ => Census.nodes_addNode, List.map_const',
    List.sum_replicate_nat, Nat.mul_one]

theorem census_used (t : Trie V) :
    t.census.used = ((t.store.nodesBelow t.store.root).map t.store.degree).sum :=
  t.census_eq_sum rfl fun _ _ _ => Census.used_addNode

theorem census_slots (h : t.store.Sound) :
    t.census.slots = ((t.store.nodesBelow t.store.root).map t.store.room).sum := by
  rw [t.census_eq_sum rfl fun _ _ _ => Census.slots_addNode]
  refine congrArg List.sum (List.map_congr_left fun id hid => ?_)
  split
  · rename_i hzero
    have hlive := (h.mem_nodesBelow h.has_root).mp hid
    exact (h.room_eq_zero (h.has_live hlive) hzero).symm
  · rfl

theorem census_height_le_iff (t : Trie V) {bound : Nat} :
    t.census.height ≤ bound ↔ ∀ node ∈ t.store.preorder t.store.root, node.2 ≤ bound :=
  (Census.height_addNodes_le_iff t.store _ Census.zero).trans
    (and_iff_right (Nat.zero_le bound))

end Trie

end ByteTrie
