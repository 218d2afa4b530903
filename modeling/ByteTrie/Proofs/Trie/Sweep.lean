import ByteTrie.Proofs.Store.Listing
import ByteTrie.Proofs.Trie.Buckets
import ByteTrie.Proofs.Trie.Census

/-!
# The order of counting

A stack gives the nodes in another order than the list of them, and their branches
backwards. But in which order two nodes are counted makes no difference, not even to
the buckets, and what a stack has still to give is some order of what the nodes on it
list. So a stack comes to its end, without a bound on the rounds, and a sweep comes to
the census.
-/

namespace ByteTrie

variable {V : Type}

/-- Taking one thing after the other until there is none takes these. -/
inductive Exhausts {σ α : Type} (turn : σ → Option (α × σ)) : σ → List α → Prop
  | ended {state : σ} (last : turn state = none) : Exhausts turn state []
  | goes {state behind : σ} {first : α} {taken : List α} (next : turn state = some (first, behind))
      (later : Exhausts turn behind taken) : Exhausts turn state (first :: taken)

namespace Store

variable {s : Store V}

/-- What the nodes on a stack list, each from its own height on. -/
def pending (s : Store V) (stack : List (NodeId × Nat)) : List (NodeId × Nat) :=
  stack.flatMap fun node => s.preorderTo node.2 node.1 s.nodes.size

namespace Sound

variable {id : NodeId}

/-- A node on a stack gives place to its branches, in whatever order they come there. -/
theorem pending_cons_perm (h : s.Sound) (hid : s.Has id) (height : Nat)
    (stack : List (NodeId × Nat)) :
    (s.pending ((id, height) :: stack)).Perm ((id, height) ::
      s.pending (((s.children id).map fun child => (child, height + 1)).reverse ++ stack)) := by
  have hbranches : (s.children id).flatMap
      (fun child => s.preorderTo (height + 1) child s.nodes.size) =
        s.pending ((s.children id).map fun child => (child, height + 1)) := by
    rw [pending, List.flatMap_map]
  rw [pending, List.flatMap_cons, h.preorderTo_size_eq hid, hbranches, pending, pending,
    List.flatMap_append, List.cons_append]
  exact ((List.reverse_perm _).symm.flatMap_right _).append_right _ |>.cons _

/-- The root leads to no more nodes than were made. -/
theorem length_preorder_root_le (h : s.Sound) : (s.preorder s.root).length ≤ s.nodes.size := by
  have hhas : ∀ id ∈ s.nodesBelow s.root, s.Has id := fun id hid =>
    h.has_live ((h.mem_nodesBelow h.has_root).mp hid)
  have hle := length_le_size_of_ascending (h.pairwise_nodesBelow h.has_root) hhas
  rwa [nodesBelow, List.length_map] at hle

end Sound

end Store

namespace Census

variable {s : Store V}

theorem addNode_comm (s : Store V) (c : Census) (a b : NodeId × Nat) :
    (c.addNode s a.1 a.2).addNode s b.1 b.2 = (c.addNode s b.1 b.2).addNode s a.1 a.2 := by
  simp only [addNode, add]
  split <;> split <;>
    simp only [Nat.add_right_comm, max_right_comm, Bucket.count_comm]

theorem addNodes_perm {nodes nodes' : List (NodeId × Nat)} (h : nodes.Perm nodes') (c : Census) :
    c.addNodes s nodes = c.addNodes s nodes' :=
  h.foldl_eq' (fun a _ b _ c => addNode_comm s c a b) c

/-- The next node of a stack, and the stack with its branches on top. -/
def unstack (s : Store V) : List (NodeId × Nat) → Option ((NodeId × Nat) × List (NodeId × Nat))
  | [] => none
  | node :: rest =>
      some (node, ((s.children node.1).map fun child => (child, node.2 + 1)).reverse ++ rest)

/-- A stack is worked off in an order of what it has to give. -/
theorem exhausts_unstack (h : s.Sound) {stack : List (NodeId × Nat)}
    (hstack : ∀ node ∈ stack, s.Has node.1) :
    ∃ visited, Exhausts (unstack s) stack visited ∧ visited.Perm (s.pending stack) := by
  induction hn : (s.pending stack).length generalizing stack with
  | zero =>
    cases stack with
    | nil => exact ⟨[], .ended rfl, .nil⟩
    | cons node rest =>
      have hlength := (h.pending_cons_perm (hstack _ List.mem_cons_self) node.2 rest).length_eq
      rw [hn] at hlength
      cases hlength
  | succ n ih =>
    cases stack with
    | nil => cases hn
    | cons node rest =>
      obtain ⟨hid, hrest⟩ := List.forall_mem_cons.mp hstack
      have hbehind : ∀ other ∈ ((s.children node.1).map fun child =>
          (child, node.2 + 1)).reverse ++ rest, s.Has other.1 := by
        intro other hother
        rcases List.mem_append.mp hother with hbranch | hlater
        · obtain ⟨child, hchild, rfl⟩ := List.mem_map.mp (List.mem_reverse.mp hbranch)
          exact h.has_child hid hchild
        · exact hrest other hlater
      have hperm := h.pending_cons_perm hid node.2 rest
      have hlength := hperm.length_eq
      rw [hn, List.length_cons] at hlength
      obtain ⟨visited, hexhausts, hvisited⟩ := ih hbehind (Nat.succ.inj hlength).symm
      exact ⟨node :: visited, .goes rfl hexhausts, (hvisited.cons node).trans hperm.symm⟩

/-- A sweep counts the nodes of a stack as they come, if it has steps for all. -/
theorem drain_of_exhausts {stack visited : List (NodeId × Nat)}
    (h : Exhausts (unstack s) stack visited) {steps : Nat} (hsteps : visited.length ≤ steps)
    (c : Census) : c.drain s stack steps = c.addNodes s visited := by
  induction h generalizing steps c with
  | @ended stack last =>
    cases stack with
    | nil => rw [drain, addNodes, List.foldl_nil]
    | cons => cases last
  | @goes stack behind first taken next later ih =>
    cases stack with
    | nil => cases next
    | cons node rest =>
      obtain ⟨rfl, rfl⟩ := Prod.mk.inj (Option.some.inj next)
      obtain ⟨steps, rfl⟩ := Nat.exists_eq_add_of_le' (Nat.lt_of_lt_of_le (Nat.succ_pos _) hsteps)
      rw [drain, addNodes_cons]
      exact ih (Nat.le_of_succ_le_succ hsteps) _

/-- A stack is worked off when there are steps for all that it has to give. -/
theorem drain_eq (h : s.Sound) {stack : List (NodeId × Nat)} (hstack : ∀ node ∈ stack, s.Has node.1)
    {steps : Nat} (hsteps : (s.pending stack).length ≤ steps) (c : Census) :
    c.drain s stack steps = c.addNodes s (s.pending stack) := by
  obtain ⟨visited, hexhausts, hperm⟩ := exhausts_unstack h hstack
  rw [drain_of_exhausts hexhausts (hperm.length_eq.trans_le hsteps), addNodes_perm hperm]

end Census

theorem Trie.sweep_eq_census {t : Trie V} (h : t.store.Sound) : t.sweep = t.census := by
  have hpending : t.store.pending [(t.store.root, 1)] = t.store.preorder t.store.root :=
    List.flatMap_singleton _ _
  rw [sweep, Census.drain_eq h (by simpa using h.has_root)
    (hpending ▸ h.length_preorder_root_le), hpending]
  rfl

end ByteTrie
