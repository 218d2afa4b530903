import ByteTrie.Proofs.Store.Listing
import Mathlib.Data.List.Chain
import Mathlib.Order.Bounds.Basic

/-!
# Ways down

The height at which a node is listed is the number of nodes on the way from the
root to it. A way that ends at a node with branches can be prolonged, so the
greatest height is the length of a longest way to a node without branches.
-/

namespace ByteTrie

variable {V : Type}

namespace Store

variable {s : Store V} {id : NodeId} {height : Nat}

/-- A way from the root to a node without branches. -/
structure IsWayDown (s : Store V) (path : List NodeId) : Prop where
  head : path.head? = some s.root
  steps : path.IsChain s.Branch
  last : ∀ id ∈ path.getLast?, s.children id = []

theorem exists_path_of_mem {depth : Nat} {node : NodeId × Nat}
    (hnode : node ∈ s.preorderTo height id depth) :
    ∃ path : List NodeId, path.head? = some id ∧ path.IsChain s.Branch ∧
      path.getLast? = some node.1 ∧ node.2 + 1 = height + path.length := by
  induction depth generalizing id height with
  | zero => cases hnode
  | succ depth ih =>
    rcases List.mem_cons.mp hnode with rfl | hbelow
    · exact ⟨[id], rfl, .singleton id, rfl, rfl⟩
    · obtain ⟨child, hchild, hnode⟩ := List.mem_flatMap.mp hbelow
      obtain ⟨path, hhead, hsteps, hlast, hlength⟩ := ih hnode
      refine ⟨id :: path, rfl, List.isChain_cons.mpr ⟨?_, hsteps⟩, ?_, ?_⟩
      · rintro next hnext
        obtain rfl := Option.some.inj (hhead.symm.trans hnext)
        exact hchild
      · rw [List.getLast?_cons, hlast, Option.getD_some]
      · rw [hlength, List.length_cons]
        omega

namespace Sound

theorem mem_preorderTo_of_path (h : s.Sound) (hid : s.Has id) (height : Nat)
    {path : List NodeId} (hhead : path.head? = some id) (hsteps : path.IsChain s.Branch)
    {last : NodeId} (hlast : path.getLast? = some last) :
    ∃ node ∈ s.preorderTo height id s.nodes.size,
      node.1 = last ∧ node.2 + 1 = height + path.length := by
  induction path generalizing id height with
  | nil => cases hhead
  | cons first rest ih =>
    obtain rfl := Option.some.inj hhead
    rw [h.preorderTo_size_eq hid]
    cases rest with
    | nil =>
      exact ⟨(first, height), List.mem_cons_self, Option.some.inj hlast, rfl⟩
    | cons next rest =>
      obtain ⟨hstep, hrest⟩ := List.isChain_cons_cons.mp hsteps
      obtain ⟨node, hnode, heq, hlength⟩ := ih (h.has_child hid hstep) (height + 1) rfl hrest
        (List.getLast?_cons_cons.symm.trans hlast)
      refine ⟨node, List.mem_cons_of_mem _ (List.mem_flatMap.mpr ⟨next, hstep, hnode⟩), heq, ?_⟩
      simp only [hlength, List.length_cons]
      omega

theorem mem_preorder_of_path (h : s.Sound) {path : List NodeId} (hhead : path.head? = some s.root)
    (hsteps : path.IsChain s.Branch) {last : NodeId} (hlast : path.getLast? = some last) :
    (last, path.length) ∈ s.preorder s.root := by
  obtain ⟨⟨other, height⟩, hnode, rfl, hlength⟩ :=
    h.mem_preorderTo_of_path h.has_root 1 hhead hsteps hlast
  obtain rfl : height = path.length := by omega
  exact hnode

/-- Some node is listed at the greatest height. -/
theorem exists_mem_preorder_eq (h : s.Sound) {top : Nat}
    (htop : ∀ bound, top ≤ bound ↔ ∀ node ∈ s.preorder s.root, node.2 ≤ bound) :
    ∃ id, (id, top) ∈ s.preorder s.root := by
  have hle := (htop top).mp (Nat.le_refl _)
  by_contra hnone
  have hlt : ∀ node ∈ s.preorder s.root, node.2 ≤ top - 1 := by
    intro node hnode
    have hne : node.2 ≠ top := fun heq => hnone ⟨node.1, heq ▸ hnode⟩
    have := hle node hnode
    omega
  have := (htop (top - 1)).mpr hlt
  have := hle _ h.root_mem_preorder
  omega

/-- A path that is as long as any node stands high ends at a node without branches. -/
theorem isWayDown_of_forall_le (h : s.Sound) {path : List NodeId}
    (hhead : path.head? = some s.root) (hsteps : path.IsChain s.Branch)
    (hle : ∀ node ∈ s.preorder s.root, node.2 ≤ path.length) : s.IsWayDown path := by
  refine ⟨hhead, hsteps, fun last hlast => ?_⟩
  -- A branch of the last node would be listed one higher.
  refine List.eq_nil_iff_forall_not_mem.mpr fun child hchild => ?_
  have hlonger : (path ++ [child]).IsChain s.Branch := by
    refine List.isChain_append.mpr ⟨hsteps, .singleton child, ?_⟩
    rintro other hother next hnext
    obtain rfl := Option.some.inj (hlast.symm.trans hother)
    obtain rfl := Option.some.inj hnext
    exact hchild
  have hhead' : (path ++ [child]).head? = some s.root := by
    rw [List.head?_append, hhead]
    rfl
  have hheight := hle _ (h.mem_preorder_of_path hhead' hlonger List.getLast?_concat)
  rw [List.length_append, List.length_singleton] at hheight
  omega

/-- The greatest height is the length of a longest way down. -/
theorem isGreatest_height (h : s.Sound) {top : Nat}
    (htop : ∀ bound, top ≤ bound ↔ ∀ node ∈ s.preorder s.root, node.2 ≤ bound) :
    IsGreatest {length | ∃ path, s.IsWayDown path ∧ path.length = length} top := by
  have hle := (htop top).mp (Nat.le_refl _)
  constructor
  · obtain ⟨id, hid⟩ := h.exists_mem_preorder_eq htop
    obtain ⟨path, hhead, hsteps, -, hlength⟩ := exists_path_of_mem hid
    obtain rfl : top = path.length := by omega
    exact ⟨path, h.isWayDown_of_forall_le hhead hsteps hle, rfl⟩
  · rintro length ⟨path, hway, rfl⟩
    have hne : path ≠ [] := List.ne_nil_of_mem (List.mem_of_head? hway.head)
    have hlast := List.getLast?_eq_some_getLast hne
    exact hle _ (h.mem_preorder_of_path hway.head hway.steps hlast)

end Sound

end Store

end ByteTrie
