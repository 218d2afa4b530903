import ByteTrie.Proofs.Store.Joints
import Mathlib.Algebra.BigOperators.Group.List.Basic
import Mathlib.Algebra.Ring.Nat
import Mathlib.Data.Finset.Lattice.Fold
import Mathlib.Order.Lattice.Nat

/-!
# Nodes and entries counted

A node below the root has a value, or two branches with entries at and below each
of them. Going up from the branches, fewer than two nodes come to stand for each
entry, and every step down a way leaves fewer entries and more bytes of key behind.
-/

namespace ByteTrie

variable {V : Type}

namespace Store

variable {s : Store V} {id child : NodeId}

/-- The entries below the root, which are those under keys that are not empty. -/
def properItems (s : Store V) : List (Key × V) := (s.children s.root).flatMap s.itemsBelow

/-- The keys that are not empty and have a value. -/
def properKeys (s : Store V) : Finset Key := (s.properItems.map Prod.fst).toFinset

/-- What holds of each tree holds of a forest, with a node to spare for each tree. -/
theorem sum_add_length_le {α : Type} {f g : α → Nat} {trees : List α}
    (h : ∀ tree ∈ trees, f tree + 1 ≤ 2 * g tree) :
    (trees.map f).sum + trees.length ≤ 2 * (trees.map g).sum := by
  induction trees with
  | nil => exact Nat.le_refl 0
  | cons tree trees ih =>
    obtain ⟨hfirst, hrest⟩ := List.forall_mem_cons.mp h
    have hsum := ih hrest
    simp only [List.map_cons, List.sum_cons, List.length_cons]
    omega

/-- When each tree counts for something, one of them leaves something for all others. -/
theorem add_length_le_sum {α : Type} {f : α → Nat} {trees : List α} (h : ∀ tree ∈ trees, 1 ≤ f tree)
    {tree : α} (htree : tree ∈ trees) : f tree + trees.length ≤ (trees.map f).sum + 1 := by
  obtain ⟨before, behind, rfl⟩ := List.append_of_mem htree
  obtain ⟨hbefore, hbehind⟩ := List.forall_mem_append.mp h
  have hsum := List.length_le_sum_of_one_le _ (List.forall_mem_map.mpr hbefore)
  have hsum' := List.length_le_sum_of_one_le _
    (List.forall_mem_map.mpr (List.forall_mem_cons.mp hbehind).2)
  simp only [List.map_append, List.map_cons, List.sum_append, List.sum_cons, List.length_append,
    List.length_cons, List.length_map] at hsum hsum' ⊢
  omega

/-- The value of a needed node, counted twice, and its branches are two at least. -/
theorem Needed.two_le (h : s.Needed id) :
    2 ≤ 2 * (s.node id).item?.toList.length + (s.children id).length := by
  rcases h with hvalue | htwo
  · obtain ⟨value, hvalue⟩ := Option.isSome_iff_exists.mp hvalue
    rw [Node.item?, hvalue, Option.map_some, Option.toList_some, List.length_singleton]
    exact Nat.le_add_right 2 _
  · exact Nat.le_trans htwo (Nat.le_add_left _ _)

namespace Sound

theorem length_nodesBelow (h : s.Sound) (hid : s.Has id) :
    (s.nodesBelow id).length =
      ((s.children id).map fun child => (s.nodesBelow child).length).sum + 1 := by
  rw [h.nodesBelow_eq hid, List.length_cons, List.length_flatMap]

theorem length_itemsBelow (h : s.Sound) (hid : s.Has id) :
    (s.itemsBelow id).length = (s.node id).item?.toList.length +
      ((s.children id).map fun child => (s.itemsBelow child).length).sum := by
  rw [h.itemsBelow_eq hid, List.length_append, List.length_flatMap]

theorem length_itemsBelow_pos (h : s.Sound) (hc : s.Compact) (hlive : s.Live id)
    (hroot : id ≠ s.root) : 1 ≤ (s.itemsBelow id).length :=
  List.length_pos_of_ne_nil (h.itemsBelow_ne_nil hc hlive hroot)

/-! ### Nodes and entries -/

/-- At and below a node that is not the root there are fewer than two nodes for each entry. -/
theorem length_nodesBelow_lt (h : s.Sound) (hc : s.Compact) (hlive : s.Live id)
    (hroot : id ≠ s.root) : (s.nodesBelow id).length + 1 ≤ 2 * (s.itemsBelow id).length := by
  induction id, h.has_live hlive using h.induction with
  | step id hid ih =>
    -- Each branch has a node to spare, and two of them make up for the node itself.
    have hforest := sum_add_length_le fun child hchild =>
      ih child hchild (hlive.tail hchild) (h.ne_root_of_branch hid hchild)
    have htwo := (hc id hlive hroot).two_le
    rw [h.length_nodesBelow hid, h.length_itemsBelow hid]
    omega

theorem length_nodesBelow_root_le (h : s.Sound) (hc : s.Compact) :
    (s.nodesBelow s.root).length + (s.children s.root).length ≤ 2 * s.properItems.length + 1 := by
  have hforest := sum_add_length_le fun child hchild => h.length_nodesBelow_lt hc
    (Relation.ReflTransGen.single hchild) (h.ne_root_of_branch h.has_root hchild)
  rw [h.length_nodesBelow h.has_root, properItems, List.length_flatMap]
  omega

/-- A branch comes to fewer entries than the node that it leads from. -/
theorem length_itemsBelow_lt (h : s.Sound) (hc : s.Compact) (hlive : s.Live id)
    (hroot : id ≠ s.root) (hchild : s.Branch id child) :
    (s.itemsBelow child).length < (s.itemsBelow id).length := by
  have hid := h.has_live hlive
  have hshare := add_length_le_sum (fun child hchild => h.length_itemsBelow_pos hc
    (hlive.tail hchild) (h.ne_root_of_branch hid hchild)) hchild
  have hinhabited := List.length_pos_of_mem hchild
  have htwo := (hc id hlive hroot).two_le
  rw [h.length_itemsBelow hid]
  omega

/-! ### Heights -/

/-- A way down has as many nodes at most as there are entries at and below the first. -/
theorem height_lt_of_mem (h : s.Sound) (hc : s.Compact) (hlive : s.Live id) (hroot : id ≠ s.root)
    {height depth : Nat} {node : NodeId × Nat} (hnode : node ∈ s.preorderTo height id depth) :
    node.2 < height + (s.itemsBelow id).length := by
  induction depth generalizing id height with
  | zero => cases hnode
  | succ depth ih =>
    rcases List.mem_cons.mp hnode with rfl | hbelow
    · exact Nat.lt_add_of_pos_right (h.length_itemsBelow_pos hc hlive hroot)
    · obtain ⟨child, hchild, hnode⟩ := List.mem_flatMap.mp hbelow
      have hlt := h.length_itemsBelow_lt hc hlive hroot hchild
      have hheight := ih (hlive.tail hchild) (h.ne_root_of_branch (h.has_live hlive) hchild) hnode
      omega

/-- Every step down makes the key longer. -/
theorem height_add_length_le_of_mem (h : s.Sound) (hid : s.Has id) {height depth : Nat}
    {node : NodeId × Nat} (hnode : node ∈ s.preorderTo height id depth) :
    node.2 + (s.key id).length ≤ height + (s.key node.1).length := by
  induction depth generalizing id height with
  | zero => cases hnode
  | succ depth ih =>
    rcases List.mem_cons.mp hnode with rfl | hbelow
    · exact Nat.le_refl _
    · obtain ⟨child, hchild, hnode⟩ := List.mem_flatMap.mp hbelow
      obtain ⟨byte, hlead⟩ := h.exists_leads hid hchild
      have hlt := hlead.length_lt
      have hheight := ih hlead.has hnode
      omega

theorem height_le_of_mem (h : s.Sound) (hc : s.Compact) {node : NodeId × Nat}
    (hnode : node ∈ s.preorder s.root) : node.2 ≤ 1 + s.properItems.length := by
  rw [h.preorder_root_eq] at hnode
  rcases List.mem_cons.mp hnode with rfl | hbelow
  · exact Nat.le_add_right 1 _
  · obtain ⟨child, hchild, hnode⟩ := List.mem_flatMap.mp hbelow
    have hheight := h.height_lt_of_mem hc (Relation.ReflTransGen.single hchild)
      (h.ne_root_of_branch h.has_root hchild) hnode
    have hle : (s.itemsBelow child).length ≤ s.properItems.length := by
      rw [properItems, List.flatMap_def]
      exact (List.sublist_flatten_of_mem (List.mem_map_of_mem hchild)).length_le
    omega

/-! ### Keys that are not empty -/

theorem mem_properItems (h : s.Sound) {key : Key} {value : V} :
    (key, value) ∈ s.properItems ↔ key ≠ [] ∧ (key, value) ∈ s.itemsBelow s.root := by
  rw [h.itemsBelow_eq h.has_root, List.mem_append, ← properItems]
  constructor
  · intro hitem
    refine ⟨?_, Or.inr hitem⟩
    obtain ⟨child, hchild, hmem⟩ := List.mem_flatMap.mp hitem
    obtain ⟨byte, hlead⟩ := h.exists_leads h.has_root hchild
    obtain ⟨other, hbelow, rfl, -⟩ := (h.mem_itemsBelow hlead.has).mp hmem
    have hlt := Nat.lt_of_lt_of_le hlead.length_lt
      (h.key_isPrefix_of_below hlead.has hbelow).length_le
    exact List.ne_nil_of_length_pos (Nat.zero_lt_of_lt hlt)
  · rintro ⟨hne, hroot | hitem⟩
    · obtain ⟨held, -, heq⟩ := Option.map_eq_some_iff.mp (Option.mem_toList.mp hroot)
      exact absurd ((Prod.mk.inj heq).1.symm.trans h.key_root) hne
    · exact hitem

theorem card_properKeys (h : s.Sound) : s.properKeys.card = s.properItems.length := by
  have hsublist : s.properItems.Sublist (s.itemsBelow s.root) := by
    rw [h.itemsBelow_eq h.has_root]
    exact List.sublist_append_right _ _
  have hnodup := (h.ascending_itemsBelow h.has_root).nodup_map_fst.sublist (hsublist.map Prod.fst)
  rw [properKeys, List.toFinset_card_of_nodup hnodup, List.length_map]

theorem length_key_le_sup (h : s.Sound) (hc : s.Compact) (hlive : s.Live id) :
    (s.key id).length ≤ s.properKeys.sup List.length := by
  by_cases hroot : id = s.root
  · rw [hroot, h.key_root]
    exact Nat.zero_le _
  obtain ⟨⟨key, value⟩, hitem⟩ := List.exists_mem_of_ne_nil _ (h.itemsBelow_ne_nil hc hlive hroot)
  obtain ⟨other, hbelow, rfl, hvalue⟩ := (h.mem_itemsBelow (h.has_live hlive)).mp hitem
  have hle := (h.key_isPrefix_of_below (h.has_live hlive) hbelow).length_le
  have hne : s.key other ≠ [] := by
    intro hnil
    rw [hnil, List.length_nil, Nat.le_zero, List.length_eq_zero_iff] at hle
    exact hroot (h.eq_root_of_key_eq_nil hlive hle)
  have hmem : (s.key other, value) ∈ s.properItems := h.mem_properItems.mpr
    ⟨hne, (h.mem_itemsBelow h.has_root).mpr ⟨other, hlive.trans hbelow, rfl, hvalue⟩⟩
  have hkey : s.key other ∈ s.properKeys := List.mem_toFinset.mpr (List.mem_map_of_mem hmem)
  exact Nat.le_trans hle (Finset.le_sup (f := List.length) hkey)

end Sound

end Store

end ByteTrie
