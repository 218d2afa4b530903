import ByteTrie.Proofs.Entries
import ByteTrie.Proofs.Store.Sound
import Mathlib.Data.Finset.Card
import Mathlib.Data.Finset.Range

/-!
# What a node lists

In a sound store the nodes below a node are finitely deep, so the list of them
obeys the equation that its definition suggests: a node, then what its branches
list. The keys in it are strictly ascending, and it holds just what can be
reached. All later reasoning about stored entries goes through these equations,
and proceeds from the branches of a node to the node.
-/

namespace ByteTrie

namespace Store

variable {V : Type} {s s' : Store V}

/-- How many nodes have longer keys than a node; a branch has fewer of them. -/
def rank (s : Store V) (id : NodeId) : Nat :=
  ((Finset.range s.nodes.size).filter fun i => (s.key id).length < (s.key ⟨i⟩).length).card

/-- A node and all nodes below it, in the order of their keys. -/
def nodesBelow (s : Store V) (id : NodeId) : List NodeId := (s.preorder id).map Prod.fst

namespace Sound

variable {id child : NodeId}

theorem rank_lt_size (hid : s.Has id) : s.rank id < s.nodes.size := by
  have hproper : (Finset.range s.nodes.size).filter
      (fun i => (s.key id).length < (s.key ⟨i⟩).length) ⊂ Finset.range s.nodes.size :=
    Finset.filter_ssubset.mpr ⟨id.index, Finset.mem_range.mpr hid, Nat.lt_irrefl _⟩
  simpa [rank] using Finset.card_lt_card hproper

theorem rank_child_lt (h : s.Sound) (hid : s.Has id) (hchild : s.Branch id child) :
    s.rank child < s.rank id := by
  obtain ⟨byte, hlead⟩ := h.exists_leads hid hchild
  apply Finset.card_lt_card
  refine Finset.ssubset_iff_of_subset ?_ |>.mpr ⟨child.index, ?_, ?_⟩
  · intro i hi
    rw [Finset.mem_filter] at hi ⊢
    exact ⟨hi.1, Nat.lt_trans hlead.length_lt hi.2⟩
  · exact Finset.mem_filter.mpr ⟨Finset.mem_range.mpr hlead.has, hlead.length_lt⟩
  · exact fun hmem => Nat.lt_irrefl _ (Finset.mem_filter.mp hmem).2

/-- What holds of a node when it holds of its branches holds of every node. -/
theorem induction (h : s.Sound) {P : ∀ id, s.Has id → Prop}
    (step : ∀ id (hid : s.Has id),
      (∀ child (hchild : s.Branch id child), P child (h.has_child hid hchild)) → P id hid)
    (id : NodeId) (hid : s.Has id) : P id hid := by
  induction hrank : s.rank id using Nat.strongRecOn generalizing id with
  | _ rank ih =>
    refine step id hid fun child hchild => ?_
    exact ih (s.rank child) (hrank ▸ h.rank_child_lt hid hchild) child (h.has_child hid hchild) rfl

theorem preorderTo_eq (h : s.Sound) (hid : s.Has id) {height depth depth' : Nat}
    (hdepth : s.rank id < depth) (hdepth' : s.rank id < depth') :
    s.preorderTo height id depth = s.preorderTo height id depth' := by
  induction depth generalizing id height depth' with
  | zero => exact absurd hdepth (Nat.not_lt_zero _)
  | succ depth ih =>
    cases depth' with
    | zero => exact absurd hdepth' (Nat.not_lt_zero _)
    | succ depth' =>
      rw [preorderTo, preorderTo]
      congr 1
      apply List.flatMap_congr
      intro child hchild
      have hrank := h.rank_child_lt hid hchild
      exact ih (h.has_child hid hchild) (by omega) (by omega)

end Sound

theorem map_fst_preorderTo (s : Store V) (height height' : Nat) (id : NodeId) (depth : Nat) :
    (s.preorderTo height id depth).map Prod.fst = (s.preorderTo height' id depth).map Prod.fst := by
  induction depth generalizing id height height' with
  | zero => rfl
  | succ depth ih =>
    rw [preorderTo, preorderTo, List.map_cons, List.map_cons, List.map_flatMap, List.map_flatMap]
    congr 1
    exact List.flatMap_congr fun child _ => ih (height + 1) (height' + 1) child

theorem itemsBelow_eq_filterMap (s : Store V) (id : NodeId) :
    s.itemsBelow id = (s.nodesBelow id).filterMap fun id => (s.node id).item? := by
  rw [itemsBelow, nodesBelow, List.filterMap_map]
  rfl

namespace Sound

variable {id : NodeId}

theorem preorderTo_size_eq (h : s.Sound) (hid : s.Has id) (height : Nat) :
    s.preorderTo height id s.nodes.size = (id, height) ::
      (s.children id).flatMap fun child => s.preorderTo (height + 1) child s.nodes.size := by
  obtain ⟨depth, hdepth⟩ := Nat.exists_eq_succ_of_ne_zero (Nat.ne_of_gt (Nat.zero_lt_of_lt hid))
  have hunfold : s.preorderTo height id s.nodes.size = (id, height) ::
      (s.children id).flatMap fun child => s.preorderTo (height + 1) child depth := by
    rw [hdepth, preorderTo]
  rw [hunfold]
  refine congrArg _ (List.flatMap_congr fun child hchild => ?_)
  have hhas := h.has_child hid hchild
  have hrank := h.rank_child_lt hid hchild
  have hsize := rank_lt_size hid
  exact h.preorderTo_eq hhas (by omega) (rank_lt_size hhas)

theorem nodesBelow_eq (h : s.Sound) (hid : s.Has id) :
    s.nodesBelow id = id :: (s.children id).flatMap s.nodesBelow := by
  rw [nodesBelow, preorder, h.preorderTo_size_eq hid, List.map_cons, List.map_flatMap]
  exact congrArg _ (List.flatMap_congr fun child _ => map_fst_preorderTo s (1 + 1) 1 child _)

theorem preorder_root_eq (h : s.Sound) : s.preorder s.root =
    (s.root, 1) :: (s.children s.root).flatMap fun child => s.preorderTo 2 child s.nodes.size :=
  h.preorderTo_size_eq h.has_root 1

theorem root_mem_preorder (h : s.Sound) : (s.root, 1) ∈ s.preorder s.root :=
  h.preorder_root_eq ▸ List.mem_cons_self

theorem itemsBelow_eq (h : s.Sound) (hid : s.Has id) :
    s.itemsBelow id = (s.node id).item?.toList ++ (s.children id).flatMap s.itemsBelow := by
  rw [itemsBelow_eq_filterMap, h.nodesBelow_eq hid, List.filterMap_cons, List.filterMap_flatMap]
  have hchildren : ((s.children id).flatMap fun child =>
      (s.nodesBelow child).filterMap fun id => (s.node id).item?) =
        (s.children id).flatMap s.itemsBelow :=
    List.flatMap_congr fun child _ => (s.itemsBelow_eq_filterMap child).symm
  rw [hchildren]
  cases (s.node id).item? <;> rfl

theorem mem_nodesBelow (h : s.Sound) (hid : s.Has id) {other : NodeId} :
    other ∈ s.nodesBelow id ↔ s.Below id other := by
  induction id, hid using h.induction with
  | step id hid ih =>
    rw [h.nodesBelow_eq hid, List.mem_cons, List.mem_flatMap, Below,
      Relation.ReflTransGen.cases_head_iff, eq_comm]
    exact or_congr_right (exists_congr fun child => and_congr_right fun hchild => ih child hchild)

theorem mem_itemsBelow (h : s.Sound) (hid : s.Has id) {key : Key} {value : V} :
    (key, value) ∈ s.itemsBelow id ↔
      ∃ other, s.Below id other ∧ s.key other = key ∧ (s.node other).value = some value := by
  rw [itemsBelow_eq_filterMap, List.mem_filterMap]
  refine exists_congr fun other => and_congr (h.mem_nodesBelow hid) ?_
  rw [Node.item?, Option.map_eq_some_iff]
  constructor
  · rintro ⟨held, hvalue, heq⟩
    obtain ⟨rfl, rfl⟩ := Prod.mk.inj heq
    exact ⟨rfl, hvalue⟩
  · rintro ⟨rfl, hvalue⟩
    exact ⟨value, hvalue, rfl⟩

/-! ### The order of what is listed -/

theorem pairwise_address_children (h : s.Sound) (hid : s.Has id) :
    (s.children id).Pairwise fun a b => Key.Precedes (s.address a) (s.address b) := by
  cases hrow : (s.node id).row with
  | none =>
    rw [children_of_row_none hrow]
    exact List.Pairwise.nil
  | some row =>
    have hsound := h.rowSound hid hrow
    rw [children_of_row_some hrow, List.pairwise_map]
    have hasc := List.pairwise_map.mp hsound.sound.ascending_entries
    refine hasc.imp_of_mem ?_
    intro a b ha hb hlt
    rw [(hsound.leads a ha).address_eq, (hsound.leads b hb).address_eq]
    exact Key.precedes_of_lt _ hlt

theorem address_isPrefix_of_below (h : s.Sound) (hid : s.Has id) {other : NodeId}
    (hbelow : s.Below id other) : s.address id <+: s.key other :=
  (address_isPrefix id).trans (h.key_isPrefix_of_below hid hbelow)

/-- Nodes whose addresses precede one another list keys in ascending order, if
each of them does. -/
theorem pairwise_flatMap_nodesBelow (h : s.Sound) {ids : List NodeId} (hids : ∀ id ∈ ids, s.Has id)
    (haddress : ids.Pairwise fun a b => Key.Precedes (s.address a) (s.address b))
    (hown : ∀ id ∈ ids, (s.nodesBelow id).Pairwise fun a b => s.key a < s.key b) :
    (ids.flatMap s.nodesBelow).Pairwise fun a b => s.key a < s.key b := by
  refine List.pairwise_flatMap.mpr ⟨hown, haddress.imp_of_mem ?_⟩
  intro a b ha hb hprecedes x hx y hy
  rw [h.mem_nodesBelow (hids a ha)] at hx
  rw [h.mem_nodesBelow (hids b hb)] at hy
  exact hprecedes _ _ (h.address_isPrefix_of_below (hids a ha) hx)
    (h.address_isPrefix_of_below (hids b hb) hy)

theorem pairwise_nodesBelow (h : s.Sound) (hid : s.Has id) :
    (s.nodesBelow id).Pairwise fun a b => s.key a < s.key b := by
  induction id, hid using h.induction with
  | step id hid ih =>
    rw [h.nodesBelow_eq hid]
    have hchildren := h.pairwise_flatMap_nodesBelow (fun child hchild => h.has_child hid hchild)
      (h.pairwise_address_children hid) ih
    refine List.pairwise_cons.mpr ⟨?_, hchildren⟩
    intro other hother
    obtain ⟨child, hchild, hother⟩ := List.mem_flatMap.mp hother
    have hbelow := (h.mem_nodesBelow (h.has_child hid hchild)).mp hother
    have hsteps : Relation.TransGen s.Branch id other := Relation.TransGen.head' hchild hbelow
    exact Key.lt_of_isPrefix_of_length_lt (h.key_isPrefix_of_below hid hsteps.to_reflTransGen)
      (h.length_key_lt_of_transGen hid hsteps)

end Sound

/-- Nodes in the order of their keys are different ones. -/
theorem nodup_of_ascending {ids : List NodeId}
    (h : ids.Pairwise fun a b => s.key a < s.key b) : ids.Nodup := by
  refine h.imp ?_
  rintro a _ hlt rfl
  exact List.lt_irrefl _ hlt

/-- Nodes in the order of their keys are no more than were made. -/
theorem length_le_size_of_ascending {ids : List NodeId}
    (h : ids.Pairwise fun a b => s.key a < s.key b) (hids : ∀ id ∈ ids, s.Has id) :
    ids.length ≤ s.nodes.size := by
  have hnodup : (ids.map NodeId.index).Nodup :=
    (nodup_of_ascending h).map fun ⟨_⟩ ⟨_⟩ heq => congrArg NodeId.mk heq
  have hsub : ids.map NodeId.index ⊆ List.range s.nodes.size := by
    intro index hindex
    obtain ⟨id, hid, rfl⟩ := List.mem_map.mp hindex
    exact List.mem_range.mpr (hids id hid)
  have hle := (hnodup.subperm hsub).length_le
  rwa [List.length_range, List.length_map] at hle

theorem Sound.nodup_nodesBelow (h : s.Sound) {id : NodeId} (hid : s.Has id) :
    (s.nodesBelow id).Nodup :=
  nodup_of_ascending (h.pairwise_nodesBelow hid)

/-- Nodes in the order of their keys have their entries in that order. -/
theorem ascending_filterMap_item? {ids : List NodeId}
    (h : ids.Pairwise fun a b => s.key a < s.key b) :
    Entries.Ascending (ids.filterMap fun id => (s.node id).item?) := by
  refine List.pairwise_filterMap.mpr (h.imp ?_)
  intro a b hlt x hx y hy
  obtain ⟨v, -, rfl⟩ := Option.map_eq_some_iff.mp hx
  obtain ⟨w, -, rfl⟩ := Option.map_eq_some_iff.mp hy
  exact hlt

theorem Sound.ascending_itemsBelow (h : s.Sound) {id : NodeId} (hid : s.Has id) :
    Entries.Ascending (s.itemsBelow id) :=
  s.itemsBelow_eq_filterMap id ▸ ascending_filterMap_item? (h.pairwise_nodesBelow hid)

/-- What lies below a node is listed alike in two stores that agree on it. -/
theorem Sound.nodesBelow_congr (h : s.Sound) (h' : s'.Sound) {K : NodeId → Prop}
    (hhas : ∀ id, K id → s.Has id ∧ s'.Has id)
    (hchildren : ∀ id, K id → s'.children id = s.children id)
    (hclosed : ∀ id, K id → ∀ child, s.Branch id child → K child) {id : NodeId} (hK : K id) :
    s'.nodesBelow id = s.nodesBelow id ∧ ∀ other ∈ s.nodesBelow id, K other := by
  induction id, (hhas id hK).1 using h.induction with
  | step id hid ih =>
    have ih' (child : NodeId) (hchild : s.Branch id child) :=
      ih child hchild (hclosed id hK child hchild)
    rw [h.nodesBelow_eq hid, h'.nodesBelow_eq (hhas id hK).2, hchildren id hK]
    refine ⟨congrArg (id :: ·) (List.flatMap_congr fun child hchild => (ih' child hchild).1), ?_⟩
    intro other hother
    rcases List.mem_cons.mp hother with rfl | hother
    · exact hK
    · obtain ⟨child, hchild, hother⟩ := List.mem_flatMap.mp hother
      exact (ih' child hchild).2 other hother

end Store

end ByteTrie
