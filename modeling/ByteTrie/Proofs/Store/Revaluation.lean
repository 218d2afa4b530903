import ByteTrie.Proofs.Store.Suspension
import ByteTrie.Store.Insertion

/-!
# Stores that differ in values only

Storing a value under a key that has one sets the value of a live node, and
makes, cuts or replaces none. A traversal that is suspended meanwhile has the
same nodes to come. As long as all of these are the trie's, it has the values
to come that the trie holds.
-/

namespace ByteTrie

namespace Store

variable {V : Type} {s s' s'' : Store V} {id : NodeId} {key : Key} {value : V}

theorem Sound.mem_map_fst_root_iff (h : s.Sound) {key : Key} :
    key ∈ (s.itemsBelow s.root).map Prod.fst ↔ ∃ value, s.lookup key = .ok (some value) := by
  simp only [h.lookup_eq, Except.ok.injEq, List.mem_map, Prod.exists, exists_and_right,
    exists_eq_right, ← (h.ascending_itemsBelow h.has_root).mem_iff_lookup_eq_some]

/-- All nodes and rows are as they were but for values, and the same nodes have one. -/
structure Revalued (s s' : Store V) : Prop where
  root : s'.root = s.root
  has : ∀ id, s'.Has id ↔ s.Has id
  segment : ∀ id, (s'.node id).segment = (s.node id).segment
  rowOf : ∀ id, (s'.node id).row = (s.node id).row
  valued : ∀ id, (s'.node id).value.isSome = (s.node id).value.isSome
  row : ∀ row, s'.row row = s.row row

namespace Revalued

theorem refl (s : Store V) : s.Revalued s where
  root := rfl
  has _ := Iff.rfl
  segment _ := rfl
  rowOf _ := rfl
  valued _ := rfl
  row _ := rfl

theorem trans (h : s.Revalued s') (h' : s'.Revalued s'') : s.Revalued s'' where
  root := h'.root.trans h.root
  has id := (h'.has id).trans (h.has id)
  segment id := (h'.segment id).trans (h.segment id)
  rowOf id := (h'.rowOf id).trans (h.rowOf id)
  valued id := (h'.valued id).trans (h.valued id)
  row row := (h'.row row).trans (h.row row)

theorem setValue (hid : s.Has id) (hvalue : (s.node id).value.isSome) (value : V) :
    s.Revalued (s.setValue id value) where
  root := rfl
  has := has_setValue value
  segment := segment_setValue hid value
  rowOf := rowOf_setValue hid value
  valued other := by
    rw [node_setValue hid]
    split
    · rename_i heq
      exact heq ▸ hvalue.symm
    · rfl
  row _ := rfl

theorem key_eq (h : s.Revalued s') (id : NodeId) : s'.key id = s.key id := by
  rw [Store.key, Store.key, h.segment]

theorem branches?_eq (h : s.Revalued s') (id : NodeId) : s'.branches? id = s.branches? id := by
  rw [branches?, branches?, h.rowOf, funext h.row]

theorem children_eq (h : s.Revalued s') (id : NodeId) : s'.children id = s.children id := by
  rw [children, children, h.branches?_eq]

theorem live_iff (h : s.Revalued s') (id : NodeId) : s'.Live id ↔ s.Live id := by
  have hbranch : s'.Branch = s.Branch := by
    funext parent child
    rw [Branch, Branch, h.children_eq]
  rw [Live, Live, Below, Below, h.root, hbranch]

/-- The same keys are listed. -/
theorem map_fst_itemsBelow (h : s.Revalued s') (hs : s.Sound) (hs' : s'.Sound) (hid : s.Has id) :
    (s'.itemsBelow id).map Prod.fst = (s.itemsBelow id).map Prod.fst := by
  obtain ⟨hnodes, -⟩ := hs.nodesBelow_congr hs'
    (fun other hother => ⟨hother, (h.has other).mpr hother⟩) (fun other _ => h.children_eq other)
    (fun _ hother _ hchild => hs.has_child hother hchild) hid
  rw [itemsBelow_eq_filterMap, itemsBelow_eq_filterMap, hnodes, List.map_filterMap,
    List.map_filterMap]
  refine List.filterMap_congr fun other _ => ?_
  have hvalued := h.valued other
  rw [Node.item?, Node.item?, h.segment]
  cases hold : (s.node other).value <;> cases hnew : (s'.node other).value <;>
    simp [hold, hnew] at hvalued ⊢

/-- The same keys have a value. -/
theorem exists_lookup_iff (h : s.Revalued s') (hs : s.Sound) (hs' : s'.Sound) (key : Key) :
    (∃ value, s'.lookup key = .ok (some value)) ↔ ∃ value, s.lookup key = .ok (some value) := by
  rw [← hs'.mem_map_fst_root_iff, ← hs.mem_map_fst_root_iff, h.root,
    h.map_fst_itemsBelow hs hs' hs.has_root]

/-! ### Traversals -/

theorem pending_eq (h : s.Revalued s') (t : Traversal) : t.pending s' = t.pending s := by
  have hrows (r : OpenRow) : r.pending s' = r.pending s := by
    rw [OpenRow.pending, OpenRow.pending, h.row]
    refine List.map_congr_left fun entry _ => ?_
    rw [address, address, h.key_eq, h.segment]
  rw [Traversal.pending, Traversal.pending, funext hrows, funext h.key_eq]

theorem map_fst_rest (h : s.Revalued s') (hs : s.Sound) (hs' : s'.Sound) {t : Traversal}
    (ht : t.Sound s) : (t.rest s').map Prod.fst = (t.rest s).map Prod.fst := by
  rw [Traversal.rest, Traversal.rest, h.pending_eq, List.map_flatMap, List.map_flatMap]
  exact List.flatMap_congr fun p hp => h.map_fst_itemsBelow hs hs' (ht.has_of_mem_pending hs hp).1

end Revalued

/-- A key that has a value keeps its node, and gets a new value there. -/
theorem Sound.insert_of_lookup (h : s.Sound) (sizing : Sizing) {held : V}
    (hlookup : s.lookup key = .ok (some held)) (value : V) :
    ∃ id, s.Live id ∧ s.key id = key ∧ (s.node id).value = some held ∧
      s.insert sizing key value = .ok (some held, s.setValue id value) := by
  obtain ⟨stop, htrace, hstops, -⟩ := h.trace key
  rw [Store.lookup, htrace] at hlookup
  cases hstops with
  | diverged | branchless => cases hlookup
  | @ended place matched hplaced hle hbegun hread =>
    have hlive := hplaced.live h
    have hvalue : (if matched = (s.node place.node).segment.length then
        (s.node place.node).value else none) = some held := Except.ok.inj hlookup
    rw [Option.ite_none_right_eq_some] at hvalue
    obtain ⟨hend, hvalue⟩ := hvalue
    refine ⟨place.node, hlive, ?_, hvalue, ?_⟩
    · rw [← h.read_length (h.has_live hlive), ← hend, hread]
    · rw [Store.insert, htrace]
      simp only [bind, Except.bind]
      rw [if_pos hend, hvalue]
      rfl

end Store

namespace Traversal

variable {V : Type} {s s' : Store V} {t : Traversal}

/-- All that a traversal has still to enter is in the trie. -/
def Attached (s : Store V) (t : Traversal) : Prop := ∀ p ∈ t.pending s, s.Live p.2

theorem attached_done : done.Attached s := fun _ hp => by cases hp

theorem Attached.visit (h : t.Attached s) (hs : s.Sound) (ht : t.Sound s) {id : NodeId}
    {t' : Traversal} (hvisit : t.visit s = some (id, t')) : t'.Attached s := by
  obtain ⟨-, anchor, later, hpending, hafter⟩ := ht.of_visit hs hvisit
  intro p hp
  rw [Attached, hpending] at h
  rw [hafter] at hp
  -- What comes in the place of a node that is entered are its children.
  rcases List.mem_append.mp hp with hmem | hmem
  · obtain ⟨child, hchild, rfl⟩ := List.mem_map.mp hmem
    exact (h _ List.mem_cons_self).tail hchild
  · exact h p (List.mem_cons_of_mem _ hmem)

theorem Attached.advances (h : t.Attached s) (hs : s.Sound) (ht : t.Sound s)
    {found : Option NodeId} {t' : Traversal} (hadvances : Advances s t found t') :
    t'.Attached s := by
  refine (hadvances.stepwise (fun t => t.Sound s ∧ t.Attached s) ⟨sound_done, attached_done⟩
    ?_ ⟨ht, h⟩).2
  rintro t id t' ⟨ht, h⟩ hvisit
  exact ⟨(ht.of_visit hs hvisit).1, h.visit hs ht hvisit⟩

theorem Attached.revalued (h : t.Attached s) (hrevalued : s.Revalued s') : t.Attached s' := by
  intro p hp
  rw [hrevalued.pending_eq] at hp
  exact (hrevalued.live_iff p.2).mpr (h p hp)

/-- What is to come from a traversal of the trie is what the trie holds. -/
theorem Attached.lookup_eq (h : t.Attached s) (hs : s.Sound) {key : Key} {value : V}
    (hitem : (key, value) ∈ t.rest s) : s.lookup key = .ok (some value) := by
  obtain ⟨p, hp, hitem⟩ := List.mem_flatMap.mp hitem
  obtain ⟨id, hbelow, rfl, hvalue⟩ := (hs.mem_itemsBelow (hs.has_live (h p hp))).mp hitem
  rw [hs.lookup_eq, hs.lookup_root_key ((h p hp).trans hbelow), hvalue]

end Traversal

end ByteTrie
