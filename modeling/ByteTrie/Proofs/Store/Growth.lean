import ByteTrie.Proofs.Store.Descent

/-!
# Writes to a sound store

A store grows when nodes and rows are added and nothing else is written; what
was there stays as it was, and the new nodes and rows are out of the root's
reach until one write makes them part of the trie. Each of the writes keeps a
store sound on its own terms: a new node must be sound by itself, and a node
that is put into a seat must prolong the same key by the same byte as the one
that was there.
-/

namespace ByteTrie

namespace Store

variable {V : Type} {s s' s'' : Store V}

/-- All nodes and rows are there still, as they were. -/
structure Keeps (s s' : Store V) : Prop where
  has : ∀ id, s.Has id → s'.Has id
  hasRow : ∀ row, s.HasRow row → s'.HasRow row
  node : ∀ id, s.Has id → s'.node id = s.node id
  row : ∀ row, s.HasRow row → s'.row row = s.row row

/-- The root is the same as well. -/
structure Grows (s s' : Store V) : Prop extends Keeps s s' where
  root : s'.root = s.root

/-- The node at a place has been replaced by another, and nothing else written. -/
inductive Installed (s : Store V) (new : NodeId) : Place → Store V → Prop
  | root : Installed s new s.rootPlace { s with root := new }
  | branch {row : RowId} {index : Nat} {old : NodeId} {byte : UInt8} {changed : Branches NodeId}
      (held : (s.row row).entries[index]? = some (byte, old)) (sound : changed.Sound)
      (capacity : changed.capacity = (s.row row).capacity)
      (entries : changed.entries = (s.row row).entries.set index (byte, new)) :
      Installed s new ⟨.branch row index, old⟩ (s.setRow row changed)

/-! ### Reading over a write -/

theorem node_addNode (s : Store V) (node : Node V) (id : NodeId) :
    (s.addNode node).2.node id = if id = ⟨s.nodes.size⟩ then node else s.node id := by
  rw [addNode, Store.node, Store.node, Array.getD_eq_getD_getElem?, Array.getD_eq_getD_getElem?,
    Array.getElem?_push]
  obtain ⟨index⟩ := id
  by_cases heq : index = s.nodes.size <;> simp [heq]

theorem has_addNode (s : Store V) (node : Node V) (id : NodeId) :
    (s.addNode node).2.Has id ↔ s.Has id ∨ id = ⟨s.nodes.size⟩ := by
  obtain ⟨index⟩ := id
  simp only [Has, addNode, Array.size_push, NodeId.mk.injEq]
  omega

theorem has_addNode_self (s : Store V) (node : Node V) : (s.addNode node).2.Has ⟨s.nodes.size⟩ :=
  (has_addNode s node _).mpr (Or.inr rfl)

theorem row_addRow (s : Store V) (b : Branches NodeId) (row : RowId) :
    (s.addRow b).2.row row = if row = ⟨s.rows.size⟩ then b else s.row row := by
  rw [addRow, Store.row, Store.row, Array.getD_eq_getD_getElem?, Array.getD_eq_getD_getElem?,
    Array.getElem?_push]
  obtain ⟨index⟩ := row
  by_cases heq : index = s.rows.size <;> simp [heq]

theorem hasRow_addRow (s : Store V) (b : Branches NodeId) (row : RowId) :
    (s.addRow b).2.HasRow row ↔ s.HasRow row ∨ row = ⟨s.rows.size⟩ := by
  obtain ⟨index⟩ := row
  simp only [HasRow, addRow, Array.size_push, RowId.mk.injEq]
  omega

theorem hasRow_addRow_self (s : Store V) (b : Branches NodeId) :
    (s.addRow b).2.HasRow ⟨s.rows.size⟩ :=
  (hasRow_addRow s b _).mpr (Or.inr rfl)

theorem row_setRow {row : RowId} (h : s.HasRow row) (b : Branches NodeId) (other : RowId) :
    (s.setRow row b).row other = if other = row then b else s.row other := by
  rw [setRow, Store.row, Store.row, Array.getD_eq_getD_getElem?, Array.getD_eq_getD_getElem?,
    Array.getElem?_setIfInBounds]
  obtain ⟨index⟩ := row
  obtain ⟨index'⟩ := other
  by_cases heq : index = index'
  · subst heq
    simp [show index < s.rows.size from h]
  · simp [heq, Ne.symm heq]

theorem row_setRow_self {row : RowId} (h : s.HasRow row) (b : Branches NodeId) :
    (s.setRow row b).row row = b := by
  rw [row_setRow h, if_pos rfl]

theorem hasRow_setRow (row : RowId) (b : Branches NodeId) (other : RowId) :
    (s.setRow row b).HasRow other ↔ s.HasRow other := by
  simp [HasRow, setRow]

theorem node_setValue {id : NodeId} (h : s.Has id) (value : V) (other : NodeId) :
    (s.setValue id value).node other =
      if other = id then { s.node id with value := some value } else s.node other := by
  rw [setValue, Store.node, Store.node, Store.node, Array.getD_eq_getD_getElem?,
    Array.getD_eq_getD_getElem?, Array.getD_eq_getD_getElem?, Array.getElem?_modify]
  obtain ⟨index⟩ := id
  obtain ⟨index'⟩ := other
  by_cases heq : index = index'
  · subst heq
    simp [show index < s.nodes.size from h]
  · simp [heq, Ne.symm heq]

theorem node_setValue_self {id : NodeId} (h : s.Has id) (value : V) :
    (s.setValue id value).node id = { s.node id with value := some value } := by
  rw [node_setValue h, if_pos rfl]

theorem node_setValue_of_ne {id other : NodeId} (h : s.Has id) (hne : other ≠ id) (value : V) :
    (s.setValue id value).node other = s.node other := by
  rw [node_setValue h, if_neg hne]

theorem segment_setValue {id : NodeId} (h : s.Has id) (value : V) (other : NodeId) :
    ((s.setValue id value).node other).segment = (s.node other).segment := by
  rw [node_setValue h]
  split
  · rename_i heq
    rw [heq]
  · rfl

theorem rowOf_setValue {id : NodeId} (h : s.Has id) (value : V) (other : NodeId) :
    ((s.setValue id value).node other).row = (s.node other).row := by
  rw [node_setValue h]
  split
  · rename_i heq
    rw [heq]
  · rfl

theorem has_setValue {id : NodeId} (value : V) (other : NodeId) :
    (s.setValue id value).Has other ↔ s.Has other := by
  simp [Has, setValue]

/-- A row that stays as it is does for its owners as long as no segment changes. -/
theorem RowSound.mono {path : Key} {row : RowId} (h : s.RowSound path row)
    (hnodes : ∀ id, s.Has id → s'.Has id ∧ (s'.node id).segment = (s.node id).segment)
    (hhas : s'.HasRow row) (heq : s'.row row = s.row row) : s'.RowSound path row where
  has := hhas
  sound := heq ▸ h.sound
  inhabited := heq ▸ h.inhabited
  leads entry hentry :=
    have hlead := h.leads entry (heq ▸ hentry)
    hlead.mono (hnodes _ hlead.has).1 (hnodes _ hlead.has).2

/-- A new row of branches that prolong a key. -/
theorem rowSound_addRow {path : Key} {b : Branches NodeId} (hb : b.Sound) (hne : b.entries ≠ [])
    (hleads : ∀ entry ∈ b.entries, (s.addRow b).2.Leads path entry.1 entry.2) :
    (s.addRow b).2.RowSound path ⟨s.rows.size⟩ := by
  have hrow : (s.addRow b).2.row ⟨s.rows.size⟩ = b := s.row_addRow_self b
  refine ⟨s.hasRow_addRow_self b, ?_, ?_, ?_⟩
  · rw [hrow]
    exact hb
  · rw [hrow]
    exact hne
  · rw [hrow]
    exact hleads

/-! ### Growing -/

namespace Keeps

theorem refl (s : Store V) : s.Keeps s where
  has _ h := h
  hasRow _ h := h
  node _ _ := rfl
  row _ _ := rfl

theorem trans (h : s.Keeps s') (h' : s'.Keeps s'') : s.Keeps s'' where
  has id hid := h'.has id (h.has id hid)
  hasRow row hrow := h'.hasRow row (h.hasRow row hrow)
  node id hid := (h'.node id (h.has id hid)).trans (h.node id hid)
  row row hrow := (h'.row row (h.hasRow row hrow)).trans (h.row row hrow)

variable {id : NodeId}

theorem key_eq (h : s.Keeps s') (hid : s.Has id) : s'.key id = s.key id := by
  rw [key, key, h.node id hid]

theorem address_eq (h : s.Keeps s') (hid : s.Has id) : s'.address id = s.address id := by
  rw [address, address, h.key_eq hid, h.node id hid]

theorem leads (h : s.Keeps s') {path : Key} {byte : UInt8} (hlead : s.Leads path byte id) :
    s'.Leads path byte id :=
  hlead.mono (h.has id hlead.has) (by rw [h.node id hlead.has])

theorem rowSound (h : s.Keeps s') {path : Key} {row : RowId} (hrow : s.RowSound path row) :
    s'.RowSound path row :=
  hrow.mono (fun id hid => ⟨h.has id hid, by rw [h.node id hid]⟩) (h.hasRow row hrow.has)
    (h.row row hrow.has)

theorem nodeSound (h : s.Keeps s') {node : Node V} (hnode : s.NodeSound node) :
    s'.NodeSound node where
  within := hnode.within
  row row hrow := h.rowSound (hnode.row row hrow)

theorem branches?_eq (h : s.Keeps s') (hs : s.Sound) (hid : s.Has id) :
    s'.branches? id = s.branches? id := by
  rw [branches?, branches?, h.node id hid]
  cases hrow : (s.node id).row with
  | none => rfl
  | some row => rw [Option.map_some, Option.map_some, h.row row (hs.rowSound hid hrow).has]

theorem children_eq (h : s.Keeps s') (hs : s.Sound) (hid : s.Has id) :
    s'.children id = s.children id := by
  rw [children, children, h.branches?_eq hs hid]

theorem nodesBelow_eq (h : s.Keeps s') (hs : s.Sound) (hs' : s'.Sound) (hid : s.Has id) :
    s'.nodesBelow id = s.nodesBelow id ∧ ∀ other ∈ s.nodesBelow id, s.Has other :=
  hs.nodesBelow_congr hs' (fun other hother => ⟨hother, h.has other hother⟩)
    (fun _ hother => h.children_eq hs hother)
    (fun _ hother _ hchild => hs.has_child hother hchild) hid

theorem itemsBelow_eq (h : s.Keeps s') (hs : s.Sound) (hs' : s'.Sound) (hid : s.Has id) :
    s'.itemsBelow id = s.itemsBelow id := by
  obtain ⟨hnodes, hhas⟩ := h.nodesBelow_eq hs hs' hid
  rw [itemsBelow_eq_filterMap, itemsBelow_eq_filterMap, hnodes]
  refine List.filterMap_congr fun other hother => ?_
  rw [h.node other (hhas other hother)]

theorem setRoot (s : Store V) (id : NodeId) : s.Keeps { s with root := id } where
  has _ h := h
  hasRow _ h := h
  node _ _ := rfl
  row _ _ := rfl

end Keeps

namespace Grows

theorem refl (s : Store V) : s.Grows s := ⟨.refl s, rfl⟩

theorem trans (h : s.Grows s') (h' : s'.Grows s'') : s.Grows s'' :=
  ⟨h.toKeeps.trans h'.toKeeps, h'.root.trans h.root⟩

theorem addNode (s : Store V) (node : Node V) : s.Grows (s.addNode node).2 where
  root := rfl
  has id hid := (has_addNode s node id).mpr (Or.inl hid)
  hasRow _ h := h
  node _ hid := node_addNode_of_lt s node hid
  row _ _ := rfl

theorem addRow (s : Store V) (b : Branches NodeId) : s.Grows (s.addRow b).2 where
  root := rfl
  has _ h := h
  hasRow row hrow := (hasRow_addRow s b row).mpr (Or.inl hrow)
  node _ _ := rfl
  row _ hrow := row_addRow_of_lt s b hrow

theorem placed (h : s.Grows s') (hs : s.Sound) {place : Place} (hplaced : s.Placed place) :
    s'.Placed place := by
  induction hplaced with
  | root =>
    rw [rootPlace, ← h.root]
    exact Placed.root
  | branch habove howner hheld ih =>
    have hhas := hs.has_live (habove.live hs)
    have hrow := h.row _ (hs.rowSound hhas howner).has
    exact ih.branch (by rw [h.node _ hhas, howner]) (by rw [hrow, hheld])

end Grows

/-! ### Soundness of each write -/

namespace Sound

theorem addNode (h : s.Sound) {node : Node V} (hnode : s.NodeSound node) :
    (s.addNode node).2.Sound where
  has_root := (Grows.addNode s node).has _ h.has_root
  key_root := ((Grows.addNode s node).key_eq h.has_root).trans h.key_root
  node id hid := by
    rw [node_addNode]
    split
    · exact (Grows.addNode s node).nodeSound hnode
    · rename_i hne
      have hold := ((has_addNode s node id).mp hid).resolve_right hne
      exact (Grows.addNode s node).nodeSound (h.node id hold)

theorem addRow (h : s.Sound) (b : Branches NodeId) : (s.addRow b).2.Sound where
  has_root := h.has_root
  key_root := h.key_root
  node id hid := (Grows.addRow s b).nodeSound (h.node id hid)

/-- A changed row must do for each of its owners. -/
theorem setRow (h : s.Sound) {row : RowId} {b : Branches NodeId} (hhas : s.HasRow row)
    (hb : b.Sound) (hne : b.entries ≠ [])
    (hleads : ∀ path, s.RowSound path row → ∀ entry ∈ b.entries, s.Leads path entry.1 entry.2) :
    (s.setRow row b).Sound where
  has_root := h.has_root
  key_root := h.key_root
  node id hid := by
    have hnode := h.node id hid
    refine ⟨hnode.within, fun other hother => ?_⟩
    have hsound := hnode.row other hother
    by_cases heq : other = row
    · subst heq
      have hrow := row_setRow_self hhas b
      refine ⟨(hasRow_setRow other b other).mpr hhas, ?_, ?_, ?_⟩
      · rw [hrow]
        exact hb
      · rw [hrow]
        exact hne
      · rw [hrow]
        intro entry hentry
        have hlead := hleads _ hsound entry hentry
        exact hlead.mono hlead.has rfl
    · exact hsound.mono (fun id hid => ⟨hid, rfl⟩) ((hasRow_setRow row b other).mpr hsound.has)
        (by rw [row_setRow hhas, if_neg heq])

theorem setValue (h : s.Sound) {id : NodeId} (hhas : s.Has id) (value : V) :
    (s.setValue id value).Sound := by
  have hsegment := segment_setValue hhas value
  refine ⟨(has_setValue value _).mpr h.has_root, ?_, fun other hother => ?_⟩
  · rw [key, hsegment]
    exact h.key_root
  · have hother := h.node other ((has_setValue value other).mp hother)
    refine ⟨hsegment other ▸ hother.within, fun row hrow => ?_⟩
    have hsound := hother.row row (rowOf_setValue hhas value other ▸ hrow)
    rw [hsegment]
    exact hsound.mono (fun id hid => ⟨(has_setValue value id).mpr hid, hsegment id⟩) hsound.has rfl

/-- Which node is the root tells nothing about the others. -/
theorem setRoot (h : s.Sound) {id : NodeId} (hhas : s.Has id) (hkey : s.key id = []) :
    ({ s with root := id } : Store V).Sound where
  has_root := hhas
  key_root := hkey
  node other hother :=
    ⟨(h.node other hother).within, fun _ hrow =>
      have hsound := h.rowSound hother hrow
      hsound.mono (fun _ hid => ⟨hid, rfl⟩) hsound.has rfl⟩

/-- A node takes the seat of one whose address it has. -/
theorem install (h : s.Sound) {place : Place} (hplaced : s.Placed place) {new : NodeId}
    (hhas : s.Has new)
    (hoffset : (s.node new).segment.offset = (s.node place.node).segment.offset)
    (haddress : s.address new = s.address place.node)
    (hkey : s.key place.node = [] → s.key new = []) :
    ∃ s', s.install place.seat new = .ok s' ∧ s'.Sound ∧ s.Installed new place s' := by
  cases hplaced with
  | root =>
    exact ⟨{ s with root := new }, rfl, h.setRoot hhas (hkey h.key_root), .root⟩
  | @branch above row index old habove howner hheld =>
    have hsound := h.rowSound (h.has_live (habove.live h)) howner
    rw [hsound.sound.get?_eq, Option.map_eq_some_iff] at hheld
    obtain ⟨⟨byte, old⟩, hentry, rfl⟩ := hheld
    obtain ⟨changed, hreplace, hchanged, hcapacity, hentries⟩ := hsound.sound.replace hentry new
    have hinstalled := Installed.branch (s := s) hentry hchanged hcapacity hentries
    refine ⟨s.setRow row changed, by rw [Store.install, hreplace]; rfl, ?_, hinstalled⟩
    refine h.setRow hsound.has hchanged ?_ ?_
    · rw [hentries]
      intro hnil
      have hlength := congrArg List.length hnil
      rw [List.length_set] at hlength
      exact hsound.inhabited (List.eq_nil_of_length_eq_zero hlength)
    · intro path hpath entry hmem
      rw [hentries] at hmem
      rcases List.mem_or_eq_of_mem_set hmem with hmem | rfl
      · exact hpath.leads entry hmem
      · exact (hpath.leads _ (List.mem_of_getElem? hentry)).of_address_eq hhas hoffset haddress

/-- A row does not matter to what its branches list. -/
theorem itemsBelow_setRow (h : s.Sound) {row : RowId} {b : Branches NodeId}
    (h' : (s.setRow row b).Sound) {path : Key} (hrow : s.RowSound path row) {byte : UInt8}
    {id : NodeId} (hlead : s.Leads path byte id) :
    (s.setRow row b).itemsBelow id = s.itemsBelow id := by
  have hne {other : NodeId} (hother : s.Has other) (hlt : path.length < (s.key other).length) :
      (s.node other).row ≠ some row := by
    intro howner
    rw [hrow.path_unique (h.rowSound hother howner)] at hlt
    exact Nat.lt_irrefl _ hlt
  have hchildren : ∀ other, s.Has other ∧ path.length < (s.key other).length →
      (s.setRow row b).children other = s.children other := by
    rintro other ⟨hother, hlt⟩
    have hnode := node_setRow s row b other
    cases howner : (s.node other).row with
    | none => rw [children_of_row_none howner, children_of_row_none (by rw [hnode, howner])]
    | some row' =>
      have howner' : ((s.setRow row b).node other).row = some row' := by rw [hnode, howner]
      have hdiffers : row' ≠ row := fun heq => hne hother hlt (heq ▸ howner)
      rw [children_of_row_some howner, children_of_row_some howner', row_setRow hrow.has,
        if_neg hdiffers]
  have hclosed : ∀ other, s.Has other ∧ path.length < (s.key other).length →
      ∀ child, s.Branch other child → s.Has child ∧ path.length < (s.key child).length := by
    rintro other ⟨hother, hlt⟩ child hchild
    obtain ⟨_, hlead'⟩ := h.exists_leads hother hchild
    exact ⟨hlead'.has, Nat.lt_trans hlt hlead'.length_lt⟩
  obtain ⟨hnodes, -⟩ := h.nodesBelow_congr h' (fun _ hother => ⟨hother.1, hother.1⟩) hchildren
    hclosed ⟨hlead.has, hlead.length_lt⟩
  rw [itemsBelow_eq_filterMap, itemsBelow_eq_filterMap, hnodes]
  rfl

theorem reset (h : s.Sound) : s.reset.Sound := by
  have hblank : s.NodeSound (Node.blank s.nodes.size) :=
    ⟨Segment.within_empty _, fun _ hrow => by cases hrow⟩
  refine (h.addNode hblank).setRoot (s.has_addNode_self _) ?_
  exact congrArg (fun node : Node V => node.segment.key) (s.node_addNode_self _)

end Sound

theorem sound_empty : (Store.empty : Store V).Sound where
  has_root := Nat.zero_lt_one
  key_root := rfl
  node id hid := by
    obtain ⟨index⟩ := id
    obtain rfl : index = 0 := Nat.lt_one_iff.mp hid
    exact ⟨Segment.within_empty 0, fun _ hrow => by cases hrow⟩

end Store

end ByteTrie
