import ByteTrie.Proofs.Store.Outcome
import ByteTrie.Proofs.Store.Writes

/-!
# The write that publishes

An insertion builds beside what is there and publishes by a single write: it
puts a node into the seat of another or appends a branch to a live row. What it
builds refers to nothing old but what is live. If the new node lists the new
entry besides what the old one does, the store has been written under the key in
the sense of `Wrote`.
-/

namespace ByteTrie

namespace Store

variable {V : Type} {s g s' : Store V} {key : Key} {value : V}

/-- Nodes and rows have been added that refer to nothing old but what is live. -/
structure Builds (s g : Store V) : Prop extends Grows s g where
  freshNode : ∀ id, ¬s.Has id → ∀ row, (g.node id).row = some row → s.HasRow row → s.LiveRow row
  freshRow : ∀ row, ¬s.HasRow row → ∀ entry ∈ (g.row row).entries, s.Has entry.2 → s.Live entry.2

/-- The write that has made what was built part of the trie. -/
inductive Published (key : Key) (value : V) (s : Store V) : Store V → Prop
  /-- The node of the key has a new value. -/
  | valued {place : Place} (placed : s.Placed place) (reads : s.key place.node = key) :
      Published key value s (s.setValue place.node value)
  /-- A new node stands behind the last branch of another. -/
  | appended {g : Store V} {place : Place} {row : RowId} {byte : UInt8} {leaf : NodeId}
      {changed : Branches NodeId} (builds : s.Builds g) (sound : g.Sound) (placed : s.Placed place)
      (owner : (s.node place.node).row = some row) (leads : g.Leads (s.key place.node) byte leaf)
      (fresh : ¬s.Has leaf) (pushed : (s.row row).push? byte leaf = some changed)
      (items : g.itemsBelow leaf = [(key, value)]) : Published key value s (g.setRow row changed)
  /-- A new node has taken the place of another. -/
  | replaced {g s' : Store V} {place : Place} {new : NodeId} (builds : s.Builds g) (sound : g.Sound)
      (placed : s.Placed place) (has : g.Has new) (fresh : ¬s.Has new)
      (installed : g.Installed new place s')
      (inserts : Entries.Inserts key value (g.itemsBelow place.node) (g.itemsBelow new)) :
      Published key value s s'

namespace Keeps

theorem not_has_size (h : s.Keeps g) : ¬s.Has ⟨g.nodes.size⟩ :=
  fun hhas => Nat.lt_irrefl _ (h.has _ hhas)

theorem not_hasRow_size (h : s.Keeps g) : ¬s.HasRow ⟨g.rows.size⟩ :=
  fun hhas => Nat.lt_irrefl _ (h.hasRow _ hhas)

end Keeps

/-- One branch of a row after another may be replaced. -/
theorem forall₂_set {entries : List (UInt8 × NodeId)} {index : Nat} {before after : UInt8 × NodeId}
    (hheld : entries[index]? = some before) (hfollows : s.Follows s' key value before after) :
    List.Forall₂ (s.Follows s' key value) entries (entries.set index after) := by
  induction entries generalizing index with
  | nil => cases hheld
  | cons entry rest ih =>
    cases index with
    | zero =>
      obtain rfl := Option.some.inj hheld
      exact .cons hfollows (List.forall₂_same.mpr fun entry _ => .refl entry)
    | succ index => exact .cons (.refl entry) (ih hheld)

namespace Builds

variable {id : NodeId}

theorem refl (s : Store V) : s.Builds s where
  toGrows := .refl s
  freshNode id hid row hrow _ := by
    rw [node_of_not_has hid] at hrow
    cases hrow
  freshRow row hrow entry hentry := by
    rw [row_of_not_hasRow hrow, Branches.entries_blank] at hentry
    cases hentry

theorem addNode (h : s.Builds g) {node : Node V}
    (hnode : ∀ row, node.row = some row → s.HasRow row → s.LiveRow row) :
    s.Builds (g.addNode node).2 where
  toGrows := h.toGrows.trans (.addNode g node)
  freshNode id hid row hrow hhas := by
    rw [node_addNode] at hrow
    split at hrow
    · exact hnode row hrow hhas
    · exact h.freshNode id hid row hrow hhas
  freshRow := h.freshRow

theorem addRow (h : s.Builds g) {b : Branches NodeId}
    (hb : ∀ entry ∈ b.entries, s.Has entry.2 → s.Live entry.2) : s.Builds (g.addRow b).2 where
  toGrows := h.toGrows.trans (.addRow g b)
  freshNode := h.freshNode
  freshRow row hrow entry hentry := by
    rw [row_addRow] at hentry
    split at hentry
    · exact hb entry hentry
    · exact h.freshRow row hrow entry hentry

theorem liveRow (h : s.Builds g) (hs : s.Sound) (hlive : s.Live id) {row : RowId}
    (hrow : (g.node id).row = some row) : s.LiveRow row :=
  ⟨id, hlive, by rw [← h.node id (hs.has_live hlive), hrow]⟩

theorem withLeaf (s : Store V) (path : Key) (byte : UInt8) (rest : Key) (value : V) :
    s.Builds (s.withLeaf path byte rest value) :=
  (Builds.refl s).addNode fun _ hrow => by cases hrow

theorem grownUpper (h : s.Builds g) (hs : s.Sound) (hlive : s.Live id) (cut : Nat)
    (value : Option V) {b : Branches NodeId} (hb : ∀ entry ∈ b.entries, ¬s.Has entry.2) :
    s.Builds (g.grownUpper id cut value b) := by
  have hlower : s.Builds (g.addNode ((g.node id).lower cut)).2 :=
    h.addNode fun row hrow _ => h.liveRow hs hlive hrow
  have hbranches := hlower.addRow fun entry hentry hhas => absurd hhas (hb entry hentry)
  refine hbranches.addNode fun row hrow hhas => ?_
  obtain rfl : (⟨g.rows.size⟩ : RowId) = row := Option.some.inj hrow
  exact absurd hhas h.not_hasRow_size

theorem grownWidened (h : s.Builds g) {b : Branches NodeId}
    (hb : ∀ entry ∈ b.entries, s.Has entry.2 → s.Live entry.2) :
    s.Builds (g.grownWidened id b) := by
  refine (h.addRow hb).addNode fun row hrow hhas => ?_
  obtain rfl : (⟨g.rows.size⟩ : RowId) = row := Option.some.inj hrow
  exact absurd hhas h.not_hasRow_size

/-! ### The one write that publishes -/

/-- What has been built is published by a change of the root. -/
theorem setRoot (h : s.Builds g) (hg : g.Sound) {new : NodeId} (hnew : g.Has new)
    (hs : s.Has s.root) (hs' : ({ g with root := new } : Store V).Sound) (hfresh : ¬s.Has new)
    (hinserts : Entries.Inserts key value (g.itemsBelow s.root) (g.itemsBelow new)) :
    Wrote key value s { g with root := new } ∧
      (key, value) ∈ ({ g with root := new } : Store V).itemsBelow new := by
  have hkeeps := Keeps.setRoot g new
  have hold := hkeeps.itemsBelow_eq hg hs' (h.has s.root hs)
  have hitems := hkeeps.itemsBelow_eq hg hs' hnew
  refine ⟨?_, hitems ▸ hinserts.mem⟩
  exact {
    has := h.has
    hasRow := h.hasRow
    node := fun id hid => Or.inl (h.node id hid)
    row := fun row hrow => Or.inl (h.row row hrow)
    root := Or.inr ⟨hfresh, by rw [hold, hitems]; exact hinserts.takes⟩
    freshNode := h.freshNode
    freshRow := h.freshRow }

/-- What has been built is published by a change of a live row. -/
theorem setRow (h : s.Builds g) (hs : s.Sound) {row : RowId} {changed : Branches NodeId}
    (hs' : (g.setRow row changed).Sound) (hlive : s.Live id) (howner : (s.node id).row = some row)
    (hregrown : s.Regrown (g.setRow row changed) key value (s.row row).entries changed.entries)
    {entry : UInt8 × NodeId} (hentry : entry ∈ changed.entries)
    (hmem : (key, value) ∈ (g.setRow row changed).itemsBelow entry.2) :
    Wrote key value s (g.setRow row changed) ∧
      (key, value) ∈ (g.setRow row changed).itemsBelow (g.setRow row changed).root := by
  have hrow : s.HasRow row := (hs.rowSound (hs.has_live hlive) howner).has
  have hhas : g.HasRow row := h.hasRow row hrow
  have hwrote : Wrote key value s (g.setRow row changed) := {
    has := h.has
    hasRow := fun other hother => (hasRow_setRow row changed other).mpr (h.hasRow other hother)
    node := fun other hother => Or.inl (h.node other hother)
    row := by
      intro other hother
      rw [row_setRow hhas]
      split
      · rename_i heq
        subst heq
        exact Or.inr ⟨⟨id, hlive, howner⟩, hregrown⟩
      · exact Or.inl (h.row other hother)
    root := Or.inl h.root
    freshNode := h.freshNode
    freshRow := by
      intro other hother
      rw [row_setRow hhas]
      split
      · rename_i heq
        exact absurd (heq ▸ hrow) hother
      · exact h.freshRow other hother }
  refine ⟨hwrote, hwrote.mem_root hs hs' hlive ?_⟩
  have hid := hs.has_live hlive
  rw [hs'.itemsBelow_eq (hwrote.has id hid)]
  refine List.mem_append_right _ (List.mem_flatMap.mpr ⟨entry.2, ?_, hmem⟩)
  refine mem_children.mpr ⟨row, (hwrote.row_eq hid).trans howner, entry.1, ?_⟩
  rw [row_setRow_self hhas]
  exact hentry

/-- What the branches of a changed row lead to prolongs the key of an owner. -/
theorem leads_setRow (h : s.Builds g) (hid : s.Has id) {row : RowId} {changed : Branches NodeId}
    (hs' : (g.setRow row changed).Sound) (hhas : g.HasRow row)
    (howner : (s.node id).row = some row) {entry : UInt8 × NodeId}
    (hentry : entry ∈ changed.entries) : g.Leads (s.key id) entry.1 entry.2 := by
  have howner' : ((g.setRow row changed).node id).row = some row := by
    rw [node_setRow, h.node id hid, howner]
  have hrow' := hs'.rowSound (h.has id hid) howner'
  rw [show (g.setRow row changed).key id = s.key id from h.key_eq hid] at hrow'
  have hlead := hrow'.leads entry (by rw [row_setRow_self hhas]; exact hentry)
  exact ⟨hlead.has, hlead.offset, hlead.begins⟩

/-- What has been built is published by putting it in the place of a node. -/
theorem install (h : s.Builds g) (hs : s.Sound) (hg : g.Sound) (hs' : s'.Sound) {place : Place}
    (hplaced : s.Placed place) {new : NodeId} (hnew : g.Has new) (hfresh : ¬s.Has new)
    (hinstalled : g.Installed new place s')
    (hinserts : Entries.Inserts key value (g.itemsBelow place.node) (g.itemsBelow new)) :
    Wrote key value s s' ∧ (key, value) ∈ s'.itemsBelow s'.root := by
  cases hinstalled with
  | root => exact h.setRoot hg hnew hs.has_root hs' hfresh (h.root ▸ hinserts)
  | @branch row index old byte changed hheld _ _ hentries =>
    obtain ⟨above, hlive, howner⟩ := hplaced.liveRow hs
    have hid := hs.has_live hlive
    have hrow := h.rowSound (hs.rowSound hid howner)
    have hlead := hrow.leads _ (List.mem_of_getElem? hheld)
    have hchanged : (byte, new) ∈ changed.entries := by
      rw [hentries]
      exact List.mem_set (List.getElem?_eq_some_iff.mp hheld).1 _
    have hitems := hg.itemsBelow_setRow hs' hrow hlead
    have hitemsNew :=
      hg.itemsBelow_setRow hs' hrow (h.leads_setRow hid hs' hrow.has howner hchanged)
    have hfollows : s.Follows (g.setRow row changed) key value (byte, old) (byte, new) :=
      ⟨rfl, Or.inr ⟨hfresh, by rw [hitems, hitemsNew]; exact hinserts.takes⟩⟩
    rw [h.row row (hs.rowSound hid howner).has] at hentries hheld
    refine h.setRow hs hs' hlive howner ?_ hchanged (hitemsNew ▸ hinserts.mem)
    exact ⟨changed.entries, [], (List.append_nil _).symm, hentries ▸ forall₂_set hheld hfollows,
      by simp⟩

/-- What has been built is published by appending a branch to it. -/
theorem append (h : s.Builds g) (hs : s.Sound) (hg : g.Sound) (hlive : s.Live id) {row : RowId}
    {changed : Branches NodeId} (hs' : (g.setRow row changed).Sound)
    (howner : (s.node id).row = some row) {byte : UInt8} {leaf : NodeId}
    (hlead : g.Leads (s.key id) byte leaf) (hfresh : ¬s.Has leaf)
    (hentries : changed.entries = (s.row row).entries ++ [(byte, leaf)])
    (hitems : g.itemsBelow leaf = [(key, value)]) :
    Wrote key value s (g.setRow row changed) ∧
      (key, value) ∈ (g.setRow row changed).itemsBelow (g.setRow row changed).root := by
  have hrow := h.rowSound (hs.rowSound (hs.has_live hlive) howner)
  have hitems' := (hg.itemsBelow_setRow hs' hrow hlead).trans hitems
  have hchanged : (byte, leaf) ∈ changed.entries := by
    rw [hentries]
    exact List.mem_append_right _ (List.mem_singleton_self _)
  refine h.setRow hs hs' hlive howner ?_ hchanged (hitems' ▸ List.mem_singleton_self _)
  refine ⟨(s.row row).entries, [(byte, leaf)], hentries,
    List.forall₂_same.mpr fun entry _ => .refl entry, ?_⟩
  intro entry hentry
  obtain rfl := List.mem_singleton.mp hentry
  exact ⟨hfresh, hitems'⟩

end Builds

end Store

end ByteTrie
