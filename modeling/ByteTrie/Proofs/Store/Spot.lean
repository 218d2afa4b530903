import ByteTrie.Proofs.Store.Insertion

/-!
# The one spot that an insertion writes to

A spot of a store is what one write can change of it: the root, the value of a
node, the child in a slot of a row, or the first unused slot of a row with its
byte and the count. `KeepsBut` says that nothing that was there has changed
elsewhere, whether the root leads to it or not, and `Publishes` what has come
into the spot. An insertion has one spot, and the root leads to it.
-/

namespace ByteTrie

/-- What one write can change of a store. -/
inductive Spot where
  | root
  | value (id : NodeId)
  | slot (row : RowId) (index : Nat)
  /-- The first unused slot of a row, its byte, and the count. -/
  | behind (row : RowId)

/-- A row is as it was apart from what a spot has of it, and no slot in use has
been emptied. -/
structure Branches.KeepsBut (before : Branches NodeId) (row : RowId) (spot : Spot)
    (after : Branches NodeId) : Prop where
  capacity : after.capacity = before.capacity
  count : spot ≠ .behind row → after.count = before.count
  byte : ∀ index, (spot = .behind row → index ≠ before.count) →
    after.keys[index]? = before.keys[index]?
  child : ∀ index, spot ≠ .slot row index → (spot = .behind row → index ≠ before.count) →
    after.get? index = before.get? index
  count_le : before.count ≤ after.count
  filled : ∀ index < before.count, (before.get? index).isSome → (after.get? index).isSome

namespace Branches.KeepsBut

variable {b b' : Branches NodeId} {row : RowId}

theorem refl (b : Branches NodeId) (row : RowId) (spot : Spot) : b.KeepsBut row spot b where
  capacity := rfl
  count _ := rfl
  byte _ _ := rfl
  child _ _ _ := rfl
  count_le := Nat.le_refl _
  filled _ _ h := h

/-- A child has been replaced. -/
theorem of_set (h : b.Sound) (h' : b'.Sound) (hcapacity : b'.capacity = b.capacity) {index : Nat}
    {byte : UInt8} {old new : NodeId} (hheld : b.entries[index]? = some (byte, old))
    (hentries : b'.entries = b.entries.set index (byte, new)) :
    b.KeepsBut row (.slot row index) b' := by
  have hcount : b'.count = b.count := by
    rw [← h'.length_entries, hentries, List.length_set, h.length_entries]
  refine ⟨hcapacity, fun _ => hcount, fun i _ => ?_, fun i hslot _ => ?_, Nat.le_of_eq hcount.symm,
    fun i hi _ => h'.filled i (hcount ▸ hi)⟩
  · refine h.keys_congr h' hcapacity ?_
    rw [← List.getElem?_map, ← List.getElem?_map, hentries, Branches.map_fst_set hheld]
  · have hne : index ≠ i := fun heq => hslot (heq ▸ rfl)
    rw [h'.get?_eq, h.get?_eq, hentries, List.getElem?_set_ne hne]

/-- A child has been appended. -/
theorem of_concat (h : b.Sound) (h' : b'.Sound) (hcapacity : b'.capacity = b.capacity)
    {entry : UInt8 × NodeId} (hentries : b'.entries = b.entries ++ [entry]) :
    b.KeepsBut row (.behind row) b' := by
  have hcount : b'.count = b.count + 1 := by
    rw [← h'.length_entries, hentries, List.length_append, h.length_entries, List.length_singleton]
  have hold (i : Nat) (hi : i ≠ b.count) : b'.entries[i]? = b.entries[i]? := by
    rw [hentries, Branches.getElem?_concat_of_ne (h.length_entries ▸ hi)]
  refine ⟨hcapacity, fun hbehind => absurd rfl hbehind, fun i hi => ?_, fun i _ hi => ?_, by omega,
    fun i hi _ => h'.filled i (by omega)⟩
  · exact h.keys_congr h' hcapacity (by rw [hold i (hi rfl)])
  · rw [h'.get?_eq, h.get?_eq, hold i (hi rfl)]

end Branches.KeepsBut

namespace Store

variable {V : Type} {s g s' : Store V} {spot other : Spot} {key : Key} {value : V}

/-- All nodes and rows are there still, and nothing of them has changed but what
is in a spot. -/
structure KeepsBut (s : Store V) (spot : Spot) (s' : Store V) : Prop where
  has : ∀ id, s.Has id → s'.Has id
  hasRow : ∀ row, s.HasRow row → s'.HasRow row
  root : spot ≠ .root → s'.root = s.root
  segment : ∀ id, s.Has id → (s'.node id).segment = (s.node id).segment
  rowOf : ∀ id, s.Has id → (s'.node id).row = (s.node id).row
  value : ∀ id, s.Has id → spot ≠ .value id → (s'.node id).value = (s.node id).value
  row : ∀ row, s.HasRow row → (s.row row).KeepsBut row spot (s'.row row)

/-- A spot that the root leads to has been written to under a key. -/
inductive Publishes (s : Store V) (key : Key) (value : V) (s' : Store V) : Spot → Prop
  /-- The new root lists the new entry besides what the old one did. -/
  | root (fresh : ¬s.Has s'.root)
      (inserts : Entries.Inserts key value (s.itemsBelow s.root) (s'.itemsBelow s'.root)) :
      Publishes s key value s' .root
  | value {id : NodeId} (live : s.Live id) (key_eq : s.key id = key)
      (held : (s'.node id).value = some value) : Publishes s key value s' (.value id)
  /-- The new child begins with the byte of the old one, and lists the new entry
  besides what that did. -/
  | slot {row : RowId} {index : Nat} {byte : UInt8} {old new : NodeId} (live : s.LiveRow row)
      (lt : index < (s.row row).count) (byte_eq : (s.row row).keys[index]? = some byte)
      (before : (s.row row).get? index = some old) (after : (s'.row row).get? index = some new)
      (has : s.Has old) (fresh : ¬s.Has new)
      (head : (s.node old).segment.bytes.head? = some byte)
      (head' : (s'.node new).segment.bytes.head? = some byte)
      (inserts : Entries.Inserts key value (s.itemsBelow old) (s'.itemsBelow new)) :
      Publishes s key value s' (.slot row index)
  /-- The child that has been appended begins with a byte above all others, and
  lists the new entry alone. -/
  | behind {row : RowId} {byte : UInt8} {new : NodeId} (live : s.LiveRow row)
      (room : (s.row row).count < (s.row row).capacity)
      (unused : (s.row row).get? (s.row row).count = none)
      (above : ∀ entry ∈ (s.row row).entries, entry.1 < byte)
      (count : (s'.row row).count = (s.row row).count + 1)
      (byte_eq : (s'.row row).keys[(s.row row).count]? = some byte)
      (after : (s'.row row).get? (s.row row).count = some new) (fresh : ¬s.Has new)
      (head : (s'.node new).segment.bytes.head? = some byte)
      (items : s'.itemsBelow new = [(key, value)]) : Publishes s key value s' (.behind row)

/-- A write under a key as whoever reads the store meanwhile comes to know of it. -/
structure Publication (s : Store V) (key : Key) (value : V) (s' : Store V) (spot : Spot) :
    Prop where
  keeps : s.KeepsBut spot s'
  publishes : s.Publishes key value s' spot

/-! ### Writes to one spot -/

namespace KeepsBut

theorem setRoot (s : Store V) (id : NodeId) : s.KeepsBut .root { s with root := id } where
  has _ h := h
  hasRow _ h := h
  root h := absurd rfl h
  segment _ _ := rfl
  rowOf _ _ := rfl
  value _ _ _ := rfl
  row _ _ := .refl _ _ _

theorem setValue {id : NodeId} (hid : s.Has id) (value : V) :
    s.KeepsBut (.value id) (s.setValue id value) where
  has other hother := (has_setValue value other).mpr hother
  hasRow _ h := h
  root _ := rfl
  segment other _ := segment_setValue hid value other
  rowOf other _ := rowOf_setValue hid value other
  value other _ hspot := by
    have hne : other ≠ id := fun heq => hspot (congrArg Spot.value heq.symm)
    rw [node_setValue_of_ne hid hne]
  row _ _ := .refl _ _ _

theorem setRow {row : RowId} (hrow : s.HasRow row) {changed : Branches NodeId}
    (hchanged : (s.row row).KeepsBut row spot changed) :
    s.KeepsBut spot (s.setRow row changed) where
  has _ h := h
  hasRow other hother := (hasRow_setRow row changed other).mpr hother
  root _ := rfl
  segment _ _ := rfl
  rowOf _ _ := rfl
  value _ _ _ := rfl
  row other _ := by
    rw [row_setRow hrow]
    split
    · rename_i heq
      exact heq ▸ hchanged
    · exact .refl _ _ _

end KeepsBut

/-- What has been added besides is not a change of what was there. -/
theorem Grows.keepsBut (h : s.Grows g) (hkeeps : g.KeepsBut spot s') : s.KeepsBut spot s' where
  has id hid := hkeeps.has id (h.has id hid)
  hasRow row hrow := hkeeps.hasRow row (h.hasRow row hrow)
  root hspot := (hkeeps.root hspot).trans h.root
  segment id hid := by rw [hkeeps.segment id (h.has id hid), h.node id hid]
  rowOf id hid := by rw [hkeeps.rowOf id (h.has id hid), h.node id hid]
  value id hid hspot := by rw [hkeeps.value id (h.has id hid) hspot, h.node id hid]
  row row hrow := h.row row hrow ▸ hkeeps.row row (h.hasRow row hrow)

/-! ### Where an insertion writes to -/

namespace Builds

/-- A new root is one spot. -/
theorem publication_setRoot (h : s.Builds g) (hs : s.Sound) (hg : g.Sound) {new : NodeId}
    (hnew : g.Has new) (hs' : ({ g with root := new } : Store V).Sound) (hfresh : ¬s.Has new)
    (hinserts : Entries.Inserts key value (g.itemsBelow s.root) (g.itemsBelow new)) :
    s.Publication key value { g with root := new } .root := by
  refine ⟨h.toGrows.keepsBut (.setRoot g new), .root hfresh ?_⟩
  rw [← h.itemsBelow_eq hs hg hs.has_root]
  exact (Keeps.setRoot g new).itemsBelow_eq hg hs' hnew ▸ hinserts

/-- A child that has come in the place of another is one spot. -/
theorem publication_replace (h : s.Builds g) (hs : s.Sound) (hg : g.Sound) {id : NodeId}
    (hlive : s.Live id) {row : RowId} (howner : (s.node id).row = some row) {index : Nat}
    {byte : UInt8} {old new : NodeId} {changed : Branches NodeId}
    (hs' : (g.setRow row changed).Sound) (hheld : (s.row row).entries[index]? = some (byte, old))
    (hchanged : changed.Sound) (hcapacity : changed.capacity = (s.row row).capacity)
    (hentries : changed.entries = (s.row row).entries.set index (byte, new))
    (hfresh : ¬s.Has new)
    (hinserts : Entries.Inserts key value (g.itemsBelow old) (g.itemsBelow new)) :
    s.Publication key value (g.setRow row changed) (.slot row index) := by
  have hid := hs.has_live hlive
  have hrow := hs.rowSound hid howner
  have hhas := h.hasRow row hrow.has
  have hlt := (List.getElem?_eq_some_iff.mp hheld).1
  have hlead := hrow.leads _ (List.mem_of_getElem? hheld)
  have hheld' : changed.entries[index]? = some (byte, new) := by
    rw [hentries, List.getElem?_set_self hlt]
  have hlead' := h.leads_setRow hid hs' hhas howner (List.mem_of_getElem? hheld')
  have hitems := h.itemsBelow_eq hs hg hlead.has
  have hitems' := hg.itemsBelow_setRow hs' (h.rowSound hrow) hlead'
  rw [hrow.sound.length_entries] at hlt
  refine ⟨h.toGrows.keepsBut (.setRow hhas ?_), ?_⟩
  · rw [h.row row hrow.has]
    exact .of_set hrow.sound hchanged hcapacity hheld hentries
  · refine .slot ⟨id, hlive, howner⟩ hlt ?_ ?_ ?_ hlead.has hfresh hlead.head?_bytes
      hlead'.head?_bytes ?_
    · rw [hrow.sound.getElem?_keys (Nat.lt_of_lt_of_le hlt hrow.sound.count_le), hheld]
      rfl
    · rw [hrow.sound.get?_eq, hheld, Option.map_some]
    · rw [row_setRow_self hhas, hchanged.get?_eq, hheld', Option.map_some]
    · rw [← hitems]
      exact hitems'.symm ▸ hinserts

/-- A child that has been appended is one spot. -/
theorem publication_append (h : s.Builds g) (hs : s.Sound) (hg : g.Sound) {id : NodeId}
    (hlive : s.Live id) {row : RowId} (howner : (s.node id).row = some row) {byte : UInt8}
    {leaf : NodeId} {changed : Branches NodeId} (hs' : (g.setRow row changed).Sound)
    (hpush : (s.row row).push? byte leaf = some changed) (hlead : g.Leads (s.key id) byte leaf)
    (hfresh : ¬s.Has leaf) (hitems : g.itemsBelow leaf = [(key, value)]) :
    s.Publication key value (g.setRow row changed) (.behind row) := by
  have hrow := hs.rowSound (hs.has_live hlive) howner
  have hhas := h.hasRow row hrow.has
  have hcapacity := Branches.capacity_of_push? hpush
  obtain ⟨hchanged, hentries⟩ := hrow.sound.push? hpush
  have hcount : changed.count = (s.row row).count + 1 := by
    rw [← hchanged.length_entries, hentries, List.length_append, hrow.sound.length_entries]
    rfl
  have hroom : (s.row row).count < changed.capacity := by
    rw [← Nat.succ_le_iff, Nat.succ_eq_add_one, ← hcount]
    exact hchanged.count_le
  have hheld : changed.entries[(s.row row).count]? = some (byte, leaf) := by
    rw [hentries, ← hrow.sound.length_entries, List.getElem?_concat_length]
  have habove (entry : UInt8 × NodeId) (hentry : entry ∈ (s.row row).entries) : entry.1 < byte := by
    have hascending := hchanged.ascending_entries
    rw [hentries, List.map_append] at hascending
    exact (List.pairwise_append.mp hascending).2.2 entry.1 (List.mem_map_of_mem hentry) byte
      (List.mem_singleton_self _)
  refine ⟨h.toGrows.keepsBut (.setRow hhas ?_), ?_⟩
  · rw [h.row row hrow.has]
    exact .of_concat hrow.sound hchanged hcapacity hentries
  · refine .behind ⟨id, hlive, howner⟩ (hcapacity ▸ hroom)
      (hrow.sound.get?_of_count_le (Nat.le_refl _)) habove ?_ ?_ ?_ hfresh hlead.head?_bytes ?_
    · rw [row_setRow_self hhas, hcount]
    · rw [row_setRow_self hhas, hchanged.getElem?_keys hroom, hheld]
      rfl
    · rw [row_setRow_self hhas, hchanged.get?_eq, hheld, Option.map_some]
    · exact (hg.itemsBelow_setRow hs' (h.rowSound hrow) hlead).trans hitems

end Builds

/-- Whatever has been published, one spot has been written to. -/
theorem Published.exists_publication (h : Published key value s s') (hs : s.Sound)
    (hs' : s'.Sound) : ∃ spot, s.Publication key value s' spot := by
  cases h with
  | valued hplaced hkey =>
    have hlive := hplaced.live hs
    have hid := hs.has_live hlive
    refine ⟨.value _, .setValue hid value, .value hlive hkey ?_⟩
    rw [node_setValue_self hid]
  | appended hbuilds hg hplaced howner hlead hfresh hpush hitems =>
    exact ⟨_, hbuilds.publication_append hs hg (hplaced.live hs) howner hs' hpush hlead hfresh
      hitems⟩
  | replaced hbuilds hg hplaced hnew hfresh hinstalled hinserts =>
    cases hinstalled with
    | root =>
      exact ⟨_, hbuilds.publication_setRoot hs hg hnew hs' hfresh (hbuilds.root ▸ hinserts)⟩
    | branch hheld hchanged hcapacity hentries =>
      obtain ⟨above, hlive, howner⟩ := hplaced.liveRow hs
      rw [hbuilds.row _ (hs.rowSound (hs.has_live hlive) howner).has]
        at hheld hcapacity hentries
      exact ⟨_, hbuilds.publication_replace hs hg hlive howner hs' hheld hchanged hcapacity hentries
        hfresh hinserts⟩

namespace Publication

/-- What has come into another spot than a value would have changed it. -/
theorem eq_of_publishes (h : s.KeepsBut spot s') (hs : s.Sound)
    (hother : s.Publishes key value s' other) (hvalue : ∀ id, other ≠ .value id) :
    spot = other := by
  by_contra hne
  cases hother with
  | root hfresh _ => exact hfresh (h.root hne ▸ hs.has_root)
  | value => exact hvalue _ rfl
  | @slot row index byte old new hlive hlt _ hbefore hafter hhas hfresh =>
    have hrow := (h.row row (hs.has_liveRow hlive)).child index hne fun _ => Nat.ne_of_lt hlt
    rw [hbefore, hafter] at hrow
    exact hfresh (Option.some.inj hrow ▸ hhas)
  | behind hlive _ _ _ hcount =>
    have hrow := (h.row _ (hs.has_liveRow hlive)).count hne
    omega

/-- A write has one spot only. -/
theorem unique (h : s.Publication key value s' spot) (hs : s.Sound)
    (h' : s.Publication key value s' other) : other = spot := by
  -- A value may be set to what it was: two such spots are the same node by its key.
  by_cases hvalue : ∃ id, spot = .value id
  · obtain ⟨id, rfl⟩ := hvalue
    by_cases hvalue' : ∃ id, other = .value id
    · obtain ⟨id', rfl⟩ := hvalue'
      obtain ⟨hlive, hkey⟩ : s.Live id ∧ s.key id = key := by
        cases h.publishes with
        | value hlive hkey _ => exact ⟨hlive, hkey⟩
      obtain ⟨hlive', hkey'⟩ : s.Live id' ∧ s.key id' = key := by
        cases h'.publishes with
        | value hlive hkey _ => exact ⟨hlive, hkey⟩
      rw [hs.eq_of_key_eq hs.has_root hlive' hlive (hkey'.trans hkey.symm)]
    · exact (eq_of_publishes h.keeps hs h'.publishes (not_exists.mp hvalue')).symm
  · exact eq_of_publishes h'.keeps hs h.publishes (not_exists.mp hvalue)

end Publication

/-- An insertion writes to one spot. -/
theorem Sound.insert_publication (h : s.Sound) (sizing : Sizing) (key : Key) (value : V) :
    ∃ replaced s', s.insert sizing key value = .ok (replaced, s') ∧
      ∃! spot, s.Publication key value s' spot := by
  obtain ⟨s', hinsert, hs', houtcome⟩ := h.insert_outcome sizing key value
  obtain ⟨spot, hspot⟩ := (houtcome.published h).exists_publication h hs'
  exact ⟨_, s', hinsert, spot, hspot, fun other hother => hspot.unique h hother⟩

end Store

end ByteTrie
