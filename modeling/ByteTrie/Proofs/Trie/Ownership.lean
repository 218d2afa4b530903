import ByteTrie.Proofs.Trie.Contents

/-!
# The live nodes form a tree

Nodes and rows are shared in a store: a node that was replaced still has the row
of the node that came for it, and rows that were copied lead to the same nodes.
Among what the root leads to nothing is shared. Keys tell why: all owners of a
row have the same key, and of two nodes with the same key the root leads to one
at most.
-/

namespace ByteTrie

namespace Store

variable {V : Type} {s : Store V}

/-- What the root leads to is a tree. -/
structure Unshared (s : Store V) : Prop where
  /-- A live row has one live owner. -/
  owner : ∀ row, s.LiveRow row → ∃! id, s.Live id ∧ (s.node id).row = some row
  /-- A live node other than the root has one slot in one live row. -/
  seat : ∀ id, s.Live id → id ≠ s.root →
    ∃! slot : RowId × Nat, s.LiveRow slot.1 ∧ (s.row slot.1).get? slot.2 = some id
  /-- No live row leads to the root. -/
  root : ∀ row index, s.LiveRow row → (s.row row).get? index ≠ some s.root
  /-- No way leads back to a live node. -/
  acyclic : ∀ id, s.Live id → ¬Relation.TransGen s.Branch id id

namespace Sound

variable {id : NodeId} {row : RowId} {index : Nat}

/-- Live owners of a row are the same node. -/
theorem owner_unique (h : s.Sound) {a b : NodeId} (ha : s.Live a) (hb : s.Live b)
    (hrow : (s.node a).row = some row) (hrow' : (s.node b).row = some row) : a = b :=
  h.eq_of_key_eq h.has_root ha hb
    ((h.rowSound (h.has_live ha) hrow).path_unique (h.rowSound (h.has_live hb) hrow'))

/-- A node in a slot of a live row prolongs the key of the row's owner. -/
theorem exists_owner_of_get? (h : s.Sound) (hlive : s.LiveRow row)
    (hheld : (s.row row).get? index = some id) :
    ∃ owner byte, s.Live owner ∧ (s.node owner).row = some row ∧
      (s.row row).entries[index]? = some (byte, id) ∧ s.Leads (s.key owner) byte id := by
  obtain ⟨owner, howner, hrow⟩ := hlive
  have hsound := h.rowSound (h.has_live howner) hrow
  rw [hsound.sound.get?_eq, Option.map_eq_some_iff] at hheld
  obtain ⟨⟨byte, child⟩, hentry, rfl⟩ := hheld
  exact ⟨owner, byte, howner, hrow, hentry, hsound.leads _ (List.mem_of_getElem? hentry)⟩

theorem seat_unique (h : s.Sound) {row' : RowId} {index' : Nat} (hlive : s.LiveRow row)
    (hheld : (s.row row).get? index = some id) (hlive' : s.LiveRow row')
    (hheld' : (s.row row').get? index' = some id) : row = row' ∧ index = index' := by
  obtain ⟨a, x, ha, hrow, hentry, hlead⟩ := h.exists_owner_of_get? hlive hheld
  obtain ⟨b, y, hb, hrow', hentry', hlead'⟩ := h.exists_owner_of_get? hlive' hheld'
  have haddress : s.key a ++ [x] = s.key b ++ [y] := hlead.address_eq.symm.trans hlead'.address_eq
  obtain ⟨hkey, hbyte⟩ := List.append_inj' haddress rfl
  obtain rfl := h.eq_of_key_eq h.has_root ha hb hkey
  obtain rfl : row = row' := Option.some.inj (hrow.symm.trans hrow')
  refine ⟨rfl, ?_⟩
  -- In one row the byte tells the slot.
  have hnodup : ((s.row row).entries.map Prod.fst).Nodup :=
    (h.rowSound (h.has_live ha) hrow).sound.ascending_entries.imp fun hlt => UInt8.ne_of_lt hlt
  obtain rfl : x = y := by simpa using hbyte
  obtain ⟨hlt, hget⟩ := List.getElem?_eq_some_iff.mp hentry
  obtain ⟨hlt', hget'⟩ := List.getElem?_eq_some_iff.mp hentry'
  have hlength : index < ((s.row row).entries.map Prod.fst).length := by simpa using hlt
  have hlength' : index' < ((s.row row).entries.map Prod.fst).length := by simpa using hlt'
  have hbytes : ((s.row row).entries.map Prod.fst)[index] =
      ((s.row row).entries.map Prod.fst)[index'] := by
    rw [List.getElem_map, List.getElem_map, hget, hget']
  exact hnodup.getElem_inj_iff.mp hbytes

theorem exists_seat (h : s.Sound) (hlive : s.Live id) (hne : id ≠ s.root) :
    ∃ row index, s.LiveRow row ∧ (s.row row).get? index = some id := by
  rcases Relation.ReflTransGen.cases_tail hlive with heq | ⟨parent, hparent, hstep⟩
  · exact absurd heq hne
  · obtain ⟨row, hrow, byte, hentry⟩ := mem_children.mp hstep
    obtain ⟨index, hindex⟩ := List.mem_iff_getElem?.mp hentry
    refine ⟨row, index, ⟨parent, hparent, hrow⟩, ?_⟩
    rw [(h.rowSound (h.has_live hparent) hrow).sound.get?_eq, hindex, Option.map_some]

theorem unshared (h : s.Sound) : s.Unshared where
  owner row hlive := by
    obtain ⟨id, hid, hrow⟩ := hlive
    exact ⟨id, ⟨hid, hrow⟩, fun other hother => h.owner_unique hother.1 hid hother.2 hrow⟩
  seat id hlive hne := by
    obtain ⟨row, index, hrow, hheld⟩ := h.exists_seat hlive hne
    refine ⟨(row, index), ⟨hrow, hheld⟩, fun slot hslot => ?_⟩
    obtain ⟨heq, heq'⟩ := h.seat_unique hslot.1 hslot.2 hrow hheld
    exact Prod.ext heq heq'
  root row index hlive hheld := by
    obtain ⟨owner, byte, -, -, -, hlead⟩ := h.exists_owner_of_get? hlive hheld
    have hlt := hlead.length_lt
    rw [h.key_root] at hlt
    exact Nat.not_lt_zero _ hlt
  acyclic id hlive := h.not_transGen_self (h.has_live hlive)

end Sound

end Store

namespace Trie

variable {V : Type}

/-- After any run what the root leads to is a tree. Whatever the root leads to no
more at any time is not written to again and not taken back. -/
theorem run_unshared (sizing : Sizing) (entries : List (Key × V)) (before after : List (Write V)) :
    ∃ start answers t later t', Trie.ofList sizing entries = .ok start ∧
      start.run before = .ok (answers, t) ∧ t.run after = .ok (later, t') ∧
      t.store.Unshared ∧ t.store.Retires t'.store := by
  obtain ⟨start, hstart, hholds⟩ := holds_ofList sizing entries
  obtain ⟨t, hrun, h, -⟩ := hholds.run before
  obtain ⟨t', hlater, -, hretires⟩ := h.run after
  exact ⟨start, _, t, _, t', hstart, hrun, hlater, h.sound.unshared, hretires⟩

end Trie

end ByteTrie
