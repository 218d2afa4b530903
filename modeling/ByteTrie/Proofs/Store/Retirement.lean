import ByteTrie.Proofs.Store.Writes

/-!
# Nodes and rows that the root has left behind

A node that the root leads to no more, or a row that no live node has, is not
written to again and is not taken back. This holds over a write under a key and
over a reset, which leaves all nodes behind at once. A store that has been reset
can therefore serve another trie, and still nothing of the old one will change.
-/

namespace ByteTrie

namespace Store

variable {V : Type} {s s' s'' : Store V}

/-- What was there and not live is as it was, and is not live now. -/
structure Retires (s s' : Store V) : Prop where
  has : ∀ id, s.Has id → s'.Has id
  hasRow : ∀ row, s.HasRow row → s'.HasRow row
  live : ∀ id, s.Has id → s'.Live id → s.Live id
  liveRow : ∀ row, s.HasRow row → s'.LiveRow row → s.LiveRow row
  node : ∀ id, s.Has id → ¬s.Live id → s'.node id = s.node id
  row : ∀ row, s.HasRow row → ¬s.LiveRow row → s'.row row = s.row row

/-- All nodes and rows are there still, as they were, and the root leads to none
of them. -/
structure Abandons (s s' : Store V) : Prop extends Keeps s s' where
  live : ∀ id, s.Has id → ¬s'.Live id
  liveRow : ∀ row, s.HasRow row → ¬s'.LiveRow row

namespace Retires

theorem refl (s : Store V) : s.Retires s where
  has _ h := h
  hasRow _ h := h
  live _ _ h := h
  liveRow _ _ h := h
  node _ _ _ := rfl
  row _ _ _ := rfl

theorem trans (h : s.Retires s') (h' : s'.Retires s'') : s.Retires s'' where
  has id hid := h'.has id (h.has id hid)
  hasRow row hrow := h'.hasRow row (h.hasRow row hrow)
  live id hid hlive := h.live id hid (h'.live id (h.has id hid) hlive)
  liveRow row hrow hlive := h.liveRow row hrow (h'.liveRow row (h.hasRow row hrow) hlive)
  node id hid hlive :=
    (h'.node id (h.has id hid) fun hlater => hlive (h.live id hid hlater)).trans
      (h.node id hid hlive)
  row row hrow hlive :=
    (h'.row row (h.hasRow row hrow) fun hlater => hlive (h.liveRow row hrow hlater)).trans
      (h.row row hrow hlive)

end Retires

/-- What has all been left behind is neither written to nor taken back. -/
theorem Abandons.toRetires (h : s.Abandons s') : s.Retires s' where
  has := h.has
  hasRow := h.hasRow
  live id hid hlive := absurd hlive (h.live id hid)
  liveRow row hrow hlive := absurd hlive (h.liveRow row hrow)
  node id hid _ := h.node id hid
  row row hrow _ := h.row row hrow

/-- What has been left behind stays as it is. -/
theorem Abandons.retires (h : s.Abandons s') (h' : s'.Retires s'') : s.Abandons s'' where
  has id hid := h'.has id (h.has id hid)
  hasRow row hrow := h'.hasRow row (h.hasRow row hrow)
  node id hid := (h'.node id (h.has id hid) (h.live id hid)).trans (h.node id hid)
  row row hrow := (h'.row row (h.hasRow row hrow) (h.liveRow row hrow)).trans (h.row row hrow)
  live id hid hlive := h.live id hid (h'.live id (h.has id hid) hlive)
  liveRow row hrow hlive := h.liveRow row hrow (h'.liveRow row (h.hasRow row hrow) hlive)

theorem Wrote.retires {key : Key} {value : V} (h : Wrote key value s s') (hs : s.Sound) :
    s.Retires s' where
  has := h.has
  hasRow := h.hasRow
  live _ hid hlive := h.live_of_live hs hlive hid
  liveRow _ hrow hlive := h.liveRow_of_liveRow hs hlive hrow
  node _ hid hlive := h.node_eq hid hlive
  row _ hrow hlive := h.row_eq_of_not_liveRow hrow hlive

/-! ### A reset -/

theorem not_has_root_reset (s : Store V) : ¬s.Has s.reset.root := Nat.lt_irrefl _

theorem node_root_reset (s : Store V) : s.reset.node s.reset.root = Node.blank s.nodes.size :=
  node_addNode_self s _

theorem children_root_reset (s : Store V) : s.reset.children s.reset.root = [] :=
  children_of_row_none (by rw [node_root_reset]; rfl)

theorem Keeps.reset (s : Store V) : s.Keeps s.reset :=
  (Grows.addNode s _).toKeeps.trans (Keeps.setRoot _ _)

theorem live_reset {id : NodeId} (h : s.reset.Live id) : id = s.reset.root := by
  rcases Relation.ReflTransGen.cases_head h with heq | ⟨child, hstep, -⟩
  · exact heq.symm
  · rw [Branch, children_root_reset] at hstep
    cases hstep

theorem not_live_reset {id : NodeId} (hid : s.Has id) : ¬s.reset.Live id :=
  fun hlive => s.not_has_root_reset (live_reset hlive ▸ hid)

theorem not_liveRow_reset (row : RowId) : ¬s.reset.LiveRow row := by
  rintro ⟨id, hlive, hrow⟩
  rw [live_reset hlive, node_root_reset] at hrow
  cases hrow

theorem Sound.itemsBelow_root_reset (h : s.Sound) : s.reset.itemsBelow s.reset.root = [] := by
  rw [h.reset.itemsBelow_eq h.reset.has_root, children_root_reset, node_root_reset]
  rfl

theorem Abandons.reset (s : Store V) : s.Abandons s.reset where
  toKeeps := .reset s
  live _ hid := not_live_reset hid
  liveRow row _ := not_liveRow_reset row

theorem Retires.reset (s : Store V) : s.Retires s.reset :=
  (Abandons.reset s).toRetires

/-- Nothing that is done after a reset changes what was there before. -/
theorem Keeps.of_retires_reset (h : s.reset.Retires s') : s.Keeps s' :=
  ((Abandons.reset s).retires h).toKeeps

end Store

end ByteTrie
