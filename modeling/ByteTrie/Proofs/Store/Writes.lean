import ByteTrie.Proofs.Store.Growth

/-!
# What a write under a key changes

A store before and after a write under a key are related by `Wrote`: all nodes
and rows are there still, at most live ones have changed, and these in the ways
that a look-up does not notice under any other key. A live node of the key may
have a new value. In a live row a branch may lead to a node that took the place
of the old one, and branches to nodes of the new entry alone may stand behind
the old ones. What is new refers to nothing old that was not live.

Two things follow for every node and not only for those that the root leads to:
what it lists takes at most the new entry, and a node that was not live does not
become so again.
-/

namespace ByteTrie

namespace Store

variable {V : Type} {s s' s'' : Store V} {key : Key} {value : V}

/-- A new node takes the place of an old one: it lists the same, apart from what
was written. -/
structure Supplants (s s' : Store V) (key : Key) (value : V) (old new : NodeId) : Prop where
  fresh : ¬s.Has new
  takes : Entries.Takes key value (s'.itemsBelow old) (s'.itemsBelow new)

/-- What stands under a label is the same node still, or one that took its place. -/
structure Follows {α : Type} (s s' : Store V) (key : Key) (value : V) (before after : α × NodeId) :
    Prop where
  label : after.1 = before.1
  child : after.2 = before.2 ∨ s.Supplants s' key value before.2 after.2

/-- Branches before and after a write: the old ones are in their places, and
behind them stand branches to new nodes that list the new entry alone. -/
def Regrown (s s' : Store V) (key : Key) (value : V) (before after : List (UInt8 × NodeId)) :
    Prop :=
  ∃ kept added, after = kept ++ added ∧ List.Forall₂ (s.Follows s' key value) before kept ∧
    ∀ entry ∈ added, ¬s.Has entry.2 ∧ s'.itemsBelow entry.2 = [(key, value)]

/-- A value has been written under a key. -/
structure Wrote (key : Key) (value : V) (s s' : Store V) : Prop where
  has : ∀ id, s.Has id → s'.Has id
  hasRow : ∀ row, s.HasRow row → s'.HasRow row
  node : ∀ id, s.Has id → s'.node id = s.node id ∨
    s.Live id ∧ s.key id = key ∧ s'.node id = { s.node id with value := some value }
  row : ∀ row, s.HasRow row → s'.row row = s.row row ∨
    s.LiveRow row ∧ s.Regrown s' key value (s.row row).entries (s'.row row).entries
  root : s'.root = s.root ∨ s.Supplants s' key value s.root s'.root
  freshNode : ∀ id, ¬s.Has id → ∀ row, (s'.node id).row = some row → s.HasRow row → s.LiveRow row
  freshRow : ∀ row, ¬s.HasRow row → ∀ entry ∈ (s'.row row).entries, s.Has entry.2 → s.Live entry.2

theorem Follows.refl {α : Type} (entry : α × NodeId) : s.Follows s' key value entry entry :=
  ⟨rfl, Or.inl rfl⟩

theorem Follows.takes {α : Type} {before after : α × NodeId}
    (h : s.Follows s' key value before after)
    (hold : Entries.Takes key value (s.itemsBelow before.2) (s'.itemsBelow before.2)) :
    Entries.Takes key value (s.itemsBelow before.2) (s'.itemsBelow after.2) := by
  rcases h.child with heq | hnew
  · rw [heq]
    exact hold
  · exact hold.trans hnew.takes

theorem exists_of_mem_forall₂ {α β : Type} {R : α → β → Prop} {as : List α} {bs : List β}
    (h : List.Forall₂ R as bs) {a : α} (ha : a ∈ as) : ∃ b ∈ bs, R a b := by
  induction h with
  | nil => cases ha
  | cons hab _ ih =>
    rcases List.mem_cons.mp ha with rfl | ha
    · exact ⟨_, List.mem_cons_self, hab⟩
    · obtain ⟨b, hb, hR⟩ := ih ha
      exact ⟨b, List.mem_cons_of_mem _ hb, hR⟩

theorem map_eq_map_iff {α β γ : Type} {f : α → γ} {g : β → γ} {as : List α} {bs : List β} :
    as.map f = bs.map g ↔ List.Forall₂ (fun a b => f a = g b) as bs := by
  rw [← List.forall₂_eq_eq_eq, List.forall₂_map_left_iff, List.forall₂_map_right_iff]

theorem forall₂_and_mem {α β : Type} {R : α → β → Prop} {as : List α} {bs : List β}
    (h : List.Forall₂ R as bs) : List.Forall₂ (fun a b => a ∈ as ∧ b ∈ bs ∧ R a b) as bs := by
  have hleft := (List.forall₂_and_left _ _).mpr ⟨fun _ hmem => hmem, h⟩
  have hboth := (List.forall₂_and_left _ _).mpr ⟨fun _ hmem => hmem, hleft.flip⟩
  exact hboth.flip.imp fun _ _ hpair => ⟨hpair.2.1, hpair.1, hpair.2.2⟩

namespace Regrown

variable {before after : List (UInt8 × NodeId)} {entry : UInt8 × NodeId}

theorem refl (entries : List (UInt8 × NodeId)) : s.Regrown s' key value entries entries :=
  ⟨entries, [], (List.append_nil _).symm, List.forall₂_same.mpr fun entry _ => .refl entry, by simp⟩

theorem exists_follows (h : s.Regrown s' key value before after) (hentry : entry ∈ before) :
    ∃ next ∈ after, s.Follows s' key value entry next := by
  obtain ⟨kept, added, rfl, hkept, -⟩ := h
  obtain ⟨next, hnext, hfollows⟩ := exists_of_mem_forall₂ hkept hentry
  exact ⟨next, List.mem_append_left _ hnext, hfollows⟩

theorem length_le (h : s.Regrown s' key value before after) : before.length ≤ after.length := by
  obtain ⟨kept, added, rfl, hkept, -⟩ := h
  rw [hkept.length_eq, List.length_append]
  exact Nat.le_add_right _ _

/-- A branch to a node that was there is one of the old branches. -/
theorem mem_of_has (h : s.Regrown s' key value before after) (hentry : entry ∈ after)
    (hhas : s.Has entry.2) : entry ∈ before := by
  obtain ⟨kept, added, rfl, hkept, hadded⟩ := h
  rcases List.mem_append.mp hentry with hmem | hmem
  · obtain ⟨old, hold, hfollows⟩ := exists_of_mem_forall₂ hkept.flip hmem
    rcases hfollows.child with heq | hnew
    · rw [Prod.ext hfollows.label heq]
      exact hold
    · exact absurd hhas hnew.fresh
  · exact absurd hhas (hadded entry hmem).1

theorem takes (h : s.Regrown s' key value before after)
    (hold : ∀ entry ∈ before,
      Entries.Takes key value (s.itemsBelow entry.2) (s'.itemsBelow entry.2)) :
    Entries.Takes key value ((before.map Prod.snd).flatMap s.itemsBelow)
      ((after.map Prod.snd).flatMap s'.itemsBelow) := by
  obtain ⟨kept, added, rfl, hkept, hadded⟩ := h
  have hpairs := ((List.forall₂_and_left _ _).mpr ⟨hold, hkept⟩).imp fun _ _ h => h.2.takes h.1
  rw [List.map_append, List.flatMap_append, List.flatMap_map, List.flatMap_map, List.flatMap_map,
    ← List.append_nil (before.flatMap _)]
  exact (Entries.Takes.flatMap hpairs).append
    (Entries.Takes.of_forall_eq fun entry hentry => (hadded entry hentry).2)

end Regrown

namespace Wrote

variable {id : NodeId}

theorem segment_eq (h : Wrote key value s s') (hid : s.Has id) :
    (s'.node id).segment = (s.node id).segment := by
  rcases h.node id hid with heq | ⟨-, -, heq⟩ <;> rw [heq]

theorem row_eq (h : Wrote key value s s') (hid : s.Has id) :
    (s'.node id).row = (s.node id).row := by
  rcases h.node id hid with heq | ⟨-, -, heq⟩ <;> rw [heq]

theorem key_eq (h : Wrote key value s s') (hid : s.Has id) : s'.key id = s.key id := by
  rw [Store.key, Store.key, h.segment_eq hid]

theorem regrown (h : Wrote key value s s') {row : RowId} (hrow : s.HasRow row) :
    s.Regrown s' key value (s.row row).entries (s'.row row).entries := by
  rcases h.row row hrow with heq | ⟨-, hregrown⟩
  · rw [heq]
    exact .refl _
  · exact hregrown

theorem takes_item? (h : Wrote key value s s') (hid : s.Has id) :
    Entries.Takes key value (s.node id).item?.toList (s'.node id).item?.toList := by
  rcases h.node id hid with heq | ⟨-, hkey, heq⟩
  · rw [heq]
    exact .refl _
  · have hafter : (s'.node id).item? = some (key, value) := by
      rw [heq, ← hkey]
      rfl
    have hbefore : Entries.without key (s.node id).item?.toList = [] := by
      rw [Node.item?]
      change (s.node id).segment.key = key at hkey
      cases (s.node id).value with
      | none => rfl
      | some held => simp [hkey]
    rw [hafter]
    exact Or.inr ⟨List.mem_singleton_self _,
      (Entries.without_singleton key value).trans hbefore.symm⟩

/-- What any node lists takes at most the new entry. -/
theorem takes (h : Wrote key value s s') (hs : s.Sound) (hs' : s'.Sound) (id : NodeId)
    (hid : s.Has id) : Entries.Takes key value (s.itemsBelow id) (s'.itemsBelow id) := by
  induction id, hid using hs.induction with
  | step id hid ih =>
    rw [hs.itemsBelow_eq hid, hs'.itemsBelow_eq (h.has id hid)]
    refine (h.takes_item? hid).append ?_
    cases hrow : (s.node id).row with
    | none =>
      rw [children_of_row_none hrow, children_of_row_none ((h.row_eq hid).trans hrow)]
      exact .refl []
    | some row =>
      rw [children_of_row_some hrow, children_of_row_some ((h.row_eq hid).trans hrow)]
      refine (h.regrown (hs.rowSound hid hrow).has).takes fun entry hentry => ?_
      exact ih entry.2 (mem_children.mpr ⟨row, hrow, entry.1, hentry⟩)

theorem takes_root (h : Wrote key value s s') (hs : s.Sound) (hs' : s'.Sound) :
    Entries.Takes key value (s.itemsBelow s.root) (s'.itemsBelow s'.root) := by
  have hold := h.takes hs hs' s.root hs.has_root
  rcases h.root with heq | hnew
  · rw [heq]
    exact hold
  · exact hold.trans hnew.takes

/-- An entry that a live node lists after the write is in the trie. -/
theorem mem_root (h : Wrote key value s s') (hs : s.Sound) (hs' : s'.Sound) (hlive : s.Live id)
    (hmem : (key, value) ∈ s'.itemsBelow id) : (key, value) ∈ s'.itemsBelow s'.root := by
  induction hlive with
  | refl =>
    rcases h.root with heq | hnew
    · rw [heq]
      exact hmem
    · exact hnew.takes.mem hmem
  | @tail parent child hsteps hstep ih =>
    have hhas := hs.has_live hsteps
    obtain ⟨row, hrow, byte, hentry⟩ := mem_children.mp hstep
    obtain ⟨next, hnext, hfollows⟩ := (h.regrown (hs.rowSound hhas hrow).has).exists_follows hentry
    have hmem' : (key, value) ∈ s'.itemsBelow next.2 := by
      rcases hfollows.child with heq | hnew
      · rw [heq]
        exact hmem
      · exact hnew.takes.mem hmem
    refine ih ?_
    rw [hs'.itemsBelow_eq (h.has _ hhas)]
    refine List.mem_append_right _ (List.mem_flatMap.mpr ⟨next.2, ?_, hmem'⟩)
    exact mem_children.mpr ⟨row, (h.row_eq hhas).trans hrow, next.1, hnext⟩

/-! ### What is not live stays so -/

/-- What a live row leads to was live, if it was there. -/
theorem live_of_mem_row (h : Wrote key value s s') (hs : s.Sound) {row : RowId}
    (hlive : s.LiveRow row) {entry : UInt8 × NodeId} (hentry : entry ∈ (s'.row row).entries)
    (hhas : s.Has entry.2) : s.Live entry.2 := by
  obtain ⟨owner, howner, hrow⟩ := hlive
  have hregrown := h.regrown (hs.rowSound (hs.has_live howner) hrow).has
  exact howner.tail (mem_children.mpr ⟨row, hrow, entry.1, hregrown.mem_of_has hentry hhas⟩)

theorem liveRow_of_row (h : Wrote key value s s') {row : RowId} (hrow : (s'.node id).row = some row)
    (hhas : s.HasRow row) (hlive : s.Has id → s.Live id) : s.LiveRow row := by
  by_cases hid : s.Has id
  · exact ⟨id, hlive hid, (h.row_eq hid).symm.trans hrow⟩
  · exact h.freshNode id hid row hrow hhas

/-- A node that is live after the write was live before, if it was there. -/
theorem live_of_live (h : Wrote key value s s') (hs : s.Sound) (hlive : s'.Live id)
    (hid : s.Has id) : s.Live id := by
  induction hlive with
  | refl =>
    rcases h.root with heq | hnew
    · rw [heq]
      exact Relation.ReflTransGen.refl
    · exact absurd hid hnew.fresh
  | @tail parent child hsteps hstep ih =>
    obtain ⟨row, hrow, byte, hentry⟩ := mem_children.mp hstep
    by_cases hhas : s.HasRow row
    · exact h.live_of_mem_row hs (h.liveRow_of_row hrow hhas ih) hentry hid
    · exact h.freshRow row hhas _ hentry hid

theorem liveRow_of_liveRow (h : Wrote key value s s') (hs : s.Sound) {row : RowId}
    (hlive : s'.LiveRow row) (hhas : s.HasRow row) : s.LiveRow row := by
  obtain ⟨owner, howner, hrow⟩ := hlive
  exact h.liveRow_of_row hrow hhas fun hid => h.live_of_live hs howner hid

theorem node_eq (h : Wrote key value s s') (hid : s.Has id) (hlive : ¬s.Live id) :
    s'.node id = s.node id :=
  (h.node id hid).resolve_right fun hchanged => hlive hchanged.1

theorem row_eq_of_not_liveRow (h : Wrote key value s s') {row : RowId} (hrow : s.HasRow row)
    (hlive : ¬s.LiveRow row) : s'.row row = s.row row :=
  (h.row row hrow).resolve_right fun hchanged => hlive hchanged.1

end Wrote

end Store

end ByteTrie
