import ByteTrie.Proofs.Branches
import ByteTrie.Proofs.Key.Order
import ByteTrie.Store.Preorder
import Mathlib.Logic.Relation

/-!
# Sound stores

A store is sound when every node in it, whether the root leads to it or not, has
a row whose branches prolong the node's key: a branch begins where the key ends,
with the byte that it stands under. A node that has been replaced keeps its row,
and so may be an owner of it beside the node that came in its place; all owners
of a row have the same key.

Nothing is said about which nodes the root leads to. Keys grow along branches,
so no way through a sound store comes back to a node, and two ways from one node
that end with the same key end at the same node.
-/

namespace ByteTrie

namespace Segment

theorem length_key {segment : Segment} (h : segment.Within) :
    segment.key.length = segment.stop := by
  simp only [Within] at h
  simp [key_eq, h]

end Segment

namespace Store

variable {V : Type}

/-- A node was made. -/
def Has (s : Store V) (id : NodeId) : Prop := id.index < s.nodes.size

/-- A row was made. -/
def HasRow (s : Store V) (row : RowId) : Prop := row.index < s.rows.size

/-- The key that ends with a node. -/
def key (s : Store V) (id : NodeId) : Key := (s.node id).segment.key

/-- The key up to the first byte of a node's segment: with it begins every key
at and below the node, and it does not change when the node is replaced. -/
def address (s : Store V) (id : NodeId) : Key :=
  (s.key id).take ((s.node id).segment.offset + 1)

/-- A node prolongs a key, by a segment that begins with a byte. -/
structure Leads (s : Store V) (path : Key) (byte : UInt8) (id : NodeId) : Prop where
  has : s.Has id
  offset : (s.node id).segment.offset = path.length
  begins : path ++ [byte] <+: s.key id

/-- A row of branches that prolong a key. -/
structure RowSound (s : Store V) (path : Key) (row : RowId) : Prop where
  has : s.HasRow row
  sound : (s.row row).Sound
  inhabited : (s.row row).entries ≠ []
  leads : ∀ entry ∈ (s.row row).entries, s.Leads path entry.1 entry.2

/-- A node whose branches prolong its key. -/
structure NodeSound (s : Store V) (node : Node V) : Prop where
  within : node.segment.Within
  row : ∀ row, node.row = some row → s.RowSound node.segment.key row

/-- A store of sound nodes, whose root stands for the empty key. -/
structure Sound (s : Store V) : Prop where
  has_root : s.Has s.root
  key_root : s.key s.root = []
  node : ∀ id, s.Has id → s.NodeSound (s.node id)

/-- A node is a branch of another. -/
def Branch (s : Store V) (parent child : NodeId) : Prop := child ∈ s.children parent

/-- A node is at or below another. -/
def Below (s : Store V) : NodeId → NodeId → Prop := Relation.ReflTransGen s.Branch

/-- The root leads to a node. -/
def Live (s : Store V) (id : NodeId) : Prop := s.Below s.root id

/-- The root leads to a node with the row. -/
def LiveRow (s : Store V) (row : RowId) : Prop := ∃ id, s.Live id ∧ (s.node id).row = some row

variable {s s' : Store V}

theorem node_of_not_has {id : NodeId} (h : ¬s.Has id) : s.node id = Node.blank 0 := by
  rw [node, Array.getD_eq_getD_getElem?, Array.getElem?_eq_none (Nat.le_of_not_lt h),
    Option.getD_none]

theorem row_of_not_hasRow {row : RowId} (h : ¬s.HasRow row) : s.row row = Branches.blank 0 := by
  rw [Store.row, Array.getD_eq_getD_getElem?, Array.getElem?_eq_none (Nat.le_of_not_lt h),
    Option.getD_none]

theorem children_of_row_none {id : NodeId} (h : (s.node id).row = none) : s.children id = [] := by
  simp [children, branches?, h]

theorem children_of_row_some {id : NodeId} {row : RowId} (h : (s.node id).row = some row) :
    s.children id = (s.row row).entries.map Prod.snd := by
  simp [children, branches?, h]

theorem mem_children {id child : NodeId} :
    child ∈ s.children id ↔
      ∃ row, (s.node id).row = some row ∧ ∃ byte, (byte, child) ∈ (s.row row).entries := by
  cases h : (s.node id).row with
  | none => simp [children_of_row_none h]
  | some row => simp [children_of_row_some h]

/-! ### Branches prolong keys -/

namespace Leads

variable {path : Key} {byte : UInt8} {id : NodeId}

theorem address_eq (h : s.Leads path byte id) : s.address id = path ++ [byte] := by
  obtain ⟨rest, hrest⟩ := h.begins
  rw [address, h.offset, ← hrest]
  exact List.take_left' (by simp)

theorem length_lt (h : s.Leads path byte id) : path.length < (s.key id).length := by
  have hle := h.begins.length_le
  rw [List.length_append, List.length_singleton] at hle
  exact hle

theorem isPrefix (h : s.Leads path byte id) : path <+: s.key id :=
  (List.prefix_append path [byte]).trans h.begins

/-- What is put in the place of a node prolongs the same key by the same byte. -/
theorem of_address_eq (h : s.Leads path byte id) {other : NodeId} (hhas : s.Has other)
    (hoffset : (s.node other).segment.offset = (s.node id).segment.offset)
    (haddress : s.address other = s.address id) : s.Leads path byte other where
  has := hhas
  offset := hoffset.trans h.offset
  begins := by
    rw [← h.address_eq, ← haddress]
    exact List.take_prefix _ _

theorem mono (h : s.Leads path byte id) (hhas : s'.Has id)
    (hsegment : (s'.node id).segment = (s.node id).segment) : s'.Leads path byte id where
  has := hhas
  offset := by rw [hsegment, h.offset]
  begins := by
    rw [key, hsegment]
    exact h.begins

end Leads

namespace RowSound

variable {path other : Key} {row : RowId}

/-- All owners of a row have the same key. -/
theorem path_unique (h : s.RowSound path row) (h' : s.RowSound other row) : path = other := by
  obtain ⟨entry, hentry⟩ := List.exists_mem_of_ne_nil _ h.inhabited
  have hlead := h.leads entry hentry
  have hlead' := h'.leads entry hentry
  have hlength : path.length = other.length := hlead.offset.symm.trans hlead'.offset
  have hprefix :=
    List.prefix_of_prefix_length_le hlead.isPrefix hlead'.isPrefix (Nat.le_of_eq hlength)
  exact hprefix.eq_of_length hlength

/-- A byte leads to one branch only. -/
theorem child_unique (h : s.RowSound path row) {byte : UInt8} {a b : NodeId}
    (ha : (byte, a) ∈ (s.row row).entries) (hb : (byte, b) ∈ (s.row row).entries) : a = b := by
  have hnodup : ((s.row row).entries.map Prod.fst).Nodup :=
    h.sound.ascending_entries.imp fun hlt => UInt8.ne_of_lt hlt
  exact congrArg Prod.snd (List.inj_on_of_nodup_map hnodup ha hb rfl)

end RowSound

namespace Sound

variable {id child : NodeId}

theorem rowSound (h : s.Sound) (hid : s.Has id) {row : RowId} (hrow : (s.node id).row = some row) :
    s.RowSound (s.key id) row :=
  (h.node id hid).row row hrow

theorem exists_leads (h : s.Sound) (hid : s.Has id) (hchild : s.Branch id child) :
    ∃ byte, s.Leads (s.key id) byte child := by
  obtain ⟨row, hrow, byte, hentry⟩ := mem_children.mp hchild
  exact ⟨byte, (h.rowSound hid hrow).leads _ hentry⟩

theorem has_child (h : s.Sound) (hid : s.Has id) (hchild : s.Branch id child) : s.Has child := by
  obtain ⟨byte, hlead⟩ := h.exists_leads hid hchild
  exact hlead.has

theorem has_below (h : s.Sound) (hid : s.Has id) (hbelow : s.Below id child) : s.Has child := by
  induction hbelow with
  | refl => exact hid
  | tail _ hstep ih => exact h.has_child ih hstep

theorem has_live (h : s.Sound) (hlive : s.Live id) : s.Has id := h.has_below h.has_root hlive

theorem has_liveRow (h : s.Sound) {row : RowId} (hlive : s.LiveRow row) : s.HasRow row := by
  obtain ⟨id, hlive, hrow⟩ := hlive
  exact (h.rowSound (h.has_live hlive) hrow).has

theorem address_isPrefix (id : NodeId) : s.address id <+: s.key id := List.take_prefix _ _

theorem key_isPrefix_of_below (h : s.Sound) (hid : s.Has id) (hbelow : s.Below id child) :
    s.key id <+: s.key child := by
  induction hbelow with
  | refl => exact List.prefix_refl _
  | tail hsteps hstep ih =>
    obtain ⟨byte, hlead⟩ := h.exists_leads (h.has_below hid hsteps) hstep
    exact ih.trans hlead.isPrefix

theorem length_key_lt_of_transGen (h : s.Sound) (hid : s.Has id)
    (hbelow : Relation.TransGen s.Branch id child) : (s.key id).length < (s.key child).length := by
  obtain ⟨middle, hsteps, hstep⟩ := Relation.TransGen.tail'_iff.mp hbelow
  obtain ⟨byte, hlead⟩ := h.exists_leads (h.has_below hid hsteps) hstep
  exact Nat.lt_of_le_of_lt (h.key_isPrefix_of_below hid hsteps).length_le hlead.length_lt

/-- No way through a sound store comes back to a node. -/
theorem not_transGen_self (h : s.Sound) (hid : s.Has id) : ¬Relation.TransGen s.Branch id id :=
  fun hcycle => Nat.lt_irrefl _ (h.length_key_lt_of_transGen hid hcycle)

/-- Two ways from a node to nodes with the same key end at the same node. -/
theorem eq_of_key_eq (h : s.Sound) (hid : s.Has id) {a b : NodeId} (ha : s.Below id a)
    (hb : s.Below id b) (hkey : s.key a = s.key b) : a = b := by
  induction ha using Relation.ReflTransGen.head_induction_on with
  | refl =>
    rcases Relation.reflTransGen_iff_eq_or_transGen.mp hb with heq | hbelow
    · exact heq.symm
    · have := h.length_key_lt_of_transGen hid hbelow
      rw [hkey] at this
      exact (Nat.lt_irrefl _ this).elim
  | head hstep hsteps ih =>
    rename_i parent next
    rcases Relation.ReflTransGen.cases_head hb with rfl | ⟨next', hstep', hsteps'⟩
    · have := h.length_key_lt_of_transGen hid (Relation.TransGen.head' hstep hsteps)
      rw [hkey] at this
      exact (Nat.lt_irrefl _ this).elim
    · -- Both keys go on with the byte of the branch taken, so it is the same branch.
      obtain ⟨row, hrow, byte, hentry⟩ := mem_children.mp hstep
      obtain ⟨row', hrow', byte', hentry'⟩ := mem_children.mp hstep'
      obtain rfl : row = row' := Option.some.inj (hrow.symm.trans hrow')
      have hsound := h.rowSound hid hrow
      have hlead := hsound.leads _ hentry
      have hlead' := hsound.leads _ hentry'
      have hbyte : byte = byte' := Key.byte_eq_of_isPrefix
        (hlead.begins.trans (h.key_isPrefix_of_below hlead.has hsteps))
        (hkey ▸ hlead'.begins.trans (h.key_isPrefix_of_below hlead'.has hsteps'))
      subst hbyte
      obtain rfl := hsound.child_unique hentry hentry'
      exact ih hlead.has hsteps'

end Sound

end Store

end ByteTrie
