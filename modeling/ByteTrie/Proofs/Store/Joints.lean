import ByteTrie.Proofs.Key.CommonPrefix
import ByteTrie.Proofs.Store.Compact

/-!
# The keys of the nodes

In a compact store the keys at which there are nodes can be told from the keys
with values alone. They are the empty key, the keys with values, and the keys at
which two of those part: a node without a value has two branches, below each of
which some key ends, and these have no more in common than the key of the node.
In the other direction the descent along what two keys have in common cannot
stop inside a segment, as all keys below the node go on as its segment does.
-/

namespace ByteTrie

/-- The empty key, some keys, and the keys at which two of them part. -/
inductive Key.Joint (P : Key → Prop) : Key → Prop
  | empty : Joint P []
  | held {key : Key} (holds : P key) : Joint P key
  | parting {a b : Key} (left : P a) (right : P b) : Joint P (Key.commonPrefix a b)

theorem Key.Joint.mono {P Q : Key → Prop} {key : Key} (h : Key.Joint P key)
    (himp : ∀ held, P held → Q held) : Key.Joint Q key := by
  cases h with
  | empty => exact .empty
  | held hheld => exact .held (himp _ hheld)
  | parting hleft hright => exact .parting (himp _ hleft) (himp _ hright)

namespace Store

variable {V : Type} {s : Store V}

/-- A value is held under a key. -/
def Held (s : Store V) (key : Key) : Prop :=
  ∃ id, s.Live id ∧ s.key id = key ∧ (s.node id).value.isSome

theorem branch_of_mem_entriesAt {id : NodeId} {entry : UInt8 × NodeId}
    (hentry : entry ∈ s.entriesAt id) : s.Branch id entry.2 := by
  rw [Branch, children_eq_map_entriesAt]
  exact List.mem_map_of_mem hentry

namespace Sound

variable {id other : NodeId}

theorem ascending_entriesAt (h : s.Sound) (hid : s.Has id) :
    ((s.entriesAt id).map Prod.fst).Pairwise (· < ·) := by
  cases hrow : (s.node id).row with
  | none =>
    rw [entriesAt_of_row_none hrow]
    exact List.Pairwise.nil
  | some row =>
    rw [entriesAt_of_row_some hrow]
    exact (h.rowSound hid hrow).sound.ascending_entries

theorem ne_root_of_leads (h : s.Sound) {path : Key} {byte : UInt8} (hlead : s.Leads path byte id) :
    id ≠ s.root := by
  rintro rfl
  have hlt := hlead.length_lt
  rw [h.key_root] at hlt
  exact Nat.not_lt_zero _ hlt

theorem ne_root_of_branch (h : s.Sound) (hid : s.Has id) (hchild : s.Branch id other) :
    other ≠ s.root := by
  obtain ⟨byte, hlead⟩ := h.exists_leads hid hchild
  exact h.ne_root_of_leads hlead

/-! ### Nodes are at joints -/

/-- Below every node that is not the root some key ends. -/
theorem exists_held_below (h : s.Sound) (hc : s.Compact) (hlive : s.Live id) (hroot : id ≠ s.root) :
    ∃ other, s.Below id other ∧ s.Held (s.key other) := by
  induction id, h.has_live hlive using h.induction with
  | step id hid ih =>
    rcases hc id hlive hroot with hvalue | htwo
    · exact ⟨id, Relation.ReflTransGen.refl, id, hlive, rfl, hvalue⟩
    · obtain ⟨child, hchild⟩ := List.exists_mem_of_length_pos (Nat.lt_of_lt_of_le Nat.two_pos htwo)
      obtain ⟨byte, hlead⟩ := h.exists_leads hid hchild
      obtain ⟨other, hbelow, hheld⟩ :=
        ih child hchild (hlive.tail hchild) (h.ne_root_of_leads hlead)
      exact ⟨other, hbelow.head hchild, hheld⟩

/-- Every node that is not the root lists something. -/
theorem itemsBelow_ne_nil (h : s.Sound) (hc : s.Compact) (hlive : s.Live id) (hroot : id ≠ s.root) :
    s.itemsBelow id ≠ [] := by
  obtain ⟨other, hbelow, self, hself, hkey, hvalue⟩ := h.exists_held_below hc hlive hroot
  obtain rfl := h.eq_of_key_eq h.has_root hself (hlive.trans hbelow) hkey
  obtain ⟨value, hvalue⟩ := Option.isSome_iff_exists.mp hvalue
  exact List.ne_nil_of_mem
    ((h.mem_itemsBelow (h.has_live hlive)).mpr ⟨self, hbelow, rfl, hvalue⟩)

/-- Below each branch some key ends that begins as the branch does. -/
theorem exists_held_of_mem_entriesAt (h : s.Sound) (hc : s.Compact) (hlive : s.Live id)
    {entry : UInt8 × NodeId} (hentry : entry ∈ s.entriesAt id) :
    ∃ key, s.Held key ∧ s.key id ++ [entry.1] <+: key := by
  have hlead := h.leads_of_mem_entriesAt (h.has_live hlive) hentry
  obtain ⟨other, hbelow, hheld⟩ := h.exists_held_below hc
    (hlive.tail (branch_of_mem_entriesAt hentry)) (h.ne_root_of_leads hlead)
  exact ⟨s.key other, hheld, hlead.begins.trans (h.key_isPrefix_of_below hlead.has hbelow)⟩

theorem joint_of_live (h : s.Sound) (hc : s.Compact) (hlive : s.Live id) :
    Key.Joint s.Held (s.key id) := by
  by_cases hroot : id = s.root
  · rw [hroot, h.key_root]
    exact .empty
  rcases hc id hlive hroot with hvalue | htwo
  · exact .held ⟨id, hlive, rfl, hvalue⟩
  · rw [children_eq_map_entriesAt, List.length_map] at htwo
    have hascending := h.ascending_entriesAt (h.has_live hlive)
    have hfirst : (s.entriesAt id)[0] ∈ s.entriesAt id := List.getElem_mem _
    have hsecond : (s.entriesAt id)[1] ∈ s.entriesAt id := List.getElem_mem _
    have hne : (s.entriesAt id)[0].1 ≠ (s.entriesAt id)[1].1 := UInt8.ne_of_lt
      (List.pairwise_iff_getElem.mp (List.pairwise_map.mp hascending) 0 1 _ _ Nat.one_pos)
    obtain ⟨a, ha, hbegins⟩ := h.exists_held_of_mem_entriesAt hc hlive hfirst
    obtain ⟨b, hb, hbegins'⟩ := h.exists_held_of_mem_entriesAt hc hlive hsecond
    rw [← Key.commonPrefix_of_parting hbegins hbegins' hne]
    exact .parting ha hb

/-! ### Joints have nodes -/

/-- All nodes whose keys go on from the key of a live node are below it. -/
theorem below_of_isPrefix (h : s.Sound) (hlive : s.Live id) (hother : s.Live other)
    (hextends : s.key id <+: s.key other) : s.Below id other := by
  obtain ⟨stop, -, hstops, hcovers⟩ := h.trace (s.key id)
  obtain ⟨place, matched, rfl, hbelow⟩ := hcovers other hother hextends
  obtain ⟨_, _, ⟨⟩, hself⟩ := hcovers id hlive (List.prefix_refl _)
  cases hstops with
  | ended hplaced _ _ hread =>
    have hat := hplaced.live h
    have hle : s.key id <+: s.key place.node := hread ▸ s.read_isPrefix _ _
    have hkey := (h.key_isPrefix_of_below (h.has_live hat) hself).eq_of_length_le hle.length_le
    rw [← h.eq_of_key_eq h.has_root hat hlive hkey]
    exact hbelow

/-- Two keys have a node where they part. -/
theorem exists_live_commonPrefix (h : s.Sound) {a b : NodeId} (ha : s.Live a) (hb : s.Live b) :
    ∃ id, s.Live id ∧ s.key id = Key.commonPrefix (s.key a) (s.key b) := by
  obtain ⟨stop, -, hstops, hcovers⟩ := h.trace (Key.commonPrefix (s.key a) (s.key b))
  obtain ⟨place, matched, rfl, hbelowA⟩ := hcovers a ha (Key.commonPrefix_isPrefix_left _ _)
  obtain ⟨_, _, ⟨⟩, hbelowB⟩ := hcovers b hb (Key.commonPrefix_isPrefix_right _ _)
  cases hstops with
  | ended hplaced hle _ hread =>
    have hlive := hplaced.live h
    have hid := h.has_live hlive
    refine ⟨place.node, hlive, ?_⟩
    cases hnext : (s.node place.node).segment.get? matched with
    | none => rw [← hread, h.read_eq_key hid hle hnext]
    | some byte =>
      -- Both keys would go on with the next byte of the segment.
      have hbegins : Key.commonPrefix (s.key a) (s.key b) ++ [byte] <+: s.key place.node := by
        rw [← hread, ← read_succ hnext]
        exact s.read_isPrefix _ _
      exact absurd (hbegins.trans (h.key_isPrefix_of_below hid hbelowB))
        (Key.not_isPrefix_of_isPrefix (hbegins.trans (h.key_isPrefix_of_below hid hbelowA)))

/-- There are nodes at the joints of the keys with values, and nowhere else. -/
theorem exists_live_iff (h : s.Sound) (hc : s.Compact) (key : Key) :
    (∃ id, s.Live id ∧ s.key id = key) ↔ Key.Joint s.Held key := by
  constructor
  · rintro ⟨id, hlive, rfl⟩
    exact h.joint_of_live hc hlive
  · rintro (_ | ⟨id, hlive, rfl, -⟩ | ⟨⟨a, ha, rfl, -⟩, b, hb, rfl, -⟩)
    · exact ⟨s.root, Relation.ReflTransGen.refl, h.key_root⟩
    · exact ⟨id, hlive, rfl⟩
    · exact h.exists_live_commonPrefix ha hb

end Sound

end Store

end ByteTrie
