import ByteTrie.Proofs.Store.Joints
import ByteTrie.Proofs.Store.Listing
import ByteTrie.Trie.Census

/-!
# The outline of a trie

The outline of a trie is what one would draw of it: the segments, values and
branches of its nodes, without the numbers that the nodes have in the store and
the buffers that the segments are cut from. Two sound stores have the same
outline as soon as they have nodes under the same keys, with the same values: the
branches of a node begin with the bytes that keys go on with, and each leads to
the first node whose key does. All that is counted of a trie, apart from its
spare room, is counted on the outline.
-/

namespace ByteTrie

/-- A node as it would be drawn, with what is below it. -/
inductive Outline (V : Type) where
  | node (segment : Key) (value : Option V) (branches : List (UInt8 × Outline V))

namespace Store

variable {V : Type} {s s' : Store V}

/-- The outline at and below a node, down to a depth. -/
def outlineTo (s : Store V) (id : NodeId) : Nat → Outline V
  | 0 => .node [] none []
  | depth + 1 => .node (s.node id).segment.bytes (s.node id).value
      ((s.entriesAt id).map fun entry => (entry.1, s.outlineTo entry.2 depth))

/-- The outline at and below a node. -/
def outlineAt (s : Store V) (id : NodeId) : Outline V := s.outlineTo id s.nodes.size

/-- The outline of what the root leads to. -/
def outline (s : Store V) : Outline V := s.outlineAt s.root

namespace Sound

variable {id : NodeId}

theorem outlineTo_eq (h : s.Sound) (hid : s.Has id) {depth depth' : Nat}
    (hdepth : s.rank id < depth) (hdepth' : s.rank id < depth') :
    s.outlineTo id depth = s.outlineTo id depth' := by
  induction depth generalizing id depth' with
  | zero => exact absurd hdepth (Nat.not_lt_zero _)
  | succ depth ih =>
    cases depth' with
    | zero => exact absurd hdepth' (Nat.not_lt_zero _)
    | succ depth' =>
      rw [outlineTo, outlineTo]
      congr 1
      refine List.map_congr_left fun entry hentry => Prod.ext rfl ?_
      have hchild := branch_of_mem_entriesAt hentry
      have hrank := h.rank_child_lt hid hchild
      exact ih (h.has_child hid hchild) (by omega) (by omega)

/-- An outline shows a node and the outlines of its branches. -/
theorem outlineAt_eq (h : s.Sound) (hid : s.Has id) :
    s.outlineAt id = .node (s.node id).segment.bytes (s.node id).value
      ((s.entriesAt id).map fun entry => (entry.1, s.outlineAt entry.2)) := by
  rw [outlineAt, h.outlineTo_eq hid (rank_lt_size hid) (Nat.lt_succ_of_lt (rank_lt_size hid)),
    outlineTo]
  rfl

end Sound

/-! ### Stores with nodes under the same keys -/

/-- Two stores have nodes under the same keys, with the same values. -/
structure Agrees (s s' : Store V) : Prop where
  exists_live : ∀ id, s.Live id → ∃ id', s'.Live id' ∧ s'.key id' = s.key id
  exists_live' : ∀ id', s'.Live id' → ∃ id, s.Live id ∧ s.key id = s'.key id'
  value : ∀ id id', s.Live id → s'.Live id' → s'.key id' = s.key id →
    (s'.node id').value = (s.node id).value

/-- Branches of two nodes by the same byte, to nodes with the same key. -/
structure Corresponds (s s' : Store V) (id id' : NodeId) (entry entry' : UInt8 × NodeId) :
    Prop where
  mem : entry ∈ s.entriesAt id
  mem' : entry' ∈ s'.entriesAt id'
  byte : entry'.1 = entry.1
  key : s'.key entry'.2 = s.key entry.2

theorem Agrees.symm (h : s.Agrees s') : s'.Agrees s where
  exists_live := h.exists_live'
  exists_live' := h.exists_live
  value id' id hlive' hlive hkey := (h.value id id' hlive hlive' hkey.symm).symm

theorem Sound.mem_entriesAt_of_leads (h : s.Sound) {id child : NodeId} (hid : s.Has id)
    (hbranch : s.Branch id child) {byte : UInt8} (hlead : s.Leads (s.key id) byte child) :
    (byte, child) ∈ s.entriesAt id := by
  rw [Branch, children_eq_map_entriesAt] at hbranch
  obtain ⟨⟨byte', child⟩, hentry, rfl⟩ := List.mem_map.mp hbranch
  have haddress := hlead.address_eq.symm.trans (h.leads_of_mem_entriesAt hid hentry).address_eq
  obtain rfl : byte = byte' := by simpa using haddress
  exact hentry

namespace Agrees

variable {id id' : NodeId}

/-- Nodes with the same key branch by the same bytes to nodes with the same keys. -/
theorem exists_entry (h : s.Agrees s') (hs : s.Sound) (hs' : s'.Sound) (hlive : s.Live id)
    (hlive' : s'.Live id') (hkey : s'.key id' = s.key id) {entry : UInt8 × NodeId}
    (hentry : entry ∈ s.entriesAt id) :
    ∃ child, (entry.1, child) ∈ s'.entriesAt id' ∧ s'.key child = s.key entry.2 := by
  have hid := hs.has_live hlive
  have hid' := hs'.has_live hlive'
  have hbranch := branch_of_mem_entriesAt hentry
  have hlead := hs.leads_of_mem_entriesAt hid hentry
  -- The other store has a node under the key of the branch, and so a branch of its own.
  obtain ⟨other, hother, hotherKey⟩ := h.exists_live entry.2 (hlive.tail hbranch)
  have hbegins : s'.key id' ++ [entry.1] <+: s'.key other := by
    rw [hkey, hotherKey]
    exact hlead.begins
  have hbelow := hs'.below_of_isPrefix hlive' hother ((List.prefix_append _ _).trans hbegins)
  obtain ⟨child, hchild, hleadChild, hbelowChild⟩ :=
    hs'.exists_branch_of_isPrefix hid' hbelow hbegins
  refine ⟨child, hs'.mem_entriesAt_of_leads hid' hchild hleadChild, ?_⟩
  -- The branch is not above the node, as the first store has a node under its key as well.
  obtain ⟨back, hback, hbackKey⟩ := h.exists_live' child (hlive'.tail hchild)
  have hbegins' : s.key id ++ [entry.1] <+: s.key back := by
    rw [← hkey, hbackKey]
    exact hleadChild.begins
  have hbelow' := hs.below_of_isPrefix hlive hback ((List.prefix_append _ _).trans hbegins')
  obtain ⟨child', hchild', hleadChild', hbelowBack⟩ :=
    hs.exists_branch_of_isPrefix hid hbelow' hbegins'
  obtain rfl := hs.eq_of_leads hid hchild' hleadChild' hbranch hlead
  have hextends := hs.key_isPrefix_of_below hlead.has hbelowBack
  have hextends' := hs'.key_isPrefix_of_below hleadChild.has hbelowChild
  rw [hbackKey] at hextends
  rw [hotherKey] at hextends'
  exact (hextends.eq_of_length_le hextends'.length_le).symm

/-- The branches of nodes with the same key correspond one by one. -/
theorem forall₂_entriesAt (h : s.Agrees s') (hs : s.Sound) (hs' : s'.Sound) (hlive : s.Live id)
    (hlive' : s'.Live id') (hkey : s'.key id' = s.key id) :
    List.Forall₂ (s.Corresponds s' id id') (s.entriesAt id) (s'.entriesAt id') := by
  let labels (s : Store V) (id : NodeId) : List (UInt8 × Key) :=
    (s.entriesAt id).map fun entry => (entry.1, s.key entry.2)
  have hascending (s : Store V) (hs : s.Sound) (id : NodeId) (hid : s.Has id) :
      (labels s id).Pairwise fun a b => a.1 < b.1 :=
    List.pairwise_map.mpr (List.pairwise_map.mp (hs.ascending_entriesAt hid))
  have hmem (label : UInt8 × Key) : label ∈ labels s id ↔ label ∈ labels s' id' := by
    simp only [labels, List.mem_map]
    constructor
    · rintro ⟨entry, hentry, rfl⟩
      obtain ⟨child, hchild, hchildKey⟩ := h.exists_entry hs hs' hlive hlive' hkey hentry
      exact ⟨(entry.1, child), hchild, Prod.ext rfl hchildKey⟩
    · rintro ⟨entry, hentry, rfl⟩
      obtain ⟨child, hchild, hchildKey⟩ :=
        h.symm.exists_entry hs' hs hlive' hlive hkey.symm hentry
      exact ⟨(entry.1, child), hchild, Prod.ext rfl hchildKey⟩
  have irrefl : Std.Irrefl fun a b : UInt8 × Key => a.1 < b.1 := ⟨fun a => UInt8.lt_irrefl a.1⟩
  have antisymm : Std.Antisymm fun a b : UInt8 × Key => a.1 < b.1 :=
    ⟨fun _ _ hab hba => absurd hba (UInt8.lt_asymm hab)⟩
  have heq : labels s id = labels s' id' := List.Pairwise.eq_of_mem_iff
    (hascending s hs id (hs.has_live hlive)) (hascending s' hs' id' (hs'.has_live hlive')) hmem
  refine (forall₂_and_mem (map_eq_map_iff.mp heq)).imp fun entry entry' hpair => ?_
  obtain ⟨hentry, hentry', hlabel⟩ := hpair
  exact ⟨hentry, hentry', (Prod.mk.inj hlabel).1.symm, (Prod.mk.inj hlabel).2.symm⟩

/-- Nodes with the same key that begin at the same byte have the same outline. -/
theorem outlineAt_eq (h : s.Agrees s') (hs : s.Sound) (hs' : s'.Sound) (hlive : s.Live id)
    (hlive' : s'.Live id') (hkey : s'.key id' = s.key id)
    (hoffset : (s'.node id').segment.offset = (s.node id).segment.offset) :
    s'.outlineAt id' = s.outlineAt id := by
  induction id, hs.has_live hlive using hs.induction generalizing id' with
  | step id hid ih =>
    have hid' := hs'.has_live hlive'
    have hbytes : (s'.node id').segment.bytes = (s.node id).segment.bytes := by
      rw [Segment.bytes_eq_drop_key, Segment.bytes_eq_drop_key, hoffset]
      exact congrArg (List.drop _) hkey
    rw [hs'.outlineAt_eq hid', hs.outlineAt_eq hid, hbytes, h.value id id' hlive hlive' hkey]
    congr 1
    refine map_eq_map_iff.mpr ((h.forall₂_entriesAt hs hs' hlive hlive' hkey).flip.imp
      fun entry' entry hentries => ?_)
    obtain ⟨hentry, hentry', hbyte, hchildKey⟩ := hentries
    have hbranch := branch_of_mem_entriesAt hentry
    have hoffset : (s'.node entry'.2).segment.offset = (s.node entry.2).segment.offset := by
      rw [(hs'.leads_of_mem_entriesAt hid' hentry').offset, hkey,
        (hs.leads_of_mem_entriesAt hid hentry).offset]
    exact Prod.ext hbyte (ih entry.2 hbranch (hlive.tail hbranch)
      (hlive'.tail (branch_of_mem_entriesAt hentry')) hchildKey hoffset)

/-- Stores with nodes under the same keys have the same outline. -/
theorem outline_eq (h : s.Agrees s') (hs : s.Sound) (hs' : s'.Sound) : s'.outline = s.outline :=
  h.outlineAt_eq hs hs' Relation.ReflTransGen.refl Relation.ReflTransGen.refl
    (hs'.key_root.trans hs.key_root.symm) (hs'.offset_root.trans hs.offset_root.symm)

end Agrees

end Store

end ByteTrie
