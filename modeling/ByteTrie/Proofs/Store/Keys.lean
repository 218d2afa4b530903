import ByteTrie.Proofs.Key.Departure
import ByteTrie.Proofs.Store.Joints
import Mathlib.Data.Finset.Image

/-!
# Nodes by their keys

No two live nodes have the same key, so what is to be known of the live nodes can be
told from their keys: how many they are, how high they stand, which of their keys
another departs from inside a segment, and with which bytes their branches begin.
-/

namespace ByteTrie

variable {V : Type}

namespace Store

variable {s s' : Store V} {id child other : NodeId} {key stem : Key}

/-- The nodes that the root leads to. -/
def liveNodes (s : Store V) : Finset NodeId := (s.nodesBelow s.root).toFinset

/-- The keys of the nodes that the root leads to. -/
def liveKeys (s : Store V) : Finset Key := s.liveNodes.image s.key

/-- A key departs inside the segment of a node, and has bytes left over there. -/
structure PartsInside (s : Store V) (key : Key) (id : NodeId) : Prop where
  begun : (s.node id).segment.offset < (Key.commonPrefix key (s.key id)).length
  inside : (Key.commonPrefix key (s.key id)).length < (s.node id).segment.stop
  left : (Key.commonPrefix key (s.key id)).length < key.length

namespace Sound

theorem mem_liveNodes (h : s.Sound) (id : NodeId) : id ∈ s.liveNodes ↔ s.Live id :=
  List.mem_toFinset.trans (h.mem_nodesBelow h.has_root)

theorem mem_liveKeys (h : s.Sound) : key ∈ s.liveKeys ↔ ∃ id, s.Live id ∧ s.key id = key := by
  simp only [liveKeys, Finset.mem_image, h.mem_liveNodes]

theorem key_mem_liveKeys (h : s.Sound) (hlive : s.Live id) : s.key id ∈ s.liveKeys :=
  h.mem_liveKeys.mpr ⟨id, hlive, rfl⟩

theorem nil_mem_liveKeys (h : s.Sound) : [] ∈ s.liveKeys :=
  h.mem_liveKeys.mpr ⟨s.root, Relation.ReflTransGen.refl, h.key_root⟩

theorem card_liveKeys (h : s.Sound) : s.liveKeys.card = s.liveNodes.card := by
  refine Finset.card_image_of_injOn fun a ha b hb hkey => ?_
  exact h.eq_of_key_eq h.has_root ((h.mem_liveNodes a).mp ha) ((h.mem_liveNodes b).mp hb) hkey

theorem closed_liveKeys (h : s.Sound) : Key.Closed s.liveKeys := by
  intro a ha b hb
  obtain ⟨x, hx, rfl⟩ := h.mem_liveKeys.mp ha
  obtain ⟨y, hy, rfl⟩ := h.mem_liveKeys.mp hb
  exact h.mem_liveKeys.mpr (h.exists_live_commonPrefix hx hy)

/-! ### Heights -/

/-- The key of a node above another ends where the segment of that begins, or before. -/
theorem length_key_le_offset (h : s.Sound) (hid : s.Has id) (hbelow : s.Below id other)
    (hne : id ≠ other) : (s.key id).length ≤ (s.node other).segment.offset := by
  rcases Relation.ReflTransGen.cases_tail hbelow with heq | ⟨parent, hsteps, hstep⟩
  · exact absurd heq.symm hne
  · obtain ⟨byte, hlead⟩ := h.exists_leads (h.has_below hid hsteps) hstep
    rw [hlead.offset]
    exact (h.key_isPrefix_of_below hid hsteps).length_le

/-- The beginnings of a branch's key are those of the node's key, and itself. -/
theorem filter_liveKeys_child (h : s.Sound) (hlive : s.Live id) (hchild : s.Branch id child) :
    s.liveKeys.filter (· <+: s.key child) =
      Insert.insert (s.key child) (s.liveKeys.filter (· <+: s.key id)) := by
  obtain ⟨byte, hlead⟩ := h.exists_leads (h.has_live hlive) hchild
  have hlive' := hlive.tail hchild
  ext key
  rw [Finset.mem_insert, Finset.mem_filter, Finset.mem_filter]
  constructor
  · rintro ⟨hmem, hbegins⟩
    obtain ⟨above, habove, rfl⟩ := h.mem_liveKeys.mp hmem
    by_cases heq : above = child
    · exact Or.inl (heq ▸ rfl)
    · have hle := h.length_key_le_offset (h.has_live habove)
        (h.below_of_isPrefix habove hlive' hbegins) heq
      rw [hlead.offset] at hle
      exact Or.inr ⟨hmem, List.prefix_of_prefix_length_le hbegins hlead.isPrefix hle⟩
  · rintro (rfl | ⟨hmem, hbegins⟩)
    · exact ⟨h.key_mem_liveKeys hlive', List.prefix_refl _⟩
    · exact ⟨hmem, hbegins.trans hlead.isPrefix⟩

theorem depth_child (h : s.Sound) (hlive : s.Live id) (hchild : s.Branch id child) :
    Key.depth s.liveKeys (s.key child) = Key.depth s.liveKeys (s.key id) + 1 := by
  obtain ⟨byte, hlead⟩ := h.exists_leads (h.has_live hlive) hchild
  have hnew : s.key child ∉ s.liveKeys.filter (· <+: s.key id) := fun hmem =>
    Nat.not_lt.mpr (Finset.mem_filter.mp hmem).2.length_le hlead.length_lt
  rw [Key.depth, h.filter_liveKeys_child hlive hchild, Finset.card_insert_of_notMem hnew, Key.depth]

theorem depth_root (h : s.Sound) : Key.depth s.liveKeys (s.key s.root) = 1 := by
  rw [h.key_root, Key.depth, Finset.card_eq_one]
  refine ⟨[], ?_⟩
  ext key
  rw [Finset.mem_filter, Finset.mem_singleton, List.prefix_nil]
  exact ⟨And.right, fun hnil => ⟨hnil ▸ h.nil_mem_liveKeys, hnil⟩⟩

/-- A node stands as high as its key has beginnings among the keys of live nodes. -/
theorem height_eq_depth (h : s.Sound) (hlive : s.Live id) {height depth : Nat}
    (hheight : height = Key.depth s.liveKeys (s.key id)) {node : NodeId × Nat}
    (hnode : node ∈ s.preorderTo height id depth) :
    node.2 = Key.depth s.liveKeys (s.key node.1) := by
  induction depth generalizing id height with
  | zero => cases hnode
  | succ depth ih =>
    rcases List.mem_cons.mp hnode with rfl | hbelow
    · exact hheight
    · obtain ⟨child, hchild, hnode⟩ := List.mem_flatMap.mp hbelow
      refine ih (hlive.tail hchild) ?_ hnode
      rw [h.depth_child hlive hchild, hheight]

theorem forall_height_le_iff (h : s.Sound) {bound : Nat} :
    (∀ node ∈ s.preorder s.root, node.2 ≤ bound) ↔
      s.liveKeys.sup (Key.depth s.liveKeys) ≤ bound := by
  have hdepth : ∀ node ∈ s.preorder s.root, node.2 = Key.depth s.liveKeys (s.key node.1) :=
    fun node hnode => h.height_eq_depth Relation.ReflTransGen.refl h.depth_root.symm hnode
  rw [Finset.sup_le_iff]
  constructor
  · intro hle key hkey
    obtain ⟨id, hlive, rfl⟩ := h.mem_liveKeys.mp hkey
    obtain ⟨node, hnode, rfl⟩ := List.mem_map.mp ((h.mem_nodesBelow h.has_root).mpr hlive)
    exact hdepth node hnode ▸ hle node hnode
  · intro hle node hnode
    have hlive := (h.mem_nodesBelow h.has_root).mp (List.mem_map_of_mem hnode)
    exact hdepth node hnode ▸ hle _ (h.key_mem_liveKeys hlive)

/-! ### Departures -/

/-- No live node ends inside the segment of another. -/
theorem notMem_liveKeys (h : s.Sound) (hlive : s.Live id) (hbegins : key <+: s.key id)
    (hbegun : (s.node id).segment.offset < key.length) (hinside : key.length < (s.key id).length) :
    key ∉ s.liveKeys := by
  intro hmem
  obtain ⟨above, habove, rfl⟩ := h.mem_liveKeys.mp hmem
  have hne : above ≠ id := by
    rintro rfl
    exact Nat.lt_irrefl _ hinside
  have := h.length_key_le_offset (h.has_live habove) (h.below_of_isPrefix habove hlive hbegins) hne
  omega

/-- Where a key parts from a segment there is no node, and so that is its stem. -/
theorem stem_eq_of_partsInside (h : s.Sound) (hlive : s.Live id) (hparts : s.PartsInside key id)
    (hdeparts : Key.Departs s.liveKeys key stem) :
    Key.commonPrefix key (s.key id) = stem ∧ stem ∉ s.liveKeys := by
  have hlength : (s.key id).length = (s.node id).segment.stop := h.length_key (h.has_live hlive)
  have hnone := h.notMem_liveKeys hlive (Key.commonPrefix_isPrefix_right key _) hparts.begun
    (hlength ▸ hparts.inside)
  have heq := (hdeparts.eq_or_mem h.closed_liveKeys (h.key_mem_liveKeys hlive)).resolve_right hnone
  exact ⟨heq, heq ▸ hnone⟩

/-- A descent along a stem at which there is no node ends inside a segment. -/
theorem exists_partsInside (h : s.Sound) (hdeparts : Key.Departs s.liveKeys key stem)
    (hnone : stem ∉ s.liveKeys) (hne : stem ≠ key) : ∃ id, s.Live id ∧ s.PartsInside key id := by
  obtain ⟨_, hmem, hcommon⟩ := hdeparts.common
  obtain ⟨nearest, hnearest, rfl⟩ := h.mem_liveKeys.mp hmem
  obtain ⟨stop, -, hstops, hcovers⟩ := h.trace stem
  obtain ⟨place, matched, rfl, hbelow⟩ := hcovers nearest hnearest
    (hcommon ▸ Key.commonPrefix_isPrefix_right key _)
  cases hstops with
  | ended hplaced hle hbegun hread =>
    have hlive := hplaced.live h
    have hid := h.has_live hlive
    have hstop : matched ≠ (s.node place.node).segment.length := by
      rintro rfl
      rw [h.read_length hid] at hread
      exact hnone (hread ▸ h.key_mem_liveKeys hlive)
    have hsize : stem.length = (s.node place.node).segment.offset + matched :=
      hread ▸ h.length_read hid hle
    have hbegins : stem <+: s.key place.node := hread ▸ s.read_isPrefix _ _
    have hat : Key.commonPrefix key (s.key place.node) = stem :=
      ((Key.isPrefix_commonPrefix hdeparts.isPrefix hbegins).eq_of_length_le
        (hdeparts.longest _ (h.key_mem_liveKeys hlive))).symm
    refine ⟨place.node, hlive, ?_, ?_, ?_⟩
    · rw [hat]
      omega
    · rw [hat, Segment.stop]
      omega
    · rw [hat]
      exact Nat.lt_of_le_of_ne hdeparts.isPrefix.length_le fun heq =>
        hne (hdeparts.isPrefix.eq_of_length heq)

/-- A stem at which there is no node is inside the segment of one. -/
theorem exists_partsInside_iff (h : s.Sound) (hdeparts : Key.Departs s.liveKeys key stem) :
    (∃ id, s.Live id ∧ s.PartsInside key id) ↔ stem ∉ s.liveKeys ∧ stem ≠ key := by
  constructor
  · rintro ⟨id, hlive, hparts⟩
    obtain ⟨rfl, hnone⟩ := h.stem_eq_of_partsInside hlive hparts hdeparts
    exact ⟨hnone, fun hself => Nat.ne_of_lt hparts.left (congrArg List.length hself)⟩
  · exact fun ⟨hnone, hne⟩ => h.exists_partsInside hdeparts hnone hne

/-! ### Branches -/

/-- A node has a branch for each byte with which a live key goes on behind its own. -/
theorem mem_bytes_iff (h : s.Sound) (hlive : s.Live id) {byte : UInt8} :
    byte ∈ (s.entriesAt id).map Prod.fst ↔ ∃ key ∈ s.liveKeys, s.key id ++ [byte] <+: key := by
  have hid := h.has_live hlive
  constructor
  · intro hbyte
    obtain ⟨entry, hentry, rfl⟩ := List.mem_map.mp hbyte
    have hchild := hlive.tail (branch_of_mem_entriesAt hentry)
    exact ⟨_, h.key_mem_liveKeys hchild, (h.leads_of_mem_entriesAt hid hentry).begins⟩
  · rintro ⟨key, hkey, hbegins⟩
    obtain ⟨other, hother, rfl⟩ := h.mem_liveKeys.mp hkey
    have hbelow := h.below_of_isPrefix hlive hother ((List.prefix_append _ _).trans hbegins)
    obtain ⟨child, hchild, hlead, -⟩ := h.exists_branch_of_isPrefix hid hbelow hbegins
    rw [Branch, children_eq_map_entriesAt] at hchild
    obtain ⟨entry, hentry, rfl⟩ := List.mem_map.mp hchild
    have hbyte := Key.byte_eq_of_isPrefix (h.leads_of_mem_entriesAt hid hentry).begins hlead.begins
    exact hbyte ▸ List.mem_map_of_mem hentry

/-- Where there are more keys, a node with the same key has no fewer branches. -/
theorem length_entriesAt_le (h : s.Sound) (h' : s'.Sound) (hkeys : s.liveKeys ⊆ s'.liveKeys)
    (hlive : s.Live id) (hlive' : s'.Live other) (hkey : s'.key other = s.key id) :
    (s.entriesAt id).length ≤ (s'.entriesAt other).length := by
  have hnodup : ((s.entriesAt id).map Prod.fst).Nodup :=
    (h.ascending_entriesAt (h.has_live hlive)).imp UInt8.ne_of_lt
  have hsub : (s.entriesAt id).map Prod.fst ⊆ (s'.entriesAt other).map Prod.fst := by
    intro byte hbyte
    obtain ⟨key, hmem, hbegins⟩ := (h.mem_bytes_iff hlive).mp hbyte
    exact (h'.mem_bytes_iff hlive').mpr ⟨key, hkeys hmem, hkey ▸ hbegins⟩
  have hle := (hnodup.subperm hsub).length_le
  rwa [List.length_map, List.length_map] at hle

end Sound

end Store

end ByteTrie
