import ByteTrie.Proofs.Sizing
import ByteTrie.Proofs.Store.Growth
import ByteTrie.Store.Insertion

/-!
# What an insertion builds

Where a descent has stopped, all that an insertion builds can be built: there is
room for one more branch, the segment can be cut where it was left, and a
sibling begins with another byte than the rest of the cut node. The store only
grows meanwhile. What is built prolongs the same key by the same byte as the
node in whose place it is to come.
-/

namespace ByteTrie

/-- A node for the end of a key, from `depth` on. -/
def Node.leaf {V : Type} (buffer : Nat) (key : Key) (depth : Nat) (value : V) : Node V :=
  ⟨⟨⟨buffer, key.toArray⟩, depth, key.length - depth⟩, some value, none⟩

/-- The part of a node behind the first `cut` bytes of its segment. -/
def Node.lower {V : Type} (node : Node V) (cut : Nat) : Node V :=
  { node with
    segment :=
      { node.segment with
        offset := node.segment.offset + cut
        length := node.segment.length - cut } }

/-- A node for the first `cut` bytes of a segment. -/
def Node.upper {V : Type} (node : Node V) (cut : Nat) (value : Option V) (row : RowId) : Node V :=
  ⟨{ node.segment with length := cut }, value, some row⟩

namespace Store

variable {V : Type} {s : Store V}

/-- The branches of a cut node in the order of their bytes. -/
def beside (lower : UInt8 × NodeId) : Option (UInt8 × NodeId) → List (UInt8 × NodeId)
  | none => [lower]
  | some other => if other.1 < lower.1 then [other, lower] else [lower, other]

theorem mem_beside {lower entry : UInt8 × NodeId} {sibling : Option (UInt8 × NodeId)} :
    entry ∈ beside lower sibling ↔ entry = lower ∨ sibling = some entry := by
  cases sibling with
  | none => simp [beside]
  | some other =>
    rw [beside, Option.some.injEq, eq_comm (a := other)]
    split
    · simp [or_comm]
    · simp

theorem length_beside_le (lower : UInt8 × NodeId) (sibling : Option (UInt8 × NodeId)) :
    (beside lower sibling).length ≤ 2 := by
  cases sibling with
  | none => exact Nat.le_succ 1
  | some other =>
    rw [beside]
    split <;> exact Nat.le_refl 2

theorem ascending_beside {lower : UInt8 × NodeId} {sibling : Option (UInt8 × NodeId)}
    (h : ∀ other ∈ sibling, other.1 ≠ lower.1) :
    ((beside lower sibling).map Prod.fst).Pairwise (· < ·) := by
  cases sibling with
  | none => exact List.pairwise_singleton _ _
  | some other =>
    rw [beside]
    split
    · rename_i hlt
      simpa using hlt
    · rename_i hnlt
      have hle : lower.1 ≤ other.1 := UInt8.not_lt.mp hnlt
      simpa using UInt8.lt_of_le_of_ne hle (h other rfl).symm

theorem siblings_eq {byte : UInt8} {lower : NodeId} {sibling : Option (UInt8 × NodeId)}
    (hfirst : ∀ other ∈ sibling, (s.node other.2).segment.get? 0 = some other.1)
    (hne : ∀ other ∈ sibling, other.1 ≠ byte) :
    s.siblings byte lower (sibling.map Prod.snd) = .ok (beside (byte, lower) sibling) := by
  cases sibling with
  | none => rfl
  | some other =>
    have hget : (s.node other.2).segment.get 0 = .ok other.1 := by
      rw [Segment.get, hfirst other rfl]
    rw [Option.map_some, siblings, hget, beside]
    simp only [bind, Except.bind]
    cases hcmp : compare other.1 byte with
    | lt => rw [if_pos (Std.compare_eq_lt.mp hcmp)]
    | eq => exact absurd (Std.LawfulEqCmp.compare_eq_iff_eq.mp hcmp) (hne other rfl)
    | gt => rw [if_neg (UInt8.lt_asymm (Std.compare_eq_gt.mp hcmp))]

/-- Only a node that was made has bytes. -/
theorem has_of_get? {id : NodeId} {index : Nat} {byte : UInt8}
    (h : (s.node id).segment.get? index = some byte) : s.Has id := by
  by_contra hid
  rw [node_of_not_has hid] at h
  exact absurd (Segment.lt_length_of_get? h) (Nat.not_lt_zero index)

theorem Leads.get?_zero {path : Key} {byte : UInt8} {id : NodeId} (h : s.Leads path byte id) :
    (s.node id).segment.get? 0 = some byte := by
  obtain ⟨rest, hrest⟩ := h.begins
  rw [Segment.get?_eq_getElem?_key, ← key, ← hrest, h.offset]
  simp

theorem Leads.get_zero {path : Key} {byte : UInt8} {id : NodeId} (h : s.Leads path byte id) :
    (s.node id).segment.get 0 = .ok byte := by
  rw [Segment.get, h.get?_zero]

theorem Leads.head?_bytes {path : Key} {byte : UInt8} {id : NodeId} (h : s.Leads path byte id) :
    (s.node id).segment.bytes.head? = some byte := by
  rw [List.head?_eq_getElem?, ← Segment.get?_eq, h.get?_zero]

/-! ### A leaf -/

theorem addLeaf_eq (s : Store V) {key : Key} {depth : Nat} (h : depth ≤ key.length) (value : V) :
    s.addLeaf key depth value = .ok (s.addNode (Node.leaf s.nodes.size key depth value)) := by
  have hoffset : Segment.ofOffset ⟨s.nodes.size, key.toArray⟩ depth =
      .ok ⟨⟨s.nodes.size, key.toArray⟩, depth, key.length - depth⟩ := by
    rw [Segment.ofOffset, if_pos (by simpa using h)]
    rfl
  rw [addLeaf, hoffset]
  rfl

theorem nodeSound_leaf (s : Store V) (buffer : Nat) {key : Key} {depth : Nat}
    (h : depth ≤ key.length) (value : V) : s.NodeSound (Node.leaf buffer key depth value) where
  within := by
    simp only [Segment.Within, Segment.stop, Node.leaf, List.size_toArray]
    omega
  row _ hrow := by cases hrow

theorem key_leaf (buffer : Nat) {key : Key} {depth : Nat} (h : depth ≤ key.length) (value : V) :
    (Node.leaf buffer key depth value).segment.key = key := by
  rw [Segment.key_eq]
  exact List.take_of_length_le (by simp [Node.leaf, Segment.stop]; omega)

theorem leads_leaf (s : Store V) (path : Key) (byte : UInt8) (rest : Key) (value : V) :
    (s.addNode (Node.leaf s.nodes.size (path ++ byte :: rest) path.length value)).2.Leads path byte
      ⟨s.nodes.size⟩ where
  has := s.has_addNode_self _
  offset := by
    rw [node_addNode, if_pos rfl]
    rfl
  begins := by
    rw [key, node_addNode, if_pos rfl, key_leaf _ (by simp)]
    exact ⟨rest, by simp⟩

/-! ### Cutting a node -/

/-- The store with the two parts of a cut node and the row between them. -/
def grownUpper (s : Store V) (id : NodeId) (cut : Nat) (value : Option V) (b : Branches NodeId) :
    Store V :=
  ((((s.addNode ((s.node id).lower cut)).2.addRow b).2.addNode
    ((s.node id).upper cut value ⟨s.rows.size⟩))).2

theorem grows_grownUpper (s : Store V) (id : NodeId) (cut : Nat) (value : Option V)
    (b : Branches NodeId) : s.Grows (s.grownUpper id cut value b) :=
  ((Grows.addNode s _).trans (Grows.addRow _ b)).trans (Grows.addNode _ _)

theorem node_grownUpper (s : Store V) (id : NodeId) (cut : Nat) (value : Option V)
    (b : Branches NodeId) (other : NodeId) :
    (s.grownUpper id cut value b).node other =
      if other = ⟨s.nodes.size + 1⟩ then (s.node id).upper cut value ⟨s.rows.size⟩
      else if other = ⟨s.nodes.size⟩ then (s.node id).lower cut else s.node other := by
  rw [grownUpper, node_addNode, node_addRow, node_addNode]
  simp [addNode, addRow]

theorem node_lower_grownUpper (s : Store V) (id : NodeId) (cut : Nat) (value : Option V)
    (b : Branches NodeId) :
    (s.grownUpper id cut value b).node ⟨s.nodes.size⟩ = (s.node id).lower cut := by
  simp [node_grownUpper]

theorem node_upper_grownUpper (s : Store V) (id : NodeId) (cut : Nat) (value : Option V)
    (b : Branches NodeId) : (s.grownUpper id cut value b).node ⟨s.nodes.size + 1⟩ =
      (s.node id).upper cut value ⟨s.rows.size⟩ := by
  rw [node_grownUpper, if_pos rfl]

theorem has_grownUpper (s : Store V) (id : NodeId) (cut : Nat) (value : Option V)
    (b : Branches NodeId) (other : NodeId) :
    (s.grownUpper id cut value b).Has other ↔
      s.Has other ∨ other = ⟨s.nodes.size⟩ ∨ other = ⟨s.nodes.size + 1⟩ := by
  obtain ⟨index⟩ := other
  simp only [grownUpper, Has, addNode, addRow, Array.size_push, NodeId.mk.injEq]
  omega

theorem row_grownUpper (s : Store V) (id : NodeId) (cut : Nat) (value : Option V)
    (b : Branches NodeId) (row : RowId) :
    (s.grownUpper id cut value b).row row = if row = ⟨s.rows.size⟩ then b else s.row row := by
  rw [grownUpper, row_addNode, row_addRow]
  rfl

namespace Sound

variable {id : NodeId} {cut : Nat}

theorem key_upper (hcut : cut ≤ (s.node id).segment.length) (value : Option V) (row : RowId) :
    ((s.node id).upper cut value row).segment.key = s.read id cut := by
  rw [read, key, Segment.key_eq, Segment.key_eq, List.take_take]
  congr 1
  simp only [Node.upper, Segment.stop]
  omega

theorem key_lower (hcut : cut ≤ (s.node id).segment.length) :
    ((s.node id).lower cut).segment.key = s.key id := by
  rw [key, Segment.key_eq, Segment.key_eq]
  congr 1
  simp only [Node.lower, Segment.stop]
  omega

theorem key_grownUpper (hcut : cut ≤ (s.node id).segment.length) (value : Option V)
    (b : Branches NodeId) :
    (s.grownUpper id cut value b).key ⟨s.nodes.size + 1⟩ = s.read id cut := by
  rw [key, node_grownUpper, if_pos rfl, key_upper hcut]

theorem offset_grownUpper (hid : s.Has id) (value : Option V) (b : Branches NodeId) :
    ((s.grownUpper id cut value b).node ⟨s.nodes.size + 1⟩).segment.offset =
      ((s.grownUpper id cut value b).node id).segment.offset := by
  rw [(grows_grownUpper s id cut value b).node id hid, node_grownUpper, if_pos rfl]
  rfl

/-- The first part of a cut node has the address of the node. -/
theorem address_grownUpper (hid : s.Has id) (hpos : 0 < cut)
    (hcut : cut ≤ (s.node id).segment.length) (value : Option V) (b : Branches NodeId) :
    (s.grownUpper id cut value b).address ⟨s.nodes.size + 1⟩ =
      (s.grownUpper id cut value b).address id := by
  have hgrows := grows_grownUpper s id cut value b
  rw [address, offset_grownUpper hid, key_grownUpper hcut, address, hgrows.node id hid,
    hgrows.key_eq hid, read, List.take_take]
  congr 1
  omega

/-- The rest of a cut node goes on where the first part ends. -/
theorem leads_lower (h : s.Sound) (hid : s.Has id) {byte : UInt8}
    (hbyte : (s.node id).segment.get? cut = some byte) :
    (s.addNode ((s.node id).lower cut)).2.Leads (s.read id cut) byte ⟨s.nodes.size⟩ := by
  have hle := Nat.le_of_lt (Segment.lt_length_of_get? hbyte)
  have hnode : (s.addNode ((s.node id).lower cut)).2.node ⟨s.nodes.size⟩ = (s.node id).lower cut :=
    s.node_addNode_self _
  refine ⟨s.has_addNode_self _, ?_, ?_⟩
  · rw [hnode, h.length_read hid hle]
    rfl
  · rw [key, hnode, key_lower hle, ← read_succ hbyte]
    exact s.read_isPrefix id _

/-- The two parts of a cut node are sound beside the store that they are cut in. -/
theorem grownUpper (h : s.Sound) (hid : s.Has id) {byte : UInt8}
    (hbyte : (s.node id).segment.get? cut = some byte) {sibling : Option (UInt8 × NodeId)}
    (hsibling : ∀ other ∈ sibling, s.Leads (s.read id cut) other.1 other.2) (value : Option V)
    {b : Branches NodeId} (hb : b.Sound)
    (hentries : b.entries = beside (byte, ⟨s.nodes.size⟩) sibling) :
    (s.grownUpper id cut value b).Sound := by
  have hwithin : (s.node id).segment.Within := (h.node id hid).within
  have hlt := Segment.lt_length_of_get? hbyte
  have hlower : s.NodeSound ((s.node id).lower cut) := by
    refine ⟨?_, fun row hrow => ?_⟩
    · simp only [Segment.Within, Segment.stop, Node.lower] at hwithin ⊢
      omega
    · rw [key_lower (Nat.le_of_lt hlt)]
      exact h.rowSound hid hrow
  refine ((h.addNode hlower).addRow b).addNode ⟨?_, fun row hrow => ?_⟩
  · simp only [Segment.Within, Segment.stop, Node.upper] at hwithin ⊢
    omega
  · obtain rfl : (⟨s.rows.size⟩ : RowId) = row := Option.some.inj hrow
    rw [key_upper (Nat.le_of_lt hlt)]
    have hinhabited : b.entries ≠ [] := by
      rw [hentries]
      exact List.ne_nil_of_mem (mem_beside.mpr (Or.inl rfl))
    refine rowSound_addRow hb hinhabited fun entry hentry => (Grows.addRow _ b).leads ?_
    rw [hentries] at hentry
    rcases mem_beside.mp hentry with rfl | hother
    · exact h.leads_lower hid hbyte
    · exact (Grows.addNode s _).leads (hsibling entry hother)

end Sound

/-- A node can be cut inside its segment, beside a sibling that begins with
another byte. -/
theorem addUpper_eq (sizing : Sizing) {id : NodeId} {cut : Nat} (hpos : 0 < cut) {byte : UInt8}
    (hbyte : (s.node id).segment.get? cut = some byte) {sibling : Option (UInt8 × NodeId)}
    (hfirst : ∀ other ∈ sibling, (s.node other.2).segment.get? 0 = some other.1)
    (hne : ∀ other ∈ sibling, other.1 ≠ byte) (value : Option V) :
    ∃ b : Branches NodeId, b.Sound ∧ b.entries = beside (byte, ⟨s.nodes.size⟩) sibling ∧
      sizing.capacity b.count = .ok b.capacity ∧
      s.addUpper sizing id cut value (sibling.map Prod.snd) =
        .ok (⟨s.nodes.size + 1⟩, s.grownUpper id cut value b) := by
  have hlt := Segment.lt_length_of_get? hbyte
  have hdrop : (s.node id).segment.drop cut = .ok ((s.node id).lower cut).segment := by
    rw [Segment.drop, if_pos (Nat.le_of_lt hlt)]
    rfl
  have htake : (s.node id).segment.take cut = .ok { (s.node id).segment with length := cut } := by
    rw [Segment.take, if_pos (Nat.le_of_lt hlt)]
  have hrest : ((s.node id).lower cut).segment.get 0 = .ok byte := by
    rw [Segment.get, Segment.get?_eq_getElem?_key, Sound.key_lower (Nat.le_of_lt hlt)]
    rw [Segment.get?_eq_getElem?_key, ← key] at hbyte
    simp only [Node.lower, Nat.add_zero, hbyte]
  have hsiblings : (s.addNode ((s.node id).lower cut)).2.siblings byte ⟨s.nodes.size⟩
      (sibling.map Prod.snd) = .ok (beside (byte, ⟨s.nodes.size⟩) sibling) := by
    refine siblings_eq (fun other hother => ?_) hne
    rw [node_addNode_of_lt s _ (has_of_get? (hfirst other hother)), hfirst other hother]
  have hlength := length_beside_le (byte, ⟨s.nodes.size⟩) sibling
  obtain ⟨capacity, hcapacity, hroom⟩ :=
    sizing.exists_capacity (Nat.le_trans hlength (show 2 ≤ maxBranches by decide))
  obtain ⟨b, hb⟩ := (Branches.ofEntries_eq_ok_iff _ capacity).mpr ⟨hroom, ascending_beside hne⟩
  obtain ⟨hsound, hentries⟩ := Branches.sound_of_ofEntries hb
  refine ⟨b, hsound, hentries, ?_, ?_⟩
  · rw [← hsound.length_entries, hentries, hcapacity, Branches.capacity_of_ofEntries hb]
  · rw [addUpper]
    simp only [if_pos (And.intro hpos hlt), hdrop, htake, bind, Except.bind, pure, Except.pure,
      hrest]
    have hlower : (⟨((s.node id).lower cut).segment, (s.node id).value, (s.node id).row⟩ : Node V) =
        (s.node id).lower cut := rfl
    have hnumber : (s.addNode ((s.node id).lower cut)).1 = ⟨s.nodes.size⟩ := rfl
    rw [hlower, hnumber, hsiblings]
    simp only [hcapacity, hb]
    exact congrArg Except.ok (Prod.ext (by simp [addNode, addRow]) rfl)

/-- What comes of cutting a node is sound when a sibling prolongs what is read up to the cut. -/
theorem Sound.addUpper (h : s.Sound) (sizing : Sizing) {id : NodeId} (hid : s.Has id) {cut : Nat}
    (hpos : 0 < cut) {byte : UInt8} (hbyte : (s.node id).segment.get? cut = some byte)
    {sibling : Option (UInt8 × NodeId)}
    (hsibling : ∀ other ∈ sibling, s.Leads (s.read id cut) other.1 other.2)
    (hne : ∀ other ∈ sibling, other.1 ≠ byte) (value : Option V) :
    ∃ b : Branches NodeId, b.Sound ∧ b.entries = beside (byte, ⟨s.nodes.size⟩) sibling ∧
      sizing.capacity b.count = .ok b.capacity ∧
      s.addUpper sizing id cut value (sibling.map Prod.snd) =
        .ok (⟨s.nodes.size + 1⟩, s.grownUpper id cut value b) ∧
      (s.grownUpper id cut value b).Sound := by
  obtain ⟨b, hb, hentries, hcapacity, hadd⟩ := addUpper_eq sizing hpos hbyte
    (fun other hother => (hsibling other hother).get?_zero) hne value
  exact ⟨b, hb, hentries, hcapacity, hadd, h.grownUpper hid hbyte hsibling value hb hentries⟩

/-! ### One more branch -/

/-- The branches of a node, each with its byte. -/
def entriesAt (s : Store V) (id : NodeId) : List (UInt8 × NodeId) :=
  (s.branches? id).elim [] Branches.entries

theorem children_eq_map_entriesAt (s : Store V) (id : NodeId) :
    s.children id = (s.entriesAt id).map Prod.snd := by
  rw [children, entriesAt]
  cases s.branches? id <;> rfl

theorem entriesAt_of_row_none {id : NodeId} (h : (s.node id).row = none) : s.entriesAt id = [] := by
  simp [entriesAt, branches?, h]

theorem entriesAt_of_row_some {id : NodeId} {row : RowId} (h : (s.node id).row = some row) :
    s.entriesAt id = (s.row row).entries := by
  simp [entriesAt, branches?, h]

theorem entriesAt_upper_grownUpper (s : Store V) (id : NodeId) (cut : Nat) (value : Option V)
    (b : Branches NodeId) :
    (s.grownUpper id cut value b).entriesAt ⟨s.nodes.size + 1⟩ = b.entries := by
  rw [entriesAt_of_row_some (by rw [node_upper_grownUpper]; rfl), row_grownUpper, if_pos rfl]

theorem appended?_eq_some {id child : NodeId} {index : Nat} {byte : UInt8} {row : RowId}
    {changed : Branches NodeId} (h : s.appended? id index byte child = some (row, changed)) :
    (s.node id).row = some row ∧ (s.row row).push? byte child = some changed := by
  simp only [appended?, bind, Option.bind_eq_some_iff] at h
  obtain ⟨row', hrow, h⟩ := h
  split at h
  · obtain ⟨changed', hpush, h⟩ := Option.bind_eq_some_iff.mp h
    obtain ⟨rfl, rfl⟩ := Prod.mk.inj (Option.some.inj h)
    exact ⟨hrow, hpush⟩
  · cases h

/-- The store with a new row beside the old ones, and with a new node that is like
an old one but has that row. -/
def grownWidened (s : Store V) (id : NodeId) (b : Branches NodeId) : Store V :=
  ((s.addRow b).2.addNode { s.node id with row := some ⟨s.rows.size⟩ }).2

theorem grows_grownWidened (s : Store V) (id : NodeId) (b : Branches NodeId) :
    s.Grows (s.grownWidened id b) :=
  (Grows.addRow s b).trans (Grows.addNode _ _)

theorem has_grownWidened (s : Store V) (id : NodeId) (b : Branches NodeId) :
    (s.grownWidened id b).Has ⟨s.nodes.size⟩ :=
  has_addNode_self _ _

theorem node_grownWidened (s : Store V) (id : NodeId) (b : Branches NodeId) :
    (s.grownWidened id b).node ⟨s.nodes.size⟩ = { s.node id with row := some ⟨s.rows.size⟩ } := by
  rw [grownWidened, node_addNode]
  exact if_pos rfl

theorem entriesAt_grownWidened (s : Store V) (id : NodeId) (b : Branches NodeId) :
    (s.grownWidened id b).entriesAt ⟨s.nodes.size⟩ = b.entries := by
  have hrow : (s.grownWidened id b).row ⟨s.rows.size⟩ = b := row_addRow_self s b
  rw [entriesAt_of_row_some (by rw [node_grownWidened]), hrow]

namespace Sound

variable {id child : NodeId} {index : Nat} {byte : UInt8}

theorem leads_of_mem_entriesAt (h : s.Sound) (hid : s.Has id) {entry : UInt8 × NodeId}
    (hentry : entry ∈ s.entriesAt id) : s.Leads (s.key id) entry.1 entry.2 := by
  cases hrow : (s.node id).row with
  | none =>
    rw [entriesAt_of_row_none hrow] at hentry
    cases hentry
  | some row =>
    rw [entriesAt_of_row_some hrow] at hentry
    exact (h.rowSound hid hrow).leads entry hentry

theorem segment_grownWidened (hid : s.Has id) (b : Branches NodeId) :
    ((s.grownWidened id b).node ⟨s.nodes.size⟩).segment =
      ((s.grownWidened id b).node id).segment := by
  rw [(grows_grownWidened s id b).node id hid, node_grownWidened]

theorem grownWidened (h : s.Sound) (hid : s.Has id) (hlead : s.Leads (s.key id) byte child)
    {b : Branches NodeId} (hb : b.Sound)
    (hentries : b.entries =
      (s.entriesAt id).take index ++ (byte, child) :: (s.entriesAt id).drop index) :
    (s.grownWidened id b).Sound := by
  refine (h.addRow b).addNode ⟨(h.node id hid).within, fun row hrow => ?_⟩
  obtain rfl : (⟨s.rows.size⟩ : RowId) = row := Option.some.inj hrow
  have hinhabited : b.entries ≠ [] := by
    rw [hentries]
    exact List.ne_nil_of_mem (List.mem_append_right _ List.mem_cons_self)
  refine rowSound_addRow hb hinhabited fun entry hentry => (Grows.addRow s b).leads ?_
  rw [hentries, List.mem_append, List.mem_cons] at hentry
  rcases hentry with hmem | rfl | hmem
  · exact h.leads_of_mem_entriesAt hid (List.mem_of_mem_take hmem)
  · exact hlead
  · exact h.leads_of_mem_entriesAt hid (List.mem_of_mem_drop hmem)

end Sound

/-- A node that has no branch for a byte has room for one. -/
theorem addWidened_eq (sizing : Sizing) {id : NodeId} {index : Nat} {byte : UInt8}
    (hold : ∀ row, (s.node id).row = some row → (s.row row).Sound)
    (hlocate : s.locate id byte = .ok (.absent index)) (child : NodeId) :
    ∃ b : Branches NodeId, b.Sound ∧
      b.entries = (s.entriesAt id).take index ++ (byte, child) :: (s.entriesAt id).drop index ∧
      sizing.capacity b.count = .ok b.capacity ∧
      s.addWidened sizing id index byte child = .ok (⟨s.nodes.size⟩, s.grownWidened id b) := by
  cases hrow : (s.node id).row with
  | none =>
    have hbranches : s.branches? id = none := by simp [branches?, hrow]
    have hat := entriesAt_of_row_none hrow
    obtain ⟨capacity, hcapacity, hroom⟩ := sizing.exists_capacity (show 1 ≤ maxBranches by decide)
    obtain ⟨b, hb⟩ := (Branches.ofEntries_eq_ok_iff [(byte, child)] capacity).mpr
      ⟨hroom, List.pairwise_singleton _ _⟩
    obtain ⟨hsound, hentries⟩ := Branches.sound_of_ofEntries hb
    refine ⟨b, hsound, by simp [hentries, hat], ?_, ?_⟩
    · rw [← hsound.length_entries, hentries, Branches.capacity_of_ofEntries hb]
      exact hcapacity
    · have hneed : sizing.capacity (s.degree id + 1) = .ok capacity := by
        simpa [degree, hbranches] using hcapacity
      rw [addWidened, hneed, hbranches]
      simp only [bind, Except.bind, hb]
      rfl
  | some row =>
    have hbranches : s.branches? id = some (s.row row) := by simp [branches?, hrow]
    have hat := entriesAt_of_row_some hrow
    obtain ⟨position, hposition, hplace⟩ := (hold row hrow).locate byte
    obtain rfl : position = .absent index := by
      rw [locate, hbranches] at hlocate
      exact Except.ok.inj (hposition.symm.trans hlocate)
    obtain ⟨capacity, hcapacity, hroom⟩ := sizing.exists_capacity
      (show (s.row row).count + 1 ≤ maxBranches from (hold row hrow).count_lt child hplace)
    obtain ⟨b, hb, hsound, hsize, hentries⟩ := (hold row hrow).insertIdx child hplace hroom
    rw [← hat] at hentries
    refine ⟨b, hsound, hentries, ?_, ?_⟩
    · rw [← hsound.length_entries, hentries, hat, (hold row hrow).length_insertIdx, hsize]
      exact hcapacity
    · have hneed : sizing.capacity (s.degree id + 1) = .ok capacity := by
        simpa [degree, hbranches] using hcapacity
      rw [addWidened, hneed, hbranches]
      simp only [bind, Except.bind, hb]
      rfl

theorem Sound.addWidened (h : s.Sound) (sizing : Sizing) {id child : NodeId} (hid : s.Has id)
    {index : Nat} {byte : UInt8} (hlocate : s.locate id byte = .ok (.absent index))
    (hlead : s.Leads (s.key id) byte child) :
    ∃ b : Branches NodeId, b.Sound ∧
      b.entries = (s.entriesAt id).take index ++ (byte, child) :: (s.entriesAt id).drop index ∧
      sizing.capacity b.count = .ok b.capacity ∧
      s.addWidened sizing id index byte child = .ok (⟨s.nodes.size⟩, s.grownWidened id b) ∧
      (s.grownWidened id b).Sound := by
  obtain ⟨b, hb, hentries, hcapacity, hadd⟩ :=
    addWidened_eq sizing (fun _ hrow => (h.rowSound hid hrow).sound) hlocate child
  exact ⟨b, hb, hentries, hcapacity, hadd, h.grownWidened hid hlead hb hentries⟩

end Store

end ByteTrie
