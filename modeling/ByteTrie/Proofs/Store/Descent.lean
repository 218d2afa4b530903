import ByteTrie.Proofs.Store.Listing
import ByteTrie.Store.Descent

/-!
# Where a descent stops

The bytes that a descent has read are the beginning of the key of the node that
it is at. It stops where nothing else can be read, so what it leaves behind on
the way down starts with no extension of the key that it looks for. This makes
it a look-up in the list of what the root lists, and a search for the one node
at and below which all keys with a given beginning are.
-/

namespace ByteTrie

namespace Segment

theorem get?_eq_getElem?_key (segment : Segment) (index : Nat) :
    segment.get? index = segment.key[segment.offset + index]? := by
  rw [get?, key_eq, List.getElem?_take, Array.getElem?_toList, stop]
  simp

theorem bytes_eq_drop_key (segment : Segment) :
    segment.bytes = segment.key.drop segment.offset := by
  rw [bytes_eq, key_eq, List.drop_take, stop, Nat.add_sub_cancel_left]

theorem lt_length_of_get? {segment : Segment} {index : Nat} {byte : UInt8}
    (h : segment.get? index = some byte) : index < segment.length := by
  rw [get?, Option.ite_none_right_eq_some] at h
  exact h.1

theorem exists_get? {segment : Segment} (h : segment.Within) {index : Nat}
    (hindex : index < segment.length) : ∃ byte, segment.get? index = some byte := by
  rw [← length_bytes h] at hindex
  exact ⟨segment.bytes[index], by rw [get?_eq, List.getElem?_eq_getElem hindex]⟩

end Segment

namespace Store

variable {V : Type} {s : Store V}

/-- A place that a way down from the root comes to. -/
inductive Placed (s : Store V) : Place → Prop
  | root : Placed s s.rootPlace
  | branch {place : Place} {row : RowId} {index : Nat} {child : NodeId} (above : Placed s place)
      (owner : (s.node place.node).row = some row) (held : (s.row row).get? index = some child) :
      Placed s ⟨.branch row index, child⟩

/-- What is read of a key `matched` bytes into the segment of a node. -/
def read (s : Store V) (id : NodeId) (matched : Nat) : Key :=
  (s.key id).take ((s.node id).segment.offset + matched)

/-- A descent along a key stops here for good reason. -/
inductive StopsAt (s : Store V) (key : Key) : Stop → Prop
  | ended {place : Place} {matched : Nat} (placed : s.Placed place)
      (le : matched ≤ (s.node place.node).segment.length)
      (begun : 0 < matched ∨ (s.node place.node).segment.length = 0)
      (reads : s.read place.node matched = key) : StopsAt s key (.ended place matched)
  | diverged {place : Place} {matched : Nat} {byte expected : UInt8} {rest : Key}
      (placed : s.Placed place) (begun : 0 < matched)
      (lt : matched < (s.node place.node).segment.length)
      (reads : s.read place.node matched ++ byte :: rest = key)
      (expects : (s.node place.node).segment.get? matched = some expected)
      (differs : expected ≠ byte) : StopsAt s key (.diverged place matched (byte :: rest))
  | branchless {place : Place} {index : Nat} {byte : UInt8} {rest : Key} (placed : s.Placed place)
      (reads : s.key place.node ++ byte :: rest = key)
      (absent : s.locate place.node byte = .ok (.absent index)) :
      StopsAt s key (.branchless place index (byte :: rest))

/-- A stop at the end of a key stands above a node. -/
def Covers (s : Store V) (stop : Stop) (id : NodeId) : Prop :=
  ∃ place matched, stop = .ended place matched ∧ s.Below place.node id

theorem Placed.live {place : Place} (h : s.Placed place) (hs : s.Sound) : s.Live place.node := by
  induction h with
  | root => exact Relation.ReflTransGen.refl
  | branch _ howner hheld ih =>
    have hsound := hs.rowSound (hs.has_live ih) howner
    rw [hsound.sound.get?_eq, Option.map_eq_some_iff] at hheld
    obtain ⟨⟨byte, child⟩, hentry, rfl⟩ := hheld
    exact ih.tail (mem_children.mpr ⟨_, howner, byte, List.mem_of_getElem? hentry⟩)

/-- A slot that a way down goes through is in a live row. -/
theorem Placed.liveRow {row : RowId} {index : Nat} {child : NodeId}
    (h : s.Placed ⟨.branch row index, child⟩) (hs : s.Sound) : s.LiveRow row := by
  cases h with
  | branch above owner _ => exact ⟨_, above.live hs, owner⟩

/-- The next byte of a segment is read behind what was read before. -/
theorem read_succ {id : NodeId} {matched : Nat} {byte : UInt8}
    (h : (s.node id).segment.get? matched = some byte) :
    s.read id (matched + 1) = s.read id matched ++ [byte] := by
  rw [Segment.get?_eq_getElem?_key, ← key] at h
  rw [read, ← Nat.add_assoc, List.take_add_one, h, Option.toList_some, read]

theorem read_isPrefix (s : Store V) (id : NodeId) (matched : Nat) :
    s.read id matched <+: s.key id :=
  List.take_prefix _ _

/-- A branch is entered with its first byte read. -/
theorem Leads.read_one {path : Key} {byte : UInt8} {id : NodeId} (h : s.Leads path byte id) :
    s.read id 1 = path ++ [byte] :=
  h.address_eq

namespace Sound

variable {id : NodeId} {byte : UInt8}

theorem length_key (h : s.Sound) (hid : s.Has id) :
    (s.key id).length = (s.node id).segment.offset + (s.node id).segment.length :=
  Segment.length_key (h.node id hid).within

theorem read_length (h : s.Sound) (hid : s.Has id) :
    s.read id (s.node id).segment.length = s.key id :=
  List.take_of_length_le (Nat.le_of_eq (h.length_key hid))

theorem length_read (h : s.Sound) (hid : s.Has id) {matched : Nat}
    (hle : matched ≤ (s.node id).segment.length) :
    (s.read id matched).length = (s.node id).segment.offset + matched := by
  rw [read, List.length_take, h.length_key hid]
  omega

theorem exists_get? (h : s.Sound) (hid : s.Has id) {matched : Nat}
    (hlt : matched < (s.node id).segment.length) :
    ∃ byte, (s.node id).segment.get? matched = some byte :=
  Segment.exists_get? (h.node id hid).within hlt

theorem length_pos (h : s.Sound) {path : Key} (hlead : s.Leads path byte id) :
    0 < (s.node id).segment.length := by
  have hlt := hlead.length_lt
  rw [h.length_key hlead.has, hlead.offset] at hlt
  omega

theorem length_root (h : s.Sound) : (s.node s.root).segment.length = 0 := by
  have hlength := h.length_key h.has_root
  rw [h.key_root, List.length_nil] at hlength
  omega

theorem offset_root (h : s.Sound) : (s.node s.root).segment.offset = 0 := by
  have hlength := h.length_key h.has_root
  rw [h.key_root, List.length_nil] at hlength
  omega

/-- A node has one branch for a byte, or none. -/
theorem locate (h : s.Sound) (hid : s.Has id) (byte : UInt8) :
    (∃ index, s.locate id byte = .ok (.absent index) ∧
      ∀ child, s.Branch id child → ¬s.Leads (s.key id) byte child) ∨
    ∃ index row child, s.locate id byte = .ok (.found index) ∧ (s.node id).row = some row ∧
      (s.row row).entries[index]? = some (byte, child) := by
  cases hrow : (s.node id).row with
  | none =>
    refine Or.inl ⟨0, by simp [Store.locate, branches?, hrow], fun child hchild => ?_⟩
    rw [Branch, children_of_row_none hrow] at hchild
    cases hchild
  | some row =>
    have hsound := h.rowSound hid hrow
    obtain ⟨position, hlocate, hposition⟩ := hsound.sound.locate byte
    have heq : s.locate id byte = .ok position := by simp [Store.locate, branches?, hrow, hlocate]
    cases position with
    | absent index =>
      refine Or.inl ⟨index, heq, fun child hchild hlead => ?_⟩
      obtain ⟨row', hrow', other, hentry⟩ := mem_children.mp hchild
      obtain rfl : row = row' := Option.some.inj (hrow.symm.trans hrow')
      have hother : other = byte :=
        Key.byte_eq_of_isPrefix (hsound.leads _ hentry).begins hlead.begins
      have hmem : byte ∈ (s.row row).entries.map Prod.fst :=
        List.mem_map.mpr ⟨_, hentry, hother⟩
      obtain ⟨-, hbelow, habove⟩ := hposition
      rw [← List.take_append_drop index ((s.row row).entries.map Prod.fst), List.mem_append] at hmem
      rcases hmem with hmem | hmem
      · exact UInt8.lt_irrefl byte (hbelow byte hmem)
      · exact UInt8.lt_irrefl byte (habove byte hmem)
    | found index =>
      rw [Search.Locates, List.getElem?_map, Option.map_eq_some_iff] at hposition
      obtain ⟨⟨other, child⟩, hentry, rfl⟩ := hposition
      exact Or.inr ⟨index, row, child, heq, rfl, hentry⟩

theorem eq_of_leads (h : s.Sound) (hid : s.Has id) {path : Key} {a b : NodeId}
    (ha : s.Branch id a) (hleadA : s.Leads path byte a) (hb : s.Branch id b)
    (hleadB : s.Leads path byte b) : a = b := by
  obtain ⟨row, hrow, x, hx⟩ := mem_children.mp ha
  obtain ⟨row', hrow', y, hy⟩ := mem_children.mp hb
  obtain rfl : row = row' := Option.some.inj (hrow.symm.trans hrow')
  have hsound := h.rowSound hid hrow
  have haddress : s.key id ++ [x] = s.key id ++ [y] := by
    rw [← (hsound.leads _ hx).address_eq, ← (hsound.leads _ hy).address_eq, hleadA.address_eq,
      hleadB.address_eq]
  obtain rfl : x = y := by simpa using haddress
  exact hsound.child_unique hx hy

/-- What goes on behind the key of a node is below the branch of the next byte. -/
theorem exists_branch_of_isPrefix (h : s.Sound) (hid : s.Has id) {other : NodeId}
    (hbelow : s.Below id other) (hbegins : s.key id ++ [byte] <+: s.key other) :
    ∃ child, s.Branch id child ∧ s.Leads (s.key id) byte child ∧ s.Below child other := by
  rcases Relation.ReflTransGen.cases_head hbelow with rfl | ⟨child, hstep, hsteps⟩
  · have hle := hbegins.length_le
    rw [List.length_append, List.length_singleton] at hle
    omega
  · obtain ⟨byte', hlead⟩ := h.exists_leads hid hstep
    obtain rfl := Key.byte_eq_of_isPrefix hbegins
      (hlead.begins.trans (h.key_isPrefix_of_below hlead.has hsteps))
    exact ⟨child, hstep, hlead, hsteps⟩

/-- Keys at and below a node go on as its segment does. -/
theorem eq_of_read_isPrefix (h : s.Sound) (hid : s.Has id) {matched : Nat} {expected : UInt8}
    (hget : (s.node id).segment.get? matched = some expected) {other : NodeId}
    (hbelow : s.Below id other) {rest : Key}
    (hkey : s.read id matched ++ byte :: rest <+: s.key other) : expected = byte := by
  have hnext : s.read id matched ++ [expected] <+: s.key other := by
    rw [← read_succ hget]
    exact (s.read_isPrefix id _).trans (h.key_isPrefix_of_below hid hbelow)
  have hnext' : s.read id matched ++ [byte] <+: s.read id matched ++ byte :: rest :=
    (List.prefix_append_right_inj _).mpr (List.prefix_append [byte] rest)
  exact Key.byte_eq_of_isPrefix hnext (hnext'.trans hkey)

/-- Where a segment has no more bytes, all of the node's key has been read. -/
theorem read_eq_key (h : s.Sound) (hid : s.Has id) {matched : Nat}
    (hle : matched ≤ (s.node id).segment.length)
    (hget : (s.node id).segment.get? matched = none) : s.read id matched = s.key id := by
  have hend : matched = (s.node id).segment.length := by
    by_contra hne
    obtain ⟨byte, hbyte⟩ := h.exists_get? hid (Nat.lt_of_le_of_ne hle hne)
    rw [hget] at hbyte
    cases hbyte
  rw [hend, h.read_length hid]

/-- A descent stops for good reason, and whatever extends the key is below the
node that it stops at. -/
theorem descend (h : s.Sound) {place : Place} {matched : Nat} {rest key : Key}
    (hplaced : s.Placed place) (hle : matched ≤ (s.node place.node).segment.length)
    (hbegun : 0 < matched ∨ (s.node place.node).segment.length = 0)
    (hread : s.read place.node matched ++ rest = key) :
    ∃ stop, s.descend place matched rest = .ok stop ∧ s.StopsAt key stop ∧
      ∀ other, s.Below place.node other → key <+: s.key other → s.Covers stop other := by
  induction rest generalizing place matched with
  | nil =>
    rw [List.append_nil] at hread
    exact ⟨_, rfl, .ended hplaced hle hbegun hread, fun other hbelow _ => ⟨_, _, rfl, hbelow⟩⟩
  | cons byte rest ih =>
    have hhas := h.has_live (hplaced.live h)
    rw [Store.descend]
    cases hget : (s.node place.node).segment.get? matched with
    | some expected =>
      have hlt := Segment.lt_length_of_get? hget
      by_cases heq : expected = byte
      · subst heq
        have hnext : s.read place.node (matched + 1) ++ rest = key := by
          rw [read_succ hget, List.append_assoc]
          exact hread
        simpa using ih hplaced hlt (Or.inl (Nat.succ_pos matched)) hnext
      · simp only [if_neg heq]
        have hbegun' : 0 < matched := by omega
        refine ⟨_, rfl, .diverged hplaced hbegun' hlt hread hget heq, fun other hbelow hkey => ?_⟩
        exact absurd (h.eq_of_read_isPrefix hhas hget hbelow (hread ▸ hkey)) heq
    | none =>
      rw [h.read_eq_key hhas hle hget] at hread
      have hnext (other : NodeId) (hbelow : s.Below place.node other) (hkey : key <+: s.key other) :
          ∃ child, s.Branch place.node child ∧ s.Leads (s.key place.node) byte child ∧
            s.Below child other := by
        refine h.exists_branch_of_isPrefix hhas hbelow (List.IsPrefix.trans ?_ hkey)
        rw [← hread]
        exact (List.prefix_append_right_inj _).mpr (List.prefix_append [byte] rest)
      rcases h.locate hhas byte with ⟨index, hlocate, habsent⟩ |
        ⟨index, row, child, hlocate, hrow, hentry⟩
      · simp only [hlocate]
        refine ⟨_, rfl, .branchless hplaced hread hlocate, fun other hbelow hkey => ?_⟩
        obtain ⟨child, hstep, hlead, -⟩ := hnext other hbelow hkey
        exact absurd hlead (habsent child hstep)
      · have hsound := h.rowSound hhas hrow
        have hmem := List.mem_of_getElem? hentry
        have hlead : s.Leads (s.key place.node) byte child := hsound.leads _ hmem
        have hheld : (s.row row).get? index = some child := by
          rw [hsound.sound.get?_eq, hentry, Option.map_some]
        have hbranch : s.branch? place.node index = some ⟨.branch row index, child⟩ := by
          simp [branch?, hrow, hheld]
        simp only [hlocate, hbranch]
        have hread' : s.read child 1 ++ rest = key := by
          rw [hlead.read_one, List.append_assoc]
          exact hread
        obtain ⟨stop, hstop, hstops, hcovers⟩ := ih (.branch hplaced hrow hheld)
          (h.length_pos hlead) (Or.inl Nat.one_pos) hread'
        refine ⟨stop, hstop, hstops, fun other hbelow hkey => ?_⟩
        obtain ⟨child', hstep', hlead', hbelow'⟩ := hnext other hbelow hkey
        obtain rfl :=
          h.eq_of_leads hhas (mem_children.mpr ⟨row, hrow, byte, hmem⟩) hlead hstep' hlead'
        exact hcovers other hbelow' hkey

theorem trace (h : s.Sound) (key : Key) :
    ∃ stop, s.trace key = .ok stop ∧ s.StopsAt key stop ∧
      ∀ other, s.Live other → key <+: s.key other → s.Covers stop other := by
  refine h.descend .root (Nat.zero_le _) (Or.inr h.length_root) ?_
  rw [read, rootPlace, h.key_root, List.take_nil, List.nil_append]

/-- The root lists nothing under the keys of nodes without values. -/
theorem lookup_root_eq_none (h : s.Sound) {key : Key}
    (hnone : ∀ id, s.Live id → s.key id = key → (s.node id).value = none) :
    (s.itemsBelow s.root).lookup key = none := by
  rw [Option.eq_none_iff_forall_ne_some]
  intro value hvalue
  rw [← (h.ascending_itemsBelow h.has_root).mem_iff_lookup_eq_some,
    h.mem_itemsBelow h.has_root] at hvalue
  obtain ⟨id, hlive, hkey, hheld⟩ := hvalue
  rw [hnone id hlive hkey] at hheld
  cases hheld

/-- Under the key of a live node the root lists its value. -/
theorem lookup_root_key (h : s.Sound) (hlive : s.Live id) :
    (s.itemsBelow s.root).lookup (s.key id) = (s.node id).value := by
  cases hvalue : (s.node id).value with
  | some value =>
    rw [← (h.ascending_itemsBelow h.has_root).mem_iff_lookup_eq_some, h.mem_itemsBelow h.has_root]
    exact ⟨id, hlive, rfl, hvalue⟩
  | none =>
    refine h.lookup_root_eq_none fun other hother hkey => ?_
    rw [h.eq_of_key_eq h.has_root hother hlive hkey, hvalue]

/-- A look-up finds what the root lists under the key. -/
theorem lookup_eq (h : s.Sound) (key : Key) :
    s.lookup key = .ok ((s.itemsBelow s.root).lookup key) := by
  obtain ⟨stop, htrace, hstops, hcovers⟩ := h.trace key
  have hmiss (hno : ∀ id, s.Covers stop id → s.key id ≠ key) :
      (s.itemsBelow s.root).lookup key = none := by
    refine h.lookup_root_eq_none fun other hlive hkey => ?_
    exact absurd hkey (hno other (hcovers other hlive (hkey ▸ List.prefix_refl _)))
  rw [lookup, htrace]
  cases hstops with
  | diverged =>
    rw [hmiss]
    · rfl
    · rintro id ⟨_, _, ⟨⟩, -⟩
  | branchless =>
    rw [hmiss]
    · rfl
    · rintro id ⟨_, _, ⟨⟩, -⟩
  | @ended place matched hplaced hle _ hread =>
    have hlive := hplaced.live h
    have hhas := h.has_live hlive
    change Except.ok (if _ then _ else _) = _
    congr 1
    split
    · rename_i hend
      rw [← hread, hend, h.read_length hhas, h.lookup_root_key hlive]
    · rename_i hshort
      refine (hmiss ?_).symm
      -- Below the node all keys are longer than the part of its key that was read.
      rintro id ⟨_, _, ⟨⟩, hbelow⟩ hkey
      have hlength := (h.key_isPrefix_of_below hhas hbelow).length_le
      rw [hkey, ← hread, h.length_read hhas hle, h.length_key hhas] at hlength
      omega

/-- The node that covers a stem is at the top of all nodes whose keys start with
the stem, and all that are below it do. -/
theorem cover? (h : s.Sound) (stem : Key) :
    ∃ found, s.cover? stem = .ok found ∧ (∀ id ∈ found, s.Live id ∧ stem <+: s.key id) ∧
      ∀ other, s.Live other → stem <+: s.key other → ∃ id ∈ found, s.Below id other := by
  obtain ⟨stop, htrace, hstops, hcovers⟩ := h.trace stem
  rw [Store.cover?, htrace]
  have hmiss (hno : ∀ id, ¬s.Covers stop id) (other : NodeId) (hlive : s.Live other)
      (hkey : stem <+: s.key other) : ∃ id ∈ (none : Option NodeId), s.Below id other :=
    absurd (hcovers other hlive hkey) (hno other)
  cases hstops with
  | diverged =>
    refine ⟨none, rfl, by simp, hmiss ?_⟩
    rintro id ⟨_, _, ⟨⟩, -⟩
  | branchless =>
    refine ⟨none, rfl, by simp, hmiss ?_⟩
    rintro id ⟨_, _, ⟨⟩, -⟩
  | @ended place matched hplaced _ _ hread =>
    refine ⟨some place.node, rfl, ?_, ?_⟩
    · rintro id ⟨⟩
      exact ⟨hplaced.live h, hread ▸ s.read_isPrefix _ _⟩
    · intro other hlive hkey
      obtain ⟨_, _, heq, hbelow⟩ := hcovers other hlive hkey
      cases heq
      exact ⟨place.node, rfl, hbelow⟩

end Sound

end Store

end ByteTrie
