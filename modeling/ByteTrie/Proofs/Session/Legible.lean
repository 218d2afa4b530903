import ByteTrie.Proofs.Session.Operations

/-!
# Reading keys without going back up

A node does not know what is above it, and need not: its segment lies in a
buffer that begins with all the segments above. This is so on every way down to
the node, in the trie as it is now and in rows that only an open traversal still
holds. The rows have owners whose keys the ways begin with; a row may have
several, as a node that is replaced leaves its row behind, and these have the
same key.
-/

namespace ByteTrie

/-- A segment goes on where a key ends, in a buffer that begins with the key. -/
structure Segment.Continues (segment : Segment) (path : Key) : Prop where
  within : segment.Within
  offset : segment.offset = path.length
  before : segment.buffer.bytes.toList.take segment.offset = path

theorem Segment.key_eq_append (segment : Segment) :
    segment.key = segment.buffer.bytes.toList.take segment.offset ++ segment.bytes := by
  rw [key_eq, bytes_eq, stop, List.take_add]

/-- The key that ends with a segment is what it goes on from and its own bytes. -/
theorem Segment.Continues.key_eq {segment : Segment} {path : Key} (h : segment.Continues path) :
    segment.key = path ++ segment.bytes := by
  rw [segment.key_eq_append, h.before]

namespace Store

variable {V : Type} {s : Store V}

/-- A way from a row down to a node, with the segments of the nodes that it
comes by. -/
inductive Way (s : Store V) (row : RowId) : List Key → NodeId → Prop
  | slot {index : Nat} {child : NodeId} (held : (s.row row).get? index = some child) :
      Way s row [] child
  | down {segments : List Key} {above child : NodeId} {below : RowId} {index : Nat}
      (way : Way s row segments above) (owner : (s.node above).row = some below)
      (held : (s.row below).get? index = some child) :
      Way s row (segments ++ [(s.node above).segment.bytes]) child

/-- Only a node that was made owns a row. -/
theorem has_of_row {id : NodeId} {row : RowId} (h : (s.node id).row = some row) : s.Has id := by
  by_contra hid
  rw [node_of_not_has hid] at h
  cases h

theorem Leads.continues {path : Key} {byte : UInt8} {id : NodeId} (h : s.Leads path byte id)
    (hs : s.Sound) : (s.node id).segment.Continues path where
  within := (hs.node id h.has).within
  offset := h.offset
  before := by
    obtain ⟨rest, hrest⟩ := h.isPrefix
    rw [key, Segment.key_eq_append] at hrest
    have hlength : ((s.node id).segment.buffer.bytes.toList.take
        (s.node id).segment.offset).length = path.length := by
      have hwithin := (hs.node id h.has).within
      simp only [Segment.Within, Segment.stop] at hwithin
      rw [List.length_take, Array.length_toList, h.offset] at *
      omega
    exact (List.append_inj hrest hlength.symm).1.symm

namespace Sound

variable {owner id : NodeId} {row : RowId}

theorem leads_of_get? (h : s.Sound) (howner : s.Has owner) (hrow : (s.node owner).row = some row)
    {index : Nat} (hheld : (s.row row).get? index = some id) :
    ∃ byte, s.Leads (s.key owner) byte id := by
  have hsound := h.rowSound howner hrow
  rw [hsound.sound.get?_eq, Option.map_eq_some_iff] at hheld
  obtain ⟨⟨byte, child⟩, hentry, rfl⟩ := hheld
  exact ⟨byte, hsound.leads _ (List.mem_of_getElem? hentry)⟩

theorem continues_root (h : s.Sound) : (s.node s.root).segment.Continues [] where
  within := (h.node _ h.has_root).within
  offset := h.offset_root
  before := by rw [h.offset_root, List.take_zero]

/-- On every way down to a node its segment goes on where those above it end. -/
theorem continues_of_way (h : s.Sound) (howner : s.Has owner) (hrow : (s.node owner).row = some row)
    {segments : List Key} (hway : s.Way row segments id) :
    s.Has id ∧ (s.node id).segment.Continues (s.key owner ++ segments.flatten) := by
  induction hway with
  | slot hheld =>
    obtain ⟨byte, hlead⟩ := h.leads_of_get? howner hrow hheld
    rw [List.flatten_nil, List.append_nil]
    exact ⟨hlead.has, hlead.continues h⟩
  | @down segments above child below index _ hbelow hheld ih =>
    obtain ⟨habove, hcontinues⟩ := ih
    obtain ⟨byte, hlead⟩ := h.leads_of_get? habove hbelow hheld
    have hkey : s.key above =
        s.key owner ++ (segments ++ [(s.node above).segment.bytes]).flatten := by
      rw [key, hcontinues.key_eq, List.flatten_append, List.flatten_singleton, List.append_assoc]
    exact ⟨hlead.has, hkey ▸ hlead.continues h⟩

end Sound

end Store

namespace Session

variable {V : Type} {s : Session V}

/-- The keys of all nodes that a session can come to can be read off their own
segments. -/
structure Legible (s : Session V) : Prop where
  /-- The root has nothing above it. -/
  root : s.trie.store.key s.trie.store.root = [] ∧
    (s.trie.store.node s.trie.store.root).segment.Continues []
  /-- A node that a traversal is to start with lies within its buffer. -/
  first : ∀ t ∈ s.traversals, ∀ id ∈ t.first,
    s.trie.store.Has id ∧ (s.trie.store.node id).segment.Within
  /-- A row that a traversal is in the middle of has an owner. -/
  owner : ∀ t ∈ s.traversals, ∀ r ∈ t.rows, ∃ id, (s.trie.store.node id).row = some r.row
  /-- Ways lead on from the key of any owner of the row that they start with. -/
  way : ∀ owner row segments id, (s.trie.store.node owner).row = some row →
    s.trie.store.Way row segments id →
      (s.trie.store.node id).segment.Continues (s.trie.store.key owner ++ segments.flatten) ∧
      s.trie.store.key id =
        s.trie.store.key owner ++ segments.flatten ++ (s.trie.store.node id).segment.bytes
  /-- The owners of a row have the same key. -/
  shared : ∀ a b row, (s.trie.store.node a).row = some row →
    (s.trie.store.node b).row = some row → s.trie.store.key a = s.trie.store.key b

theorem Sound.legible (h : s.Sound) : s.Legible where
  root := ⟨h.store.key_root, h.store.continues_root⟩
  first t ht id hid :=
    have hhas := (h.traversals t ht).first id hid
    ⟨hhas, (h.store.node id hhas).within⟩
  owner t ht r hr :=
    have ⟨id, _, hrow⟩ := ((h.traversals t ht).rows r hr).owner
    ⟨id, hrow⟩
  way _ _ _ _ hrow hway :=
    have hcontinues := (h.store.continues_of_way (Store.has_of_row hrow) hrow hway).2
    ⟨hcontinues, hcontinues.key_eq⟩
  shared _ _ _ hrow hrow' :=
    (h.store.rowSound (Store.has_of_row hrow) hrow).path_unique
      (h.store.rowSound (Store.has_of_row hrow') hrow')

/-- Whatever is done in a session, and in whatever order, all nodes that can be
come to from the root or from an open traversal show their keys. -/
theorem performAll_legible (sizing : Sizing) (entries : List (Key × V))
    (operations : List (Operation V)) :
    ∃ start answers s, Trie.ofList sizing entries = .ok start ∧
      (ofTrie start).performAll operations = .ok (answers, s) ∧ s.Legible := by
  obtain ⟨start, answers, s, hstart, hperform, h⟩ := exists_performAll sizing entries operations
  exact ⟨start, answers, s, hstart, hperform, h.legible⟩

end Session

end ByteTrie
