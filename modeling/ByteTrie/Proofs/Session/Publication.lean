import ByteTrie.Proofs.Session.Operations
import ByteTrie.Proofs.Store.Spot

/-!
# Insertions as one publication

Whoever reads a store while it is written to has to rely on its nodes and rows
being there as they were, those that have been replaced and are known to open
traversals alone no less than the others. However a trie has been used, an
insertion changes one spot of what was there, which the root leads to, and makes
all else that it needs anew.
-/

namespace ByteTrie

/-- What a traversal names was made. -/
structure Traversal.Held {V : Type} (s : Store V) (t : Traversal) : Prop where
  first : ∀ id ∈ t.first, s.Has id
  rows : ∀ r ∈ t.rows, s.HasRow r.row

namespace Session

variable {V : Type} {s : Session V}

theorem Sound.held (h : s.Sound) : ∀ t ∈ s.traversals, t.Held s.trie.store := by
  refine fun t ht => ⟨(h.traversals t ht).first, fun r hr => ?_⟩
  obtain ⟨path, hpath⟩ := ((h.traversals t ht).rows r hr).path h.store
  exact hpath.has

theorem Sound.insert_publication (h : s.Sound) (key : Key) (value : V) :
    ∃ replaced s', s.insert key value = .ok (replaced, s') ∧ s'.traversals = s.traversals ∧
      ∃! spot, s.trie.store.Publication key value s'.trie.store spot := by
  obtain ⟨replaced, store, hinsert, hspot⟩ := h.store.insert_publication s.trie.sizing key value
  refine ⟨replaced, { s with trie := ⟨store, s.trie.sizing⟩ }, ?_, rfl, hspot⟩
  rw [Session.insert, Trie.insert, hinsert]
  rfl

/-- Whatever is done in a session before, storing a value writes to one spot of
the nodes and rows that were made, known to the root or to open traversals. -/
theorem performAll_insert_publication (sizing : Sizing) (entries : List (Key × V))
    (before : List (Operation V)) (key : Key) (value : V) :
    ∃ start answers s replaced s', Trie.ofList sizing entries = .ok start ∧
      (ofTrie start).performAll before = .ok (answers, s) ∧
      (∀ t ∈ s.traversals, t.Held s.trie.store) ∧
      s.insert key value = .ok (replaced, s') ∧ s'.traversals = s.traversals ∧
      ∃! spot, s.trie.store.Publication key value s'.trie.store spot := by
  obtain ⟨start, answers, s, hstart, hbefore, h⟩ := exists_performAll sizing entries before
  obtain ⟨replaced, s', hinsert, hsame, hspot⟩ := h.insert_publication key value
  exact ⟨start, answers, s, replaced, s', hstart, hbefore, h.held, hinsert, hsame, hspot⟩

end Session

end ByteTrie
