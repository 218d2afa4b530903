import ByteTrie.Proofs.Store.Traversal
import ByteTrie.Proofs.Trie.Contents

/-!
# Searching a trie

A search starts a traversal at the node that covers the stem. What it yields is
what the trie holds under the keys that start with the stem, in the order of the
keys: everything with that beginning is at or below the node, and nothing else.
-/

namespace ByteTrie

variable {V : Type} {s : Store V} {t : Traversal}

namespace Traversal

/-- The entries that a traversal yields one by one until it answers that there
are no more. -/
inductive Yields (s : Store V) : Traversal → List (Key × V) → Prop
  | nil {t : Traversal} (last : (t.next s).1 = none) : Yields s t []
  | cons {t : Traversal} {item : Key × V} {items : List (Key × V)}
      (next : (t.next s).1 = some item) (later : Yields s (t.next s).2 items) :
      Yields s t (item :: items)

/-- One by one a traversal yields all that it has to come. -/
theorem Sound.yields (h : t.Sound s) (hs : s.Sound) : Yields s t (t.items s) := by
  rw [h.items_eq hs]
  induction hrest : t.rest s generalizing t with
  | nil =>
    refine .nil ?_
    rw [h.next_eq hs, hrest]
    rfl
  | cons item items ih =>
    have hnext := h.nextNode_advances hs
    refine .cons (by rw [h.next_eq hs, hrest]; rfl) (ih hnext.sound ?_)
    exact hnext.rest.trans (by rw [hrest]; rfl)

theorem pending_start (s : Store V) (found : Option NodeId) :
    (start found).pending s = found.toList.map fun id => (s.key id, id) := by
  rw [pending, start]
  exact List.append_nil _

/-- Nothing but what is at and below its first node is to come from a traversal that has
not begun. -/
theorem rest_start (s : Store V) (found : Option NodeId) :
    (start found).rest s = found.elim [] s.itemsBelow := by
  rw [rest, pending_start]
  cases found with
  | none => rfl
  | some id => exact List.append_nil _

theorem sound_start {found : Option NodeId} (hfound : ∀ id ∈ found, s.Has id) :
    (start found).Sound s where
  first := hfound
  rows _ hr := by cases hr
  ordered := by
    rw [pending_start]
    cases found with
    | none => exact List.Pairwise.nil
    | some id => exact List.pairwise_singleton _ _

theorem mem_rest_start (s : Store V) (found : Option NodeId) (entry : Key × V) :
    entry ∈ (start found).rest s ↔ ∃ id ∈ found, entry ∈ s.itemsBelow id := by
  rw [rest_start]
  cases found <;> simp

end Traversal

open Traversal

/-- A traversal from the node that covers a stem has to come what the root lists
with that beginning. -/
theorem Store.Sound.search (h : s.Sound) (stem : Key) :
    ∃ found, s.cover? stem = .ok found ∧ (start found).Sound s ∧
      (start found).Bounded s (stem <+: ·) ∧
      ∀ key value, (key, value) ∈ (start found).rest s ↔
        (key, value) ∈ s.itemsBelow s.root ∧ stem <+: key := by
  obtain ⟨found, hcover, hfound, hall⟩ := h.cover? stem
  refine ⟨found, hcover, sound_start fun id hid => h.has_live (hfound id hid).1, ?_, ?_⟩
  · intro p hp
    rw [pending_start] at hp
    obtain ⟨id, hid, rfl⟩ := List.mem_map.mp hp
    exact (hfound id (Option.mem_toList.mp hid)).2
  · intro key value
    rw [mem_rest_start, h.mem_itemsBelow h.has_root]
    constructor
    · rintro ⟨id, hid, hmem⟩
      obtain ⟨hlive, hstem⟩ := hfound id hid
      obtain ⟨other, hbelow, rfl, hvalue⟩ := (h.mem_itemsBelow (h.has_live hlive)).mp hmem
      exact ⟨⟨other, hlive.trans hbelow, rfl, hvalue⟩,
        hstem.trans (h.key_isPrefix_of_below (h.has_live hlive) hbelow)⟩
    · rintro ⟨⟨other, hlive, rfl, hvalue⟩, hstem⟩
      obtain ⟨id, hid, hbelow⟩ := hall other hlive hstem
      exact ⟨id, hid, (h.mem_itemsBelow (h.has_live (hfound id hid).1)).mpr
        ⟨other, hbelow, rfl, hvalue⟩⟩

namespace Trie

/-- A search yields the entries of the map whose keys start with the stem, each
once and in ascending order of the keys. Without a stem these are all entries. -/
theorem search_exact (sizing : Sizing) (entries : List (Key × V)) (writes : List (Write V))
    (stem : Key) :
    ∃ start answers t traversal, Trie.ofList sizing entries = .ok start ∧
      start.run writes = .ok (answers, t) ∧ t.search stem = .ok traversal ∧
      traversal.Yields t.store (traversal.items t.store) ∧
      Entries.Ascending (traversal.items t.store) ∧
      (∀ key value, (key, value) ∈ traversal.items t.store ↔
        ((Contents.ofList entries).run writes).2.lookup key = some value ∧ stem <+: key) ∧
      (stem = [] → traversal = t.traversal ∧ traversal.items t.store = t.toList) := by
  obtain ⟨start, hstart, hholds⟩ := holds_ofList sizing entries
  obtain ⟨t, hrun, h, -⟩ := hholds.run writes
  obtain ⟨found, hcover, hsound, -, hmem⟩ := h.sound.search stem
  have hsearch : t.search stem = .ok (Traversal.start found) := by
    rw [search, hcover]
    rfl
  refine ⟨start, _, t, _, hstart, hrun, hsearch, hsound.yields h.sound, ?_, ?_, ?_⟩
  · rw [hsound.items_eq h.sound]
    exact hsound.ascending_rest h.sound
  · intro key value
    rw [hsound.items_eq h.sound, hmem, h.mem_itemsBelow]
  · rintro rfl
    have heq : Traversal.start found = t.traversal :=
      Except.ok.inj (hsearch.symm.trans t.search_nil)
    exact ⟨heq, by rw [heq]; rfl⟩

end Trie

end ByteTrie
