import ByteTrie.Proofs.Trie.Census
import ByteTrie.Proofs.Trie.Shape
import Mathlib.Algebra.Order.BigOperators.Group.List
import Mathlib.Algebra.Order.Group.Nat

/-!
# How much room a trie takes

The capacities of a trie depend on how it has come to be and not only on what it
holds. Still each of them is one that its way of sizing allows for the branches
that there are now. A trie that sizes its rows exactly has no spare slot, so no
other trie with the same map does with less.
-/

namespace ByteTrie

variable {V : Type}

namespace Trie

variable {t : Trie V} {m : Contents V}

/-- The rows of a trie have been given their capacities in its own way. -/
theorem Written.served (h : t.Written m) : t.store.Served t.sizing := by
  induction h with
  | empty sizing => exact Store.served_empty sizing
  | restart _ sizing _ => exact Store.served_reset _ sizing
  | insert before hinsert ih =>
    obtain ⟨hsound, houtcome⟩ := outcome_of_insert before.sound hinsert
    rw [sizing_insert hinsert]
    exact houtcome.served before.sound hsound ih

theorem used_le_slots (h : t.store.Sound) (hserved : t.store.Served t.sizing) :
    t.census.used ≤ t.census.slots := by
  rw [census_used, census_slots h]
  refine List.sum_le_sum fun id hid => hserved.degree_le_room ?_
  exact (h.mem_nodesBelow h.has_root).mp hid

theorem slots_eq_used (h : t.store.Sound) (hserved : t.store.Served .exact) :
    t.census.slots = t.census.used := by
  rw [census_used, census_slots h]
  refine congrArg List.sum (List.map_congr_left fun id hid => hserved.room_eq_degree ?_)
  exact (h.mem_nodesBelow h.has_root).mp hid

/-- After any run of writes a trie sizes its rows in the way that was chosen last, and the
capacity of every row is one that this way allows. Exact rows have no spare slot, so that of
two tries with the same map one with exact rows has no more slots than the other. -/
theorem run_capacity (sizing sizing' : Sizing) (entries entries' : List (Key × V))
    (writes writes' : List (Write V)) :
    ∃ start answers t start' answers' t',
      Trie.ofList sizing entries = .ok start ∧ start.run writes = .ok (answers, t) ∧
      Trie.ofList sizing' entries' = .ok start' ∧ start'.run writes' = .ok (answers', t') ∧
      t.sizing = (writes.filterMap Write.sizing?).getLastD sizing ∧
      t'.sizing = (writes'.filterMap Write.sizing?).getLastD sizing' ∧
      (∀ id, t.store.Live id → ∀ b ∈ t.store.branches? id, t.sizing.Allows b.count b.capacity) ∧
      (t.sizing = .exact → t.sweep.slots = t.sweep.used) ∧
      (t'.sizing = .exact → (∀ key, t.lookup key = t'.lookup key) →
        t'.sweep.slots ≤ t.sweep.slots) := by
  obtain ⟨start, answers, t, hstart, hrun, h⟩ := exists_written sizing entries writes
  obtain ⟨start', answers', t', hstart', hrun', h'⟩ := exists_written sizing' entries' writes'
  refine ⟨start, answers, t, start', answers', t', hstart, hrun, hstart', hrun',
    sizing_run_of_ofList hstart hrun, sizing_run_of_ofList hstart' hrun', ?_⟩
  rw [sweep_eq_census h.sound, sweep_eq_census h'.sound]
  refine ⟨?_, ?_, ?_⟩
  · intro id hlive b hb
    exact (h.served.serves hlive hb).allows
  · intro hexact
    exact slots_eq_used h.sound (hexact ▸ h.served)
  · intro hexact hlookup
    have hsame := h.holds.eq_of_lookup_eq h'.holds hlookup
    have halike := census_alike h.sound h'.sound (h.outline_eq (hsame ▸ h'))
    calc t'.census.slots = t'.census.used := slots_eq_used h'.sound (hexact ▸ h'.served)
      _ = t.census.used := halike.used.symm
      _ ≤ t.census.slots := used_le_slots h.sound h.served

/-- Two branches get room for four in a trie with room for alphabets, and for two when it has
been begun anew with exact rows. -/
theorem run_capacity_two :
    ∃ start' answers', ∃ t t' : Trie Nat,
      Trie.ofList .alphabet [([1], 10), ([2], 20)] = .ok t ∧
      Trie.ofList .alphabet [] = .ok start' ∧
      start'.run [.restart .exact [([1], 10), ([2], 20)]] = .ok (answers', t') ∧
      t.sizing = .alphabet ∧ t'.sizing = .exact ∧
      (∀ key, t.lookup key = t'.lookup key) ∧
      (∃ b ∈ t.store.branches? t.store.root, b.count = 2 ∧ b.capacity = 4 ∧
        t.sizing.Allows b.count b.capacity) ∧
      t.sweep.slots = 4 ∧ t'.sweep.slots = 2 ∧ t'.sweep.slots = t'.sweep.used ∧
      t'.sweep.slots ≤ t.sweep.slots := by
  obtain ⟨t, _, _, start', answers', t', hstart, hrun, hstart', hrun', hsizing, hsizing', hallows, -,
    hleast⟩ := run_capacity .alphabet .alphabet [([1], 10), ([2], 20)] [] []
      [.restart .exact [([1], 10), ([2], 20)]]
  obtain ⟨-, rfl⟩ := Prod.mk.inj (Except.ok.inj hrun)
  have hcounted : (Trie.ofList .alphabet [([1], 10), ([2], 20)]).map (fun t : Trie Nat =>
      ((t.store.branches? t.store.root).map fun b => (b.count, b.capacity), t.sweep.slots)) =
        .ok (some (2, 4), 4) := by
    decide +kernel
  have hcounted' : (do
      let start ← Trie.ofList .alphabet []
      let (_, t) ← start.run [.restart .exact [([1], (10 : Nat)), ([2], 20)]]
      return (t.sweep.slots, t.sweep.used) : Except Fault (Nat × Nat)) = .ok (2, 2) := by
    decide +kernel
  rw [hstart] at hcounted
  rw [hstart'] at hcounted'
  simp only [bind, Except.bind, hrun'] at hcounted'
  obtain ⟨hroot, hslots⟩ := Prod.mk.inj (Except.ok.inj hcounted)
  obtain ⟨hslots', hused'⟩ := Prod.mk.inj (Except.ok.inj hcounted')
  obtain ⟨b, hb, hroom⟩ := Option.map_eq_some_iff.mp hroot
  obtain ⟨hcount, hcapacity⟩ := Prod.mk.inj hroom
  have h : t.Written (Contents.ofList [([1], 10), ([2], 20)]) :=
    written_of_run hstart (rfl : t.run [] = .ok ([], t))
  have h' : t'.Written (Contents.ofList [([1], 10), ([2], 20)]) := written_of_run hstart' hrun'
  have hlookup (key : Key) : t.lookup key = t'.lookup key := by
    rw [h.holds.lookup_eq, h'.holds.lookup_eq]
  exact ⟨start', answers', t, t', hstart, hstart', hrun', hsizing, hsizing', hlookup,
    ⟨b, hb, hcount, hcapacity, hallows _ .refl b hb⟩, hslots, hslots', hslots'.trans hused'.symm,
    hleast hsizing' hlookup⟩

end Trie

end ByteTrie
