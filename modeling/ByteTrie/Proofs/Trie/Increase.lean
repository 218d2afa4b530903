import ByteTrie.Proofs.Store.Revaluation
import ByteTrie.Proofs.Store.Slots
import ByteTrie.Proofs.Trie.Capacity
import ByteTrie.Proofs.Trie.Inventory

/-!
# What one insertion adds

An insertion under a key that has a value leaves all that is counted as it was. Under
any other key it adds one value, a node for the key and one at its stem unless they
are there, and the rest follows from the keys of the nodes: there is a branch more for
each node more, the trie becomes higher by one at most, and it has no slot less.
-/

namespace ByteTrie

variable {V : Type}

namespace Store.Revalued

variable {s s' : Store V}

theorem size_eq (h : s.Revalued s') : s'.nodes.size = s.nodes.size := by
  rcases Nat.lt_trichotomy s'.nodes.size s.nodes.size with hlt | heq | hgt
  · exact absurd ((h.has ⟨s'.nodes.size⟩).mpr hlt) (Nat.lt_irrefl _)
  · exact heq
  · exact absurd ((h.has ⟨s.nodes.size⟩).mp hgt) (Nat.lt_irrefl _)

theorem preorderTo_eq (h : s.Revalued s') (height : Nat) (id : NodeId) (depth : Nat) :
    s'.preorderTo height id depth = s.preorderTo height id depth := by
  induction depth generalizing height id with
  | zero => rfl
  | succ depth ih =>
    rw [preorderTo, preorderTo, h.children_eq]
    exact congrArg _ (List.flatMap_congr fun child _ => ih (height + 1) child)

theorem addNode_eq (h : s.Revalued s') : Census.addNode s' = Census.addNode s := by
  funext c id height
  rw [Census.addNode, Census.addNode, h.valued, degree, degree, h.branches?_eq]

end Store.Revalued

/-- With a new key there are new joints at the key and at its stem only. -/
theorem Key.Departs.eq_or_mem_of_joint {keys : Finset Key} {key stem other : Key}
    {P : Key → Prop} (h : Departs keys key stem) (hclosed : Closed keys)
    (hkeys : ∀ other, Joint P other → other ∈ keys)
    (hjoint : Joint (fun held => held = key ∨ P held) other) :
    other = key ∨ other = stem ∨ other ∈ keys := by
  have hparting {held : Key} (hheld : P held) : commonPrefix key held = stem ∨
      commonPrefix key held ∈ keys :=
    h.eq_or_mem hclosed (hkeys held (.held hheld))
  rcases hjoint with _ | (rfl | hheld) | ⟨rfl | hleft, rfl | hright⟩
  · exact Or.inr (Or.inr (hkeys [] .empty))
  · exact Or.inl rfl
  · exact Or.inr (Or.inr (hkeys other (.held hheld)))
  · exact Or.inl (commonPrefix_self _)
  · exact Or.inr (hparting hright)
  · exact Or.inr (commonPrefix_comm _ _ ▸ hparting hleft)
  · exact Or.inr (Or.inr (hkeys _ (.parting hleft hright)))

namespace Trie

variable {t t' : Trie V} {m : Contents V} {key stem : Key} {value : V} {replaced : Option V}

theorem census_eq_of_revalued (h : t.store.Revalued t'.store) : t'.census = t.census := by
  rw [census, census, Census.addNodes, Census.addNodes, Store.preorder, Store.preorder,
    h.preorderTo_eq, h.root, h.size_eq, h.addNode_eq]

theorem census_height_eq (h : t.store.Sound) :
    t.census.height = t.store.liveKeys.sup (Key.depth t.store.liveKeys) :=
  eq_of_forall_ge_iff fun _ => t.census_height_le_iff.trans h.forall_height_le_iff

theorem census_slots_eq_sum_liveNodes (h : t.store.Sound) :
    t.census.slots = ∑ id ∈ t.store.liveNodes, t.store.room id := by
  rw [census_slots h, h.sum_nodesBelow_root]

namespace Written

theorem replaced_eq (h : t.Written m) (hinsert : t.insert key value = .ok (replaced, t')) :
    replaced = m.lookup key := by
  obtain ⟨_, hinsert', -⟩ := h.holds.insert key value
  exact (Prod.mk.inj (Except.ok.inj (hinsert.symm.trans hinsert'))).1

/-- An insertion under a key that has a value changes nothing that is counted. -/
theorem census_overwrite (h : t.Written m) (hinsert : t.insert key value = .ok (replaced, t'))
    (hsome : replaced.isSome) : t'.census = t.census := by
  obtain ⟨held, hheld⟩ := Option.isSome_iff_exists.mp hsome
  have hlookup : t.store.lookup key = .ok (some held) := by
    rw [← hheld, h.replaced_eq hinsert, ← h.holds.lookup_eq, Trie.lookup]
  obtain ⟨id, hlive, -, hvalue, hset⟩ := h.sound.insert_of_lookup t.sizing hlookup value
  rw [Trie.insert, hset] at hinsert
  obtain ⟨-, rfl⟩ := Prod.mk.inj (Except.ok.inj hinsert)
  exact census_eq_of_revalued (.setValue (h.sound.has_live hlive) (hvalue ▸ rfl) value)

/-- An insertion under a key without a value makes one value more. -/
theorem census_values_insert (h : t.Written m)
    (hinsert : t.insert key value = .ok (none, t')) :
    t'.census.values = t.census.values + 1 := by
  have hnew : key ∉ m.keys := by
    rw [Finmap.mem_keys, ← Finmap.lookup_eq_none]
    exact (h.replaced_eq hinsert).symm
  have hkeys : (m.insert key value).keys = Insert.insert key m.keys := by
    ext other
    rw [Finmap.mem_keys, Finmap.mem_insert, Finset.mem_insert, Finmap.mem_keys]
  have h' := (h.insert hinsert).holds
  rw [census_values h', census_values h.holds, h'.size_eq_card, h.holds.size_eq_card, hkeys,
    Finset.card_insert_of_notMem hnew]

theorem mem_liveKeys_iff_joint (h : t.Written m) {other : Key} :
    other ∈ t.store.liveKeys ↔ Key.Joint (· ∈ m) other :=
  h.sound.mem_liveKeys.trans (h.exists_live_iff other)

theorem liveKeys_subset (h : t.Written m) (hinsert : t.insert key value = .ok (replaced, t')) :
    t.store.liveKeys ⊆ t'.store.liveKeys := by
  intro other hother
  refine (h.insert hinsert).mem_liveKeys_iff_joint.mpr ?_
  exact (h.mem_liveKeys_iff_joint.mp hother).mono fun _ hheld =>
    Finmap.mem_insert.mpr (Or.inr hheld)

/-- There are nodes at the keys where there were, at the new key and at its stem. -/
theorem liveKeys_insert (h : t.Written m) (hinsert : t.insert key value = .ok (replaced, t'))
    (hdeparts : Key.Departs t.store.liveKeys key stem) :
    t'.store.liveKeys = Insert.insert key (Insert.insert stem t.store.liveKeys) := by
  have h' := h.insert hinsert
  refine Finset.Subset.antisymm (fun other hother => ?_) ?_
  · have hjoint := (h'.mem_liveKeys_iff_joint.mp hother).mono fun _ => Finmap.mem_insert.mp
    rw [Finset.mem_insert, Finset.mem_insert]
    exact hdeparts.eq_or_mem_of_joint h.sound.closed_liveKeys
      (fun _ => h.mem_liveKeys_iff_joint.mpr) hjoint
  · have hkey : key ∈ t'.store.liveKeys :=
      h'.mem_liveKeys_iff_joint.mpr (.held (Finmap.mem_insert.mpr (Or.inl rfl)))
    have hkept := h.liveKeys_subset hinsert
    obtain ⟨nearest, hnearest, rfl⟩ := hdeparts.common
    refine Finset.insert_subset hkey (Finset.insert_subset ?_ hkept)
    exact h'.sound.closed_liveKeys key hkey nearest (hkept hnearest)

/-- There is a node at the key of an insertion that replaces no value when the key is empty or
has a node without one. -/
theorem mem_liveKeys_iff (h : t.Written m) (hinsert : t.insert key value = .ok (none, t')) :
    key ∈ t.store.liveKeys ↔ key = [] ∨
      ∃ id, t.store.Live id ∧ t.store.key id = key ∧ (t.store.node id).value = none := by
  rw [h.sound.mem_liveKeys]
  constructor
  · rintro ⟨id, hlive, rfl⟩
    exact Or.inr ⟨id, hlive, rfl, (h.value_eq hlive).trans (h.replaced_eq hinsert).symm⟩
  · rintro (rfl | ⟨id, hlive, hkey, -⟩)
    · exact ⟨t.store.root, Relation.ReflTransGen.refl, h.sound.key_root⟩
    · exact ⟨id, hlive, hkey⟩

/-- A key without a value brings a node for itself and one at its stem, unless they are there,
and a branch to each of them. -/
theorem exists_grown (h : t.Written m) (hinsert : t.insert key value = .ok (none, t')) :
    ∃ grown ≤ 2, t'.census.nodes = t.census.nodes + grown ∧
      t'.census.used = t.census.used + grown ∧
      (grown = 0 ↔ key = [] ∨
        ∃ id, t.store.Live id ∧ t.store.key id = key ∧ (t.store.node id).value = none) ∧
      (grown = 2 ↔ ∃ id, t.store.Live id ∧ t.store.PartsInside key id) := by
  have hs := h.sound
  have hs' := (h.insert hinsert).sound
  obtain ⟨stem, hdeparts⟩ := Key.exists_departs ⟨[], hs.nil_mem_liveKeys⟩ key
  obtain ⟨grown, hgrown, hcard, hzero, htwo⟩ := hdeparts.card_insert
  rw [← h.liveKeys_insert hinsert hdeparts, hs'.card_liveKeys, hs.card_liveKeys,
    ← (describes_census hs).nodes, ← (describes_census hs').nodes] at hcard
  have hused := (describes_census hs).used
  have hused' := (describes_census hs').used
  exact ⟨grown, hgrown, hcard, by omega, hzero.trans (h.mem_liveKeys_iff hinsert),
    htwo.trans (hs.exists_partsInside_iff hdeparts).symm⟩

/-- The trie becomes no lower, and higher by one at most. -/
theorem census_height_insert (h : t.Written m)
    (hinsert : t.insert key value = .ok (replaced, t')) :
    t.census.height ≤ t'.census.height ∧ t'.census.height ≤ t.census.height + 1 := by
  have hs := h.sound
  obtain ⟨stem, hdeparts⟩ := Key.exists_departs ⟨[], hs.nil_mem_liveKeys⟩ key
  have hsub := h.liveKeys_subset hinsert
  rw [census_height_eq hs, census_height_eq (h.insert hinsert).sound]
  constructor
  · refine Finset.sup_le fun other hother => ?_
    exact (Key.depth_mono hsub other).trans (Finset.le_sup (f := Key.depth _) (hsub hother))
  · rw [h.liveKeys_insert hinsert hdeparts]
    exact hdeparts.sup_depth_insert_le

theorem census_slots_insert (h : t.Written m)
    (hinsert : t.insert key value = .ok (replaced, t')) : t.census.slots ≤ t'.census.slots := by
  obtain ⟨hs', houtcome⟩ := outcome_of_insert h.sound hinsert
  rw [census_slots_eq_sum_liveNodes h.sound, census_slots_eq_sum_liveNodes hs']
  exact houtcome.sum_room_le h.sound hs' h.served (h.liveKeys_subset hinsert)

end Written

/-- After any run of writes, an insertion that replaces a value leaves the census as it was. One
that replaces none makes one value more, and as many branches as nodes more: none when the key is
empty or has a node without a value, two when it departs inside a segment with bytes left over,
and otherwise one. It makes the trie higher by one at most, and no slot is lost. -/
theorem run_insert_sweep (sizing : Sizing) (entries : List (Key × V)) (writes : List (Write V))
    (key : Key) (value : V) :
    ∃ start answers t replaced t', Trie.ofList sizing entries = .ok start ∧
      start.run writes = .ok (answers, t) ∧ t.insert key value = .ok (replaced, t') ∧
      (replaced.isSome → t'.sweep = t.sweep) ∧
      (replaced = none → t'.sweep.values = t.sweep.values + 1 ∧
        (∃ grown ≤ 2, t'.sweep.nodes = t.sweep.nodes + grown ∧
          t'.sweep.used = t.sweep.used + grown ∧
          (grown = 0 ↔ key = [] ∨
            ∃ id, t.store.Live id ∧ t.store.key id = key ∧ (t.store.node id).value = none) ∧
          (grown = 2 ↔ ∃ id, t.store.Live id ∧ t.store.PartsInside key id)) ∧
        t.sweep.height ≤ t'.sweep.height ∧ t'.sweep.height ≤ t.sweep.height + 1 ∧
        t.sweep.slots ≤ t'.sweep.slots) := by
  obtain ⟨start, answers, t, hstart, hrun, h⟩ := exists_written sizing entries writes
  obtain ⟨t', hinsert, -⟩ := h.holds.insert key value
  refine ⟨start, answers, t, _, t', hstart, hrun, hinsert, ?_⟩
  rw [sweep_eq_census h.sound, sweep_eq_census (h.insert hinsert).sound]
  refine ⟨h.census_overwrite hinsert, fun hnone => ?_⟩
  rw [hnone] at hinsert
  obtain ⟨hheight, hheight'⟩ := h.census_height_insert hinsert
  exact ⟨h.census_values_insert hinsert, h.exists_grown hinsert, hheight, hheight',
    h.census_slots_insert hinsert⟩

/-- A key that departs behind the first byte of a segment brings a node for itself and one at its
stem, and makes the trie higher. -/
theorem run_insert_sweep_parting :
    ∃ t t' : Trie Nat, Trie.ofList .alphabet [([1, 2], 12)] = .ok t ∧
      t.insert [1, 3] 13 = .ok (none, t') ∧ t'.sweep.nodes = t.sweep.nodes + 2 ∧
      t'.sweep.used = t.sweep.used + 2 ∧ t'.sweep.height = t.sweep.height + 1 ∧
      t'.sweep.values = t.sweep.values + 1 ∧ t.sweep.slots ≤ t'.sweep.slots ∧
      ∃ id, t.store.Live id ∧ t.store.PartsInside [1, 3] id := by
  obtain ⟨start, _, t, replaced, t', hstart, hrun, hinsert, -, hnone⟩ :=
    run_insert_sweep .alphabet [([1, 2], 12)] [] [1, 3] 13
  obtain ⟨-, rfl⟩ := Prod.mk.inj (Except.ok.inj hrun)
  have hcounted : (do
      let start ← Trie.ofList .alphabet [([1, 2], 12)]
      let (replaced, t) ← start.insert [1, 3] 13
      pure (replaced, start.sweep.nodes, t.sweep.nodes, start.sweep.height, t.sweep.height)) =
        .ok (none, 2, 4, 2, 3) := by
    decide +kernel
  rw [hstart] at hcounted
  simp only [bind, Except.bind, hinsert, pure, Except.pure, Except.ok.injEq, Prod.mk.injEq]
    at hcounted
  obtain ⟨rfl, hnodes, hnodes', hheight, hheight'⟩ := hcounted
  obtain ⟨hvalues, ⟨grown, -, hgrown, hused, -, htwo⟩, -, -, hslots⟩ := hnone rfl
  obtain rfl : grown = 2 := by omega
  exact ⟨_, t', hstart, hinsert, hgrown, hused, by omega, hvalues, hslots, htwo.mp rfl⟩

end Trie

end ByteTrie
