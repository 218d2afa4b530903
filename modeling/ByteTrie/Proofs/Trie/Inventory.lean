import ByteTrie.Proofs.Store.Counting
import ByteTrie.Proofs.Store.Keys
import ByteTrie.Proofs.Store.Ways
import ByteTrie.Proofs.Trie.Emptiness
import ByteTrie.Proofs.Trie.Sweep
import Mathlib.Algebra.BigOperators.Group.Finset.Piecewise

/-!
# A census describes its trie

Every node that the root leads to is counted once. So the counts are sums over these
nodes, each branch is counted where it leads from, and over the buckets everything
adds up to what was counted of the nodes with branches.
-/

namespace ByteTrie

variable {V : Type}

namespace Store

variable {s : Store V}

/-- The nodes with branches that the root leads to. -/
def innerNodes (s : Store V) : Finset NodeId := {id ∈ s.liveNodes | s.children id ≠ []}

namespace Sound

theorem sum_nodesBelow_root (h : s.Sound) (weight : NodeId → Nat) :
    ((s.nodesBelow s.root).map weight).sum = ∑ id ∈ s.liveNodes, weight id :=
  (List.sum_toFinset weight (h.nodup_nodesBelow h.has_root)).symm

theorem degree_eq_zero_iff (h : s.Sound) {id : NodeId} (hid : id ∈ s.liveNodes) :
    s.degree id = 0 ↔ s.children id = [] := by
  rw [h.degree_eq (h.has_live ((h.mem_liveNodes id).mp hid)), List.length_eq_zero_iff]

theorem sum_innerNodes (h : s.Sound) (weight : NodeId → Nat) :
    ∑ id ∈ s.liveNodes, (if s.degree id = 0 then 0 else weight id) =
      ∑ id ∈ s.innerNodes, weight id := by
  rw [innerNodes, Finset.sum_filter]
  refine Finset.sum_congr rfl fun id hid => ?_
  rw [ite_not, if_congr (h.degree_eq_zero_iff hid) rfl rfl]

/-- Every node but the first is the branch of one other. -/
theorem sum_degree_nodesBelow (h : s.Sound) {id : NodeId} (hid : s.Has id) :
    ((s.nodesBelow id).map s.degree).sum + 1 = (s.nodesBelow id).length := by
  induction id, hid using h.induction with
  | step id hid ih =>
    have hbelow : ((s.children id).map fun child => (s.nodesBelow child).length).sum =
        ((s.children id).map fun child => ((s.nodesBelow child).map s.degree).sum).sum +
          (s.children id).length := by
      rw [List.map_congr_left fun child hchild => (ih child hchild).symm, List.sum_map_add,
        List.map_const', List.sum_replicate_nat, Nat.mul_one]
    rw [h.length_nodesBelow hid, hbelow, h.nodesBelow_eq hid, List.map_cons, List.sum_cons,
      List.map_flatMap, List.flatMap_def, List.sum_flatten, List.map_map, h.degree_eq hid,
      Function.comp_def]
    omega

end Sound

end Store

/-- What a census says of a store. -/
structure Census.Describes (c : Census) (s : Store V) : Prop where
  nodes : c.nodes = s.liveNodes.card
  leaves : c.leaves = Finset.card {id ∈ s.liveNodes | s.children id = []}
  inner : c.inner = s.innerNodes.card
  values : c.values = Finset.card {id ∈ s.liveNodes | (s.node id).value.isSome}
  slots : c.slots = ∑ id ∈ s.innerNodes, s.room id
  used : c.used + 1 = c.nodes
  height : IsGreatest {length | ∃ path, s.IsWayDown path ∧ path.length = length} c.height
  sorted : Bucket.Sorted c.buckets
  bucket_nodes : ∀ bucket ∈ c.buckets,
    bucket.2.nodes = Finset.card {id ∈ s.innerNodes | s.room id = bucket.1}
  bucket_branches : ∀ bucket ∈ c.buckets,
    bucket.2.branches = ∑ id ∈ s.innerNodes with s.room id = bucket.1, s.degree id
  sum_nodes : (c.buckets.map fun bucket => bucket.2.nodes).sum = c.inner
  sum_branches : (c.buckets.map fun bucket => bucket.2.branches).sum = c.used
  sum_slots : (c.buckets.map fun bucket => bucket.2.slots).sum = c.slots

namespace Trie

variable {t : Trie V} {m : Contents V}

/-- A count is the sum of what the live nodes add to it. -/
theorem census_eq_sum_liveNodes (h : t.store.Sound) (count : Census → Nat) {weight : NodeId → Nat}
    (hzero : count Census.zero = 0)
    (hadd : ∀ c id height, count (c.addNode t.store id height) = count c + weight id) :
    count t.census = ∑ id ∈ t.store.liveNodes, weight id :=
  (t.census_eq_sum hzero hadd).trans (h.sum_nodesBelow_root weight)

/-- What the buckets come to is the sum of what the nodes with branches bring to them. -/
theorem sum_buckets (h : t.store.Sound) (part : Nat × Bucket → Nat) (weight : Nat → Nat → Nat)
    (hfirst : ∀ capacity branches, part (capacity, Bucket.add ⟨capacity, 0, 0⟩ branches) =
      weight capacity branches)
    (hnext : ∀ under b branches, part (under, Bucket.add b branches) =
      part (under, b) + weight under branches) :
    (t.census.buckets.map part).sum =
      ∑ id ∈ t.store.innerNodes, weight (t.store.room id) (t.store.degree id) := by
  rw [← h.sum_innerNodes]
  refine census_eq_sum_liveNodes h (fun c => (c.buckets.map part).sum) rfl ?_
  intro c id height
  rw [Census.buckets_addNode]
  split
  · rw [Nat.add_zero]
  · exact Bucket.sum_count hfirst hnext _ _ _

theorem sorted_buckets (t : Trie V) : Bucket.Sorted t.census.buckets := by
  refine List.foldlRecOn (motive := fun c : Census => Bucket.Sorted c.buckets) _ _
    Bucket.sorted_nil ?_
  intro c hc node _
  rw [Census.buckets_addNode]
  split
  · exact hc
  · exact hc.count _ _

theorem census_values (h : t.Holds m) : t.census.values = t.size := by
  rw [t.census_eq_sum rfl fun _ _ _ => Census.values_addNode, size_eq, toList_eq h.sound,
    Store.itemsBelow_eq_filterMap]
  induction t.store.nodesBelow t.store.root with
  | nil => rfl
  | cons id rest ih =>
    rw [List.map_cons, List.sum_cons, ih, List.filterMap_cons, Node.item?]
    cases (t.store.node id).value with
    | none => exact Nat.zero_add _
    | some value => exact Nat.add_comm _ _

/-- A bucket holds what the nodes with branches have brought that have its capacity. -/
theorem bucket_eq_sum (h : t.store.Sound) {under : Nat} {b : Bucket}
    (hb : (under, b) ∈ t.census.buckets) (part : Bucket → Nat) (weight : Nat → Nat)
    (hempty : ∀ capacity, part ⟨capacity, 0, 0⟩ = 0)
    (hadd : ∀ b branches, part (b.add branches) = part b + weight branches) :
    part b = ∑ id ∈ t.store.innerNodes with t.store.room id = under,
      weight (t.store.degree id) := by
  rw [← t.sorted_buckets.sum_eq hb part, Finset.sum_filter]
  refine sum_buckets h _ (fun capacity branches =>
    if capacity = under then weight branches else 0) ?_ ?_
  · intro capacity branches
    simp only [hadd, hempty, Nat.zero_add]
  · intro under' b branches
    simp only [hadd]
    split <;> rfl

theorem census_inner (h : t.store.Sound) : t.census.inner = t.store.innerNodes.card := by
  rw [census_eq_sum_liveNodes h Census.inner rfl fun _ _ _ => Census.inner_addNode,
    h.sum_innerNodes, Finset.card_eq_sum_ones]

theorem census_used_eq_sum (h : t.store.Sound) :
    t.census.used = ∑ id ∈ t.store.innerNodes, t.store.degree id := by
  rw [census_used, h.sum_nodesBelow_root, ← h.sum_innerNodes]
  refine Finset.sum_congr rfl fun id _ => ?_
  split
  · assumption
  · rfl

theorem census_slots_eq_sum (h : t.store.Sound) :
    t.census.slots = ∑ id ∈ t.store.innerNodes, t.store.room id := by
  rw [census_eq_sum_liveNodes h Census.slots rfl fun _ _ _ => Census.slots_addNode,
    h.sum_innerNodes]

theorem describes_census (h : t.store.Sound) : t.census.Describes t.store where
  nodes := by
    rw [census_eq_sum_liveNodes h Census.nodes rfl fun _ _ _ => Census.nodes_addNode,
      Finset.card_eq_sum_ones]
  leaves := by
    rw [census_eq_sum_liveNodes h Census.leaves rfl fun _ _ _ => Census.leaves_addNode,
      Finset.card_filter]
    exact Finset.sum_congr rfl fun id hid => if_congr (h.degree_eq_zero_iff hid) rfl rfl
  inner := census_inner h
  values := by
    rw [census_eq_sum_liveNodes h Census.values rfl fun _ _ _ => Census.values_addNode,
      Finset.card_filter]
    refine Finset.sum_congr rfl fun id _ => ?_
    cases (t.store.node id).value <;> rfl
  slots := census_slots_eq_sum h
  used := by
    rw [census_used, census_nodes, h.sum_degree_nodesBelow h.has_root]
  height := h.isGreatest_height fun _ => t.census_height_le_iff
  sorted := t.sorted_buckets
  bucket_nodes bucket hbucket := by
    rw [Finset.card_eq_sum_ones]
    exact bucket_eq_sum h hbucket Bucket.nodes (fun _ => 1) (fun _ => rfl) fun _ _ => rfl
  bucket_branches bucket hbucket :=
    bucket_eq_sum h hbucket Bucket.branches id (fun _ => rfl) fun _ _ => rfl
  sum_nodes := by
    rw [census_inner h, Finset.card_eq_sum_ones]
    exact sum_buckets h (fun bucket => bucket.2.nodes) (fun _ _ => 1) (fun _ _ => rfl)
      fun _ _ _ => rfl
  sum_branches := by
    rw [census_used_eq_sum h]
    exact sum_buckets h (fun bucket => bucket.2.branches) (fun _ branches => branches)
      (fun _ _ => Nat.zero_add _) fun _ _ _ => rfl
  sum_slots := by
    have hown (bucket : Nat × Bucket) (hbucket : bucket ∈ t.census.buckets) :
        bucket.2.slots = bucket.1 * bucket.2.nodes := by
      rw [Bucket.slots, t.sorted_buckets.own bucket hbucket]
    rw [List.map_congr_left hown, census_slots_eq_sum h]
    exact sum_buckets h (fun bucket => bucket.1 * bucket.2.nodes) (fun capacity _ => capacity)
      (fun _ _ => Nat.mul_one _) fun _ _ _ => Nat.mul_succ _ _

/-- After any run of writes a sweep describes the trie: it comes to the numbers of the nodes that
the root leads to, of their values, branches and slots, and to the length of the longest way
down; and the buckets sort the nodes with branches by capacity. There are as many values as
entries, and as keys with an entry. -/
theorem run_sweep (sizing : Sizing) (entries : List (Key × V)) (writes : List (Write V)) :
    ∃ start answers t, ∃ keys : Finset Key, Trie.ofList sizing entries = .ok start ∧
      start.run writes = .ok (answers, t) ∧
      (∀ key, key ∈ keys ↔ t.contains key = .ok true) ∧
      (∀ id, id ∈ t.store.liveNodes ↔ t.store.Live id) ∧
      t.sweep.Describes t.store ∧ t.sweep.nodes = t.sweep.leaves + t.sweep.inner ∧
      t.sweep.values = t.size ∧ t.size = keys.card := by
  obtain ⟨start, answers, t, hstart, hrun, h⟩ := exists_written sizing entries writes
  have hdescribes := describes_census h.sound
  refine ⟨start, answers, t, ((Contents.ofList entries).run writes).2.keys, hstart, hrun,
    fun key => ?_, h.sound.mem_liveNodes, ?_⟩
  · rw [Finmap.mem_keys, h.holds.contains_iff_mem]
  rw [sweep_eq_census h.sound]
  refine ⟨hdescribes, ?_, census_values h.holds, h.holds.size_eq_card⟩
  rw [hdescribes.nodes, hdescribes.leaves, hdescribes.inner, Store.innerNodes,
    Finset.card_filter_add_card_filter_not]

end Trie

end ByteTrie
