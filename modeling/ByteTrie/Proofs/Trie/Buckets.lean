import ByteTrie.Trie.Census
import Mathlib.Algebra.BigOperators.Group.List.Basic
import Mathlib.Algebra.Ring.Nat

/-!
# Nodes in buckets

The buckets are in the order of the capacities that they stand under, and a node
goes into the one under its own. So no bucket stands under another's capacity, what
nodes bring to the buckets adds up, and the order in which they come does not
matter.
-/

namespace ByteTrie

namespace Bucket

variable {capacity branches : Nat} {buckets : List (Nat × Bucket)}

/-- The capacities ascend, and each bucket stands under its own. -/
structure Sorted (buckets : List (Nat × Bucket)) : Prop where
  ascending : (buckets.map Prod.fst).Pairwise (· < ·)
  own : ∀ bucket ∈ buckets, bucket.1 = bucket.2.capacity

theorem sorted_nil : Sorted [] := ⟨.nil, by simp⟩

theorem sorted_cons_iff {under : Nat} {b : Bucket} :
    Sorted ((under, b) :: buckets) ↔
      under = b.capacity ∧ (∀ bucket ∈ buckets, under < bucket.1) ∧ Sorted buckets := by
  constructor
  · rintro ⟨hascending, hown⟩
    rw [List.map_cons, List.pairwise_cons, List.forall_mem_map] at hascending
    exact ⟨hown _ List.mem_cons_self, hascending.1, hascending.2,
      fun bucket hbucket => hown bucket (List.mem_cons_of_mem _ hbucket)⟩
  · rintro ⟨heq, hbelow, hascending, hown⟩
    refine ⟨?_, List.forall_mem_cons.mpr ⟨heq, hown⟩⟩
    rw [List.map_cons, List.pairwise_cons, List.forall_mem_map]
    exact ⟨hbelow, hascending⟩

/-- Counting a node begins no bucket but under its capacity. -/
theorem forall_mem_count {P : Nat → Prop} (h : P capacity)
    (hbuckets : ∀ bucket ∈ buckets, P bucket.1) :
    ∀ bucket ∈ count capacity branches buckets, P bucket.1 := by
  induction buckets with
  | nil => simpa [count] using h
  | cons bucket rest ih =>
    obtain ⟨under, b⟩ := bucket
    obtain ⟨hunder, hrest⟩ := List.forall_mem_cons.mp hbuckets
    rw [count]
    split
    · exact List.forall_mem_cons.mpr ⟨h, hbuckets⟩
    · split
      · exact List.forall_mem_cons.mpr ⟨hunder, hrest⟩
      · exact List.forall_mem_cons.mpr ⟨hunder, ih hrest⟩

theorem Sorted.count (h : Sorted buckets) (capacity branches : Nat) :
    Sorted (count capacity branches buckets) := by
  induction buckets with
  | nil => exact sorted_cons_iff.mpr ⟨rfl, by simp, sorted_nil⟩
  | cons bucket rest ih =>
    obtain ⟨under, b⟩ := bucket
    obtain ⟨heq, hbelow, hrest⟩ := sorted_cons_iff.mp h
    rw [Bucket.count]
    split
    · rename_i hlt
      refine sorted_cons_iff.mpr ⟨rfl, List.forall_mem_cons.mpr ⟨hlt, ?_⟩, h⟩
      exact fun bucket hbucket => Nat.lt_trans hlt (hbelow bucket hbucket)
    · rename_i hle
      split
      · exact sorted_cons_iff.mpr ⟨heq, hbelow, hrest⟩
      · rename_i hne
        refine sorted_cons_iff.mpr ⟨heq, forall_mem_count ?_ hbelow, ih hrest⟩
        omega

/-- What a node brings to its bucket is added to the sum over all buckets. -/
theorem sum_count {part : Nat × Bucket → Nat} {weight : Nat → Nat → Nat}
    (hfirst : ∀ capacity branches, part (capacity, add ⟨capacity, 0, 0⟩ branches) =
      weight capacity branches)
    (hnext : ∀ under b branches, part (under, b.add branches) =
      part (under, b) + weight under branches) (capacity branches : Nat)
    (buckets : List (Nat × Bucket)) :
    ((count capacity branches buckets).map part).sum =
      (buckets.map part).sum + weight capacity branches := by
  induction buckets with
  | nil => simp [count, hfirst]
  | cons bucket rest ih =>
    obtain ⟨under, b⟩ := bucket
    rw [count]
    split
    · rw [List.map_cons, List.sum_cons, hfirst, Nat.add_comm]
    · split
      · rename_i heq
        rw [List.map_cons, List.map_cons, List.sum_cons, List.sum_cons, hnext, heq,
          Nat.add_right_comm]
      · rw [List.map_cons, List.map_cons, List.sum_cons, List.sum_cons, ih, Nat.add_assoc]

/-- No two buckets stand under the same capacity, so one can be picked out of a sum. -/
theorem Sorted.sum_eq (h : Sorted buckets) {under : Nat} {b : Bucket}
    (hb : (under, b) ∈ buckets) (part : Bucket → Nat) :
    (buckets.map fun bucket => if bucket.1 = under then part bucket.2 else 0).sum = part b := by
  induction buckets with
  | nil => cases hb
  | cons bucket rest ih =>
    obtain ⟨first, other⟩ := bucket
    obtain ⟨-, hbelow, hrest⟩ := sorted_cons_iff.mp h
    rw [List.map_cons, List.sum_cons]
    rcases List.mem_cons.mp hb with heq | hlater
    · obtain ⟨rfl, rfl⟩ := Prod.mk.inj heq
      have hzero : ∀ bucket ∈ rest, (if bucket.1 = under then part bucket.2 else 0) = 0 :=
        fun bucket hbucket => if_neg (Nat.ne_of_gt (hbelow bucket hbucket))
      rw [if_pos rfl, List.map_congr_left hzero, List.map_const', List.sum_replicate_nat,
        Nat.mul_zero, Nat.add_zero]
    · rw [if_neg (Nat.ne_of_lt (hbelow _ hlater)), Nat.zero_add, ih hrest hlater]

theorem count_comm (capacity branches capacity' branches' : Nat)
    (buckets : List (Nat × Bucket)) :
    count capacity branches (count capacity' branches' buckets) =
      count capacity' branches' (count capacity branches buckets) := by
  induction buckets with
  | nil => grind [count, add]
  | cons bucket rest ih =>
    obtain ⟨under, b⟩ := bucket
    grind [count, add]

end Bucket

end ByteTrie
