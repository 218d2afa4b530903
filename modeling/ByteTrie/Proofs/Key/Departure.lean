import ByteTrie.Proofs.Key.CommonPrefix
import Mathlib.Data.Finset.Card
import Mathlib.Data.Finset.Lattice.Fold
import Mathlib.Data.Finset.Max
import Mathlib.Order.Lattice.Nat

/-!
# A key among others

Of a finite set of keys some one has most in common with a given key, and where the
two part, the key departs from the set. When the set has with any two of its keys
what they have in common, the key brings to it no more than itself and the stem up to
its departure. A key has a depth in a set, which is how many of its beginnings are
there; the key and the stem together make the greatest depth greater by one at most.
-/

namespace ByteTrie

namespace Key

variable {keys : Finset Key} {key stem other : Key}

/-- Any two keys have what they have in common with them. -/
def Closed (keys : Finset Key) : Prop :=
  ∀ a ∈ keys, ∀ b ∈ keys, commonPrefix a b ∈ keys

/-- How many beginnings of a key are among some keys. -/
def depth (keys : Finset Key) (key : Key) : Nat := Finset.card {other ∈ keys | other <+: key}

/-- The stem of a key is what it has in common with the one with which it has most. -/
structure Departs (keys : Finset Key) (key stem : Key) : Prop where
  common : ∃ other ∈ keys, commonPrefix key other = stem
  longest : ∀ other ∈ keys, (commonPrefix key other).length ≤ stem.length

theorem commonPrefix_eq_left (h : key <+: other) : commonPrefix key other = key :=
  (commonPrefix_isPrefix_left key other).eq_of_length_le
    (isPrefix_commonPrefix (List.prefix_refl key) h).length_le

/-- With a key that departs earlier another has the same in common. -/
theorem commonPrefix_eq_of_length_lt {a b : Key}
    (h : (commonPrefix key a).length < (commonPrefix key b).length) :
    commonPrefix b a = commonPrefix key a := by
  have hb := commonPrefix_isPrefix_left key b
  have hb' := commonPrefix_isPrefix_right key b
  have ha : commonPrefix key a <+: commonPrefix key b :=
    List.prefix_of_prefix_length_le (commonPrefix_isPrefix_left key a) hb (Nat.le_of_lt h)
  have hle := isPrefix_commonPrefix (ha.trans hb') (commonPrefix_isPrefix_right key a)
  refine (hle.eq_of_length_le ?_).symm
  rcases List.prefix_or_prefix_of_prefix (commonPrefix_isPrefix_left b a) hb' with hshort | hlong
  · exact (isPrefix_commonPrefix (hshort.trans hb) (commonPrefix_isPrefix_right b a)).length_le
  · have := (isPrefix_commonPrefix hb (hlong.trans (commonPrefix_isPrefix_right b a))).length_le
    omega

theorem exists_departs (hkeys : keys.Nonempty) (key : Key) : ∃ stem, Departs keys key stem := by
  obtain ⟨other, hother, hlongest⟩ :=
    keys.exists_max_image (fun other => (commonPrefix key other).length) hkeys
  exact ⟨_, ⟨other, hother, rfl⟩, hlongest⟩

theorem depth_mono {keys' : Finset Key} (h : keys ⊆ keys') (key : Key) :
    depth keys key ≤ depth keys' key :=
  Finset.card_le_card (Finset.filter_subset_filter _ h)

namespace Departs

theorem isPrefix (h : Departs keys key stem) : stem <+: key := by
  obtain ⟨other, -, rfl⟩ := h.common
  exact commonPrefix_isPrefix_left key other

/-- What a key has in common with another is its stem, or is among the keys already. -/
theorem eq_or_mem (h : Departs keys key stem) (hclosed : Closed keys) (hother : other ∈ keys) :
    commonPrefix key other = stem ∨ commonPrefix key other ∈ keys := by
  obtain ⟨nearest, hnearest, rfl⟩ := h.common
  rcases Nat.lt_or_eq_of_le (h.longest other hother) with hlt | heq
  · rw [← commonPrefix_eq_of_length_lt hlt]
    exact Or.inr (hclosed nearest hnearest other hother)
  · refine Or.inl (List.IsPrefix.eq_of_length ?_ heq)
    exact List.prefix_of_prefix_length_le (commonPrefix_isPrefix_left key other) h.isPrefix
      (Nat.le_of_eq heq)

/-- The stem begins with all beginnings of the key that are among the keys. -/
theorem isPrefix_stem (h : Departs keys key stem) (hother : other ∈ keys) (hkey : other <+: key) :
    other <+: stem := by
  have hle := h.longest other hother
  rw [commonPrefix_comm, commonPrefix_eq_left hkey] at hle
  exact List.prefix_of_prefix_length_le hkey h.isPrefix hle

/-- A key that another begins with is its own stem. -/
theorem stem_eq (h : Departs keys key stem) (hother : other ∈ keys) (hkey : key <+: other) :
    stem = key := by
  have hle := h.longest other hother
  rw [commonPrefix_eq_left hkey] at hle
  exact h.isPrefix.eq_of_length_le hle

/-- What a key brings along: nothing, itself or its stem, or both. -/
theorem card_insert (h : Departs keys key stem) : ∃ grown ≤ 2,
    (insert key (insert stem keys)).card = keys.card + grown ∧ (grown = 0 ↔ key ∈ keys) ∧
      (grown = 2 ↔ stem ∉ keys ∧ stem ≠ key) := by
  by_cases hkey : key ∈ keys
  · obtain rfl := h.stem_eq hkey (List.prefix_refl key)
    refine ⟨0, Nat.zero_le 2, ?_, by simp [hkey], by simp [hkey]⟩
    rw [Finset.insert_eq_of_mem hkey, Finset.insert_eq_of_mem hkey]
    rfl
  · by_cases hstem : stem ∈ keys
    · refine ⟨1, Nat.le_succ 1, ?_, by simp [hkey], by simp [hstem]⟩
      rw [Finset.insert_eq_of_mem hstem, Finset.card_insert_of_notMem hkey]
    · by_cases heq : stem = key
      · subst heq
        refine ⟨1, Nat.le_succ 1, ?_, by simp [hkey], by simp⟩
        rw [Finset.insert_idem, Finset.card_insert_of_notMem hkey]
      · refine ⟨2, Nat.le_refl 2, ?_, by simp [hkey], by simp [hstem, heq]⟩
        have hkey' : key ∉ insert stem keys :=
          Finset.mem_insert.not.mpr (not_or.mpr ⟨Ne.symm heq, hkey⟩)
        rw [Finset.card_insert_of_notMem hkey', Finset.card_insert_of_notMem hstem]

/-! ### Depths -/

/-- The stem and its beginnings are no more than those of some key. -/
theorem card_insert_stem_le (h : Departs keys key stem) :
    (insert stem {other ∈ keys | other <+: stem}).card ≤ keys.sup (depth keys) := by
  by_cases hstem : stem ∈ keys
  · have hself : stem ∈ keys.filter (· <+: stem) :=
      Finset.mem_filter.mpr ⟨hstem, List.prefix_refl stem⟩
    rw [Finset.insert_eq_of_mem hself]
    exact Finset.le_sup (f := depth keys) hstem
  · -- The key that the stem comes from begins with the stem, and counts in its place.
    obtain ⟨nearest, hnearest, hcommon⟩ := h.common
    have hbegins : stem <+: nearest := hcommon ▸ commonPrefix_isPrefix_right key nearest
    have hsub : keys.filter (· <+: stem) ⊆ (keys.filter (· <+: nearest)).erase nearest := by
      intro other hother
      obtain ⟨hmem, hshort⟩ := Finset.mem_filter.mp hother
      refine Finset.mem_erase.mpr ⟨?_, Finset.mem_filter.mpr ⟨hmem, hshort.trans hbegins⟩⟩
      rintro rfl
      exact hstem (hbegins.eq_of_length_le hshort.length_le ▸ hnearest)
    have hself : nearest ∈ keys.filter (· <+: nearest) :=
      Finset.mem_filter.mpr ⟨hnearest, List.prefix_refl nearest⟩
    calc (insert stem (keys.filter (· <+: stem))).card
        ≤ (keys.filter (· <+: stem)).card + 1 := Finset.card_insert_le _ _
      _ ≤ ((keys.filter (· <+: nearest)).erase nearest).card + 1 :=
          Nat.succ_le_succ (Finset.card_le_card hsub)
      _ = depth keys nearest := Finset.card_erase_add_one hself
      _ ≤ keys.sup (depth keys) := Finset.le_sup (f := depth keys) hnearest

/-- Unless a key begins with the new one, only the stem is new among its beginnings. -/
theorem filter_insert_subset (hkey : key <+: other → stem = key) :
    (insert key (insert stem keys)).filter (· <+: other) ⊆
      insert stem (keys.filter (· <+: other)) := by
  intro short hshort
  obtain ⟨hmem, hbegins⟩ := Finset.mem_filter.mp hshort
  rcases Finset.mem_insert.mp hmem with rfl | hmem
  · exact hkey hbegins ▸ Finset.mem_insert_self _ _
  · rcases Finset.mem_insert.mp hmem with rfl | hmem
    · exact Finset.mem_insert_self _ _
    · exact Finset.mem_insert_of_mem (Finset.mem_filter.mpr ⟨hmem, hbegins⟩)

/-- The beginnings of a key are those of its stem, and itself. -/
theorem filter_insert_subset_self (h : Departs keys key stem) :
    (insert key (insert stem keys)).filter (· <+: key) ⊆
      insert key (insert stem (keys.filter (· <+: stem))) := by
  intro short hshort
  obtain ⟨hmem, hbegins⟩ := Finset.mem_filter.mp hshort
  refine Finset.mem_insert.mpr ((Finset.mem_insert.mp hmem).imp id fun hmem => ?_)
  refine Finset.mem_insert.mpr ((Finset.mem_insert.mp hmem).imp id fun hmem => ?_)
  exact Finset.mem_filter.mpr ⟨hmem, h.isPrefix_stem hmem hbegins⟩

theorem depth_insert_le (h : Departs keys key stem)
    (hother : other ∈ insert key (insert stem keys)) :
    depth (insert key (insert stem keys)) other ≤ keys.sup (depth keys) + 1 := by
  have hstem := h.card_insert_stem_le
  rcases Finset.mem_insert.mp hother with rfl | hother
  · calc depth (insert other (insert stem keys)) other
        ≤ (insert other (insert stem (keys.filter (· <+: stem)))).card :=
          Finset.card_le_card h.filter_insert_subset_self
      _ ≤ (insert stem (keys.filter (· <+: stem))).card + 1 := Finset.card_insert_le _ _
      _ ≤ keys.sup (depth keys) + 1 := Nat.succ_le_succ hstem
  · rcases Finset.mem_insert.mp hother with rfl | hother
    · have hsub : (insert key (insert other keys)).filter (· <+: other) ⊆ _ :=
        filter_insert_subset fun hkey => h.isPrefix.eq_of_length_le hkey.length_le
      exact Nat.le_succ_of_le (Nat.le_trans (Finset.card_le_card hsub) hstem)
    · calc depth (insert key (insert stem keys)) other
          ≤ (insert stem (keys.filter (· <+: other))).card :=
            Finset.card_le_card (filter_insert_subset (h.stem_eq hother))
        _ ≤ depth keys other + 1 := Finset.card_insert_le _ _
        _ ≤ keys.sup (depth keys) + 1 := Nat.succ_le_succ (Finset.le_sup (f := depth keys) hother)

theorem sup_depth_insert_le (h : Departs keys key stem) :
    (insert key (insert stem keys)).sup (depth (insert key (insert stem keys))) ≤
      keys.sup (depth keys) + 1 :=
  Finset.sup_le fun _ hother => h.depth_insert_le hother

end Departs

end Key

end ByteTrie
