import ByteTrie.Proofs.Store.Keys
import ByteTrie.Proofs.Store.Room
import Mathlib.Algebra.Order.BigOperators.Group.Finset
import Mathlib.Algebra.Order.Group.Nat

/-!
# Slots are not lost

After an insertion there is a node wherever there was one, though it may be another.
Its row is the old one, or it was made for the branches that the node now has; and as
these are no fewer than before, and an old row was made for no more than it holds, the
new row is no smaller.
-/

namespace ByteTrie

variable {V : Type}

namespace Store

variable {s s' : Store V} {sizing : Sizing} {key : Key} {value : V} {id id' : NodeId}

theorem room_of_row_none (h : (s.node id).row = none) : s.room id = 0 := by
  simp [room, branches?, h]

theorem room_of_row_some {row : RowId} (h : (s.node id).row = some row) :
    s.room id = (s.row row).capacity := by
  simp [room, branches?, h]

/-- A node with the key of an old one that has an old row has that node's row. -/
theorem Wrote.row_of_key_eq (h : Wrote key value s s') (hs : s.Sound) (hs' : s'.Sound)
    (hlive : s.Live id) (hlive' : s'.Live id') (hkey : s'.key id' = s.key id) {row : RowId}
    (hrow : (s'.node id').row = some row) (hhas : s.HasRow row) : (s.node id).row = some row := by
  obtain ⟨owner, howner, hrow'⟩ := h.liveRow_of_liveRow hs ⟨id', hlive', hrow⟩ hhas
  have hid := hs.has_live howner
  have hpath := (hs'.rowSound (hs'.has_live hlive') hrow).path_unique
    (hs'.rowSound (h.has _ hid) ((h.row_eq hid).trans hrow'))
  rw [hkey, h.key_eq hid] at hpath
  rwa [hs.eq_of_key_eq hs.has_root hlive howner hpath]

namespace Outcome

/-- Where there was a node, there is one with no less room. -/
theorem room_le (ho : s.Outcome sizing key value s') (hs : s.Sound) (hs' : s'.Sound)
    (hserved : s.Served sizing) (hkeys : s.liveKeys ⊆ s'.liveKeys) (hlive : s.Live id)
    (hlive' : s'.Live id') (hkey : s'.key id' = s.key id) : s.room id ≤ s'.room id' := by
  cases hrow : (s.node id).row with
  | none =>
    rw [room_of_row_none hrow]
    exact Nat.zero_le _
  | some row =>
    have hsound := hs.rowSound (hs.has_live hlive) hrow
    have hlength := hs.length_entriesAt_le hs' hkeys hlive hlive' hkey
    rw [entriesAt_of_row_some hrow] at hlength
    cases hrow' : (s'.node id').row with
    | none =>
      rw [entriesAt_of_row_none hrow', List.length_nil, Nat.le_zero,
        List.length_eq_zero_iff] at hlength
      exact absurd hlength hsound.inhabited
    | some row' =>
      rw [room_of_row_some hrow, room_of_row_some hrow']
      have hsound' := hs'.rowSound (hs'.has_live hlive') hrow'
      obtain ⟨spot, hspot⟩ := (ho.published hs).exists_publication hs hs'
      obtain ⟨hwrote, -⟩ := (ho.published hs).wrote hs hs'
      by_cases hhas : s.HasRow row'
      · have hsame := hwrote.row_of_key_eq hs hs' hlive hlive' hkey hrow' hhas
        obtain rfl := Option.some.inj (hrow.symm.trans hsame)
        exact Nat.le_of_eq (hspot.keeps.row row hhas).capacity.symm
      · rw [entriesAt_of_row_some hrow', hsound.sound.length_entries,
          hsound'.sound.length_entries] at hlength
        exact (ho.fits hs hhas).le_of_serves (hserved row ⟨id, hlive, hrow⟩) hlength

/-- The live nodes have together no less room than before. -/
theorem sum_room_le (ho : s.Outcome sizing key value s') (hs : s.Sound) (hs' : s'.Sound)
    (hserved : s.Served sizing) (hkeys : s.liveKeys ⊆ s'.liveKeys) :
    ∑ id ∈ s.liveNodes, s.room id ≤ ∑ id ∈ s'.liveNodes, s'.room id := by
  have hnext (id : NodeId) (hid : id ∈ s.liveNodes) :
      ∃ id' ∈ s'.liveNodes, s'.key id' = s.key id := by
    obtain ⟨id', hlive', hkey⟩ :=
      hs'.mem_liveKeys.mp (hkeys (hs.key_mem_liveKeys ((hs.mem_liveNodes id).mp hid)))
    exact ⟨id', (hs'.mem_liveNodes id').mpr hlive', hkey⟩
  choose! next hmem hkey using hnext
  have hinj : Set.InjOn next s.liveNodes := by
    intro a ha b hb heq
    refine hs.eq_of_key_eq hs.has_root ((hs.mem_liveNodes a).mp ha) ((hs.mem_liveNodes b).mp hb) ?_
    rw [← hkey a ha, ← hkey b hb, heq]
  calc ∑ id ∈ s.liveNodes, s.room id
      ≤ ∑ id ∈ s.liveNodes, s'.room (next id) := Finset.sum_le_sum fun id hid =>
        ho.room_le hs hs' hserved hkeys ((hs.mem_liveNodes id).mp hid)
          ((hs'.mem_liveNodes _).mp (hmem id hid)) (hkey id hid)
    _ = ∑ id ∈ s.liveNodes.image next, s'.room id := (Finset.sum_image hinj).symm
    _ ≤ ∑ id ∈ s'.liveNodes, s'.room id :=
        Finset.sum_le_sum_of_subset (Finset.image_subset_iff.mpr hmem)

end Outcome

end Store

end ByteTrie
