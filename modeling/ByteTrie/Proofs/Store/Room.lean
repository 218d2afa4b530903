import ByteTrie.Proofs.Store.Retirement
import ByteTrie.Proofs.Store.Spot

/-!
# The capacities of rows

A row is given its capacity when it is made. It keeps that when a branch is
appended, when a branch is replaced, and when another node takes it over from the
one that was cut. So what is to be known of the row of a live node is with how many
branches it was made, and these have not become fewer.
-/

namespace ByteTrie

theorem Branches.Built.fits {α : Type} {sizing : Sizing} {entries : List (UInt8 × α)}
    {b : Branches α} (h : b.Built sizing entries) : sizing.Fits b.count b.capacity :=
  ⟨h.sound.count_le, h.capacity⟩

namespace Store

variable {V : Type} {s g s' : Store V} {sizing : Sizing} {key : Key} {value : V} {row : RowId}

/-- How many slots the row of a node has. -/
def room (s : Store V) (id : NodeId) : Nat := (s.branches? id).elim 0 Branches.capacity

/-- The rows of live nodes have capacities that were chosen for them. -/
def Served (s : Store V) (sizing : Sizing) : Prop :=
  ∀ row, s.LiveRow row → sizing.Serves (s.row row).count (s.row row).capacity

theorem fits_of_not_hasRow (hrow : ¬s.HasRow row) :
    sizing.Fits (s.row row).count (s.row row).capacity := by
  rw [row_of_not_hasRow hrow]
  exact .zero sizing

theorem row_grownWidened (s : Store V) (id : NodeId) (b : Branches NodeId) (row : RowId) :
    (s.grownWidened id b).row row = if row = ⟨s.rows.size⟩ then b else s.row row := by
  rw [grownWidened, row_addNode, row_addRow]

namespace Installed

variable {new : NodeId} {place : Place}

/-- A new row is not the one that a new node is put into. -/
theorem row_eq (h : g.Installed new place s') (hgrows : s.Grows g) (hs : s.Sound)
    (hplaced : s.Placed place) (hrow : ¬s.HasRow row) : s'.row row = g.row row := by
  cases h with
  | root => rfl
  | branch =>
    have hhas := hs.has_liveRow (hplaced.liveRow hs)
    have hne : row ≠ _ := fun heq => hrow (heq ▸ hhas)
    rw [row_setRow (hgrows.hasRow _ hhas), if_neg hne]

/-- The one row that has been made has the capacity that was chosen for it. -/
theorem fits (h : g.Installed new place s') (hgrows : s.Grows g) (hs : s.Sound)
    (hplaced : s.Placed place) (hrow : ¬s.HasRow row) {entries : List (UInt8 × NodeId)}
    {b : Branches NodeId} (hb : b.Built sizing entries) {made : RowId}
    (hmade : g.row row = if row = made then b else s.row row) :
    sizing.Fits (s'.row row).count (s'.row row).capacity := by
  rw [h.row_eq hgrows hs hplaced hrow, hmade]
  split
  · exact hb.fits
  · exact fits_of_not_hasRow hrow

end Installed

namespace Outcome

/-- The rows that an insertion makes have the capacity that is chosen for what they hold. -/
theorem fits (ho : s.Outcome sizing key value s') (hs : s.Sound) (hrow : ¬s.HasRow row) :
    sizing.Fits (s'.row row).count (s'.row row).capacity := by
  cases ho with
  | valued => exact fits_of_not_hasRow hrow
  | @appended place byte rest other changed hplaced _ howner _ =>
    have hhas := (hs.rowSound (hs.has_live (hplaced.live hs)) howner).has
    have hne : row ≠ other := fun heq => hrow (heq ▸ hhas)
    rw [row_setRow ((grows_withLeaf s _ byte rest value).hasRow other hhas), if_neg hne]
    exact fits_of_not_hasRow hrow
  | @widened place index byte rest b s' hplaced _ _ hb hinstalled =>
    have hgrows := (s.grows_withLeaf (s.key place.node) byte rest value).trans
      (grows_grownWidened _ place.node b)
    exact hinstalled.fits hgrows hs hplaced hrow hb (row_grownWidened _ _ b row)
  | @cut place length _ b s' hplaced _ _ _ hb hinstalled =>
    have hgrows := grows_grownUpper s place.node length (some value) b
    exact hinstalled.fits hgrows hs hplaced hrow hb (row_grownUpper s _ _ _ b row)
  | @forked place length _ byte rest b s' hplaced _ _ _ _ hb hinstalled =>
    have hgrows := (s.grows_withLeaf (s.read place.node length) byte rest value).trans
      (grows_grownUpper _ place.node length none b)
    exact hinstalled.fits hgrows hs hplaced hrow hb (row_grownUpper _ _ _ _ b row)

/-- However an insertion ends, no row is left with a capacity that was not chosen for it. -/
theorem served (ho : s.Outcome sizing key value s') (hs : s.Sound) (hs' : s'.Sound)
    (h : s.Served sizing) : s'.Served sizing := by
  intro row hlive
  by_cases hrow : s.HasRow row
  · -- What one publication does to an old row can only fill it further.
    obtain ⟨spot, hspot⟩ := (ho.published hs).exists_publication hs hs'
    obtain ⟨hwrote, -⟩ := (ho.published hs).wrote hs hs'
    have hkeeps := hspot.keeps.row row hrow
    have hsound : (s'.row row).Sound := by
      obtain ⟨owner, howner, hrow'⟩ := hlive
      exact (hs'.rowSound (hs'.has_live howner) hrow').sound
    rw [hkeeps.capacity]
    exact (h row (hwrote.liveRow_of_liveRow hs hlive hrow)).mono hkeeps.count_le
      (hkeeps.capacity ▸ hsound.count_le)
  · exact (ho.fits hs hrow).serves

end Outcome

theorem served_reset (s : Store V) (sizing : Sizing) : s.reset.Served sizing :=
  fun row hlive => absurd hlive (not_liveRow_reset row)

theorem served_empty (sizing : Sizing) : (Store.empty : Store V).Served sizing :=
  fun _ hlive => absurd (sound_empty.has_liveRow hlive) (Nat.not_lt_zero _)

/-! ### The row of a node -/

/-- A node without branches has no row. -/
theorem Sound.room_eq_zero (h : s.Sound) {id : NodeId} (hid : s.Has id)
    (hdegree : s.degree id = 0) : s.room id = 0 := by
  cases hrow : (s.node id).row with
  | none => simp [room, branches?, hrow]
  | some row =>
    have hsound := h.rowSound hid hrow
    have hcount : s.degree id = (s.row row).count := by simp [degree, branches?, hrow]
    rw [hcount, ← hsound.sound.length_entries, List.length_eq_zero_iff] at hdegree
    exact absurd hdegree hsound.inhabited

namespace Served

variable {id : NodeId} {b : Branches NodeId}

theorem serves (h : s.Served sizing) (hlive : s.Live id) (hb : b ∈ s.branches? id) :
    sizing.Serves b.count b.capacity := by
  obtain ⟨row, hrow, rfl⟩ := Option.map_eq_some_iff.mp hb
  exact h row ⟨id, hlive, hrow⟩

theorem degree_le_room (h : s.Served sizing) (hlive : s.Live id) : s.degree id ≤ s.room id := by
  rw [degree, room]
  cases hb : s.branches? id with
  | none => exact Nat.le_refl 0
  | some b => exact (h.serves hlive hb).1

theorem room_eq_degree (h : s.Served .exact) (hlive : s.Live id) : s.room id = s.degree id := by
  rw [degree, room]
  cases hb : s.branches? id with
  | none => rfl
  | some b => exact (h.serves hlive hb).allows

end Served

end Store

end ByteTrie
