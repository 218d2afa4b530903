import ByteTrie.Proofs.Store.Insertion
import ByteTrie.Proofs.Store.Retirement

/-!
# No node without need

Below the root a node is there because a key ends with it or because keys part
at it: it has a value, or at least two branches. No write takes a value or a
branch from a node, so only the new nodes have to be looked at. A leaf has a
value, the first part of a cut node has a value or a sibling for the rest, and
every other new node has come in the place of one that was needed.
-/

namespace ByteTrie

namespace Store

variable {V : Type} {s g s' : Store V} {key : Key} {value : V}

/-- A key ends with a node, or keys part at it. -/
def Needed (s : Store V) (id : NodeId) : Prop :=
  (s.node id).value.isSome ∨ 2 ≤ (s.children id).length

/-- Below the root the nodes are needed. -/
def Compact (s : Store V) : Prop := ∀ id, s.Live id → id ≠ s.root → s.Needed id

theorem Needed.of_le {id id' : NodeId} (h : s.Needed id)
    (hvalue : (s.node id).value.isSome → (s'.node id').value.isSome)
    (hchildren : (s.children id).length ≤ (s'.children id').length) : s'.Needed id' :=
  h.imp hvalue fun htwo => Nat.le_trans htwo hchildren

theorem Sound.eq_root_of_key_eq_nil (h : s.Sound) {id : NodeId} (hlive : s.Live id)
    (hkey : s.key id = []) : id = s.root :=
  h.eq_of_key_eq h.has_root hlive Relation.ReflTransGen.refl (hkey.trans h.key_root.symm)

/-! ### What was there -/

namespace Wrote

theorem length_children_le (h : Wrote key value s s') (hs : s.Sound) {id : NodeId}
    (hid : s.Has id) : (s.children id).length ≤ (s'.children id).length := by
  cases hrow : (s.node id).row with
  | none => simp [children_of_row_none hrow]
  | some row =>
    rw [children_of_row_some hrow, children_of_row_some ((h.row_eq hid).trans hrow),
      List.length_map, List.length_map]
    exact (h.regrown (hs.rowSound hid hrow).has).length_le

/-- A node that was needed is so still. -/
theorem needed (h : Wrote key value s s') (hs : s.Sound) {id : NodeId} (hid : s.Has id)
    (hneeded : s.Needed id) : s'.Needed id := by
  refine hneeded.of_le (fun hvalue => ?_) (h.length_children_le hs hid)
  rcases h.node id hid with heq | ⟨-, -, heq⟩
  · rw [heq]
    exact hvalue
  · rw [heq]
    rfl

end Wrote

theorem Keeps.needed (h : s.Keeps g) (hs : s.Sound) {id : NodeId} (hid : s.Has id)
    (hneeded : s.Needed id) : g.Needed id :=
  hneeded.of_le (fun hvalue => by rwa [h.node id hid]) (by rw [h.children_eq hs hid])

namespace Installed

variable {new : NodeId} {place : Place}

theorem node_eq (h : s.Installed new place s') (id : NodeId) : s'.node id = s.node id := by
  cases h <;> rfl

theorem has_iff (h : s.Installed new place s') (id : NodeId) : s'.Has id ↔ s.Has id := by
  cases h <;> exact Iff.rfl

theorem length_children (h : s.Installed new place s') (id : NodeId) :
    (s'.children id).length = (s.children id).length := by
  cases h with
  | root => rfl
  | @branch row index old byte changed hheld _ _ hentries =>
    have hhas : s.HasRow row := by
      by_contra hhas
      rw [row_of_not_hasRow hhas, Branches.entries_blank] at hheld
      cases hheld
    cases howner : (s.node id).row with
    | none =>
      have howner' : ((s.setRow row changed).node id).row = none := howner
      rw [children_of_row_none howner, children_of_row_none howner']
    | some other =>
      have howner' : ((s.setRow row changed).node id).row = some other := howner
      rw [children_of_row_some howner, children_of_row_some howner', List.length_map,
        List.length_map, row_setRow hhas]
      split
      · rename_i heq
        rw [hentries, List.length_set, heq]
      · rfl

theorem needed (h : s.Installed new place s') {id : NodeId} (hneeded : s.Needed id) :
    s'.Needed id :=
  hneeded.of_le (fun hvalue => by rwa [h.node_eq]) (Nat.le_of_eq (h.length_children id).symm)

end Installed

/-! ### What is new -/

theorem has_grownWidened_iff (s : Store V) (id : NodeId) (b : Branches NodeId) (other : NodeId) :
    (s.grownWidened id b).Has other ↔ s.Has other ∨ other = ⟨s.nodes.size⟩ :=
  has_addNode _ _ _

/-- A node with one branch more is needed if the one in whose place it comes was. -/
theorem needed_grownWidened {id child : NodeId} {index : Nat} {byte : UInt8} {b : Branches NodeId}
    (h : s.Needed id) (hentries : b.entries =
      (s.entriesAt id).take index ++ (byte, child) :: (s.entriesAt id).drop index) :
    (s.grownWidened id b).Needed ⟨s.nodes.size⟩ := by
  refine h.of_le (fun hvalue => ?_) ?_
  · rw [node_grownWidened]
    exact hvalue
  · rw [children_eq_map_entriesAt, children_eq_map_entriesAt, entriesAt_grownWidened, hentries]
    simp only [List.length_map, List.length_append, List.length_cons, List.length_take,
      List.length_drop]
    omega

/-- The leaf of an insertion has a value. -/
theorem needed_withLeaf {path : Key} {byte : UInt8} {rest : Key} {id : NodeId}
    (hhas : (s.withLeaf path byte rest value).Has id) (hid : ¬s.Has id) :
    (s.withLeaf path byte rest value).Needed id := by
  obtain rfl := ((has_addNode _ _ _).mp hhas).resolve_left hid
  refine Or.inl ?_
  rw [node_withLeaf_self]
  rfl

/-- Of the parts of a cut node the rest is needed if the node was, and the first
for its value or for the sibling of the rest. -/
theorem needed_grownUpper (hs : s.Sound) {id other : NodeId} (hid : s.Has id) (h : s.Needed id)
    {cut : Nat} {held : Option V} {b : Branches NodeId} (hb : held.isSome ∨ 2 ≤ b.entries.length)
    (hhas : (s.grownUpper id cut held b).Has other) (hother : ¬s.Has other) :
    (s.grownUpper id cut held b).Needed other := by
  have hgrows := grows_grownUpper s id cut held b
  rcases ((has_grownUpper s id cut held b other).mp hhas).resolve_left hother with rfl | rfl
  · have hchildren : (s.grownUpper id cut held b).children ⟨s.nodes.size⟩ = s.children id := by
      rw [← hgrows.children_eq hs hid, children, children, branches?, branches?,
        node_lower_grownUpper, hgrows.node id hid]
      rfl
    refine h.of_le (fun hvalue => ?_) (Nat.le_of_eq (by rw [hchildren]))
    rw [node_lower_grownUpper]
    exact hvalue
  · refine hb.imp (fun hheld => ?_) fun htwo => ?_
    · rw [node_upper_grownUpper]
      exact hheld
    · rw [children_eq_map_entriesAt, entriesAt_upper_grownUpper, List.length_map]
      exact htwo

/-- A node that has been cut was needed. -/
theorem Compact.needed_of_get? (hc : s.Compact) (hs : s.Sound) {place : Place}
    (hplaced : s.Placed place) {length : Nat} {next : UInt8}
    (hnext : (s.node place.node).segment.get? length = some next) : s.Needed place.node := by
  refine hc _ (hplaced.live hs) fun heq => ?_
  have hlt := Segment.lt_length_of_get? hnext
  rw [heq, hs.length_root] at hlt
  exact Nat.not_lt_zero _ hlt

namespace Outcome

variable {sizing : Sizing}

/-- What an insertion has made is needed, below the root. -/
theorem needed_of_not_has (ho : s.Outcome sizing key value s') (hs : s.Sound) (hs' : s'.Sound)
    (hc : s.Compact) {id : NodeId} (hlive : s'.Live id) (hroot : id ≠ s'.root)
    (hid : ¬s.Has id) : s'.Needed id := by
  have hhas := hs'.has_live hlive
  cases ho with
  | valued hplaced hkey => exact absurd ((has_setValue value id).mp hhas) hid
  | @appended place byte rest row changed hplaced hreads howner hpush =>
    obtain rfl := ((has_addNode _ _ _).mp hhas).resolve_left hid
    refine Or.inl ?_
    rw [node_setRow, node_withLeaf_self]
    rfl
  | @widened place index byte rest b s' hplaced hreads habsent hb hinstalled =>
    have hat := hs.has_live (hplaced.live hs)
    have hg := hs.withLeaf (s.key place.node) byte rest value
    have hgrows := s.grows_withLeaf (s.key place.node) byte rest value
    have hgrows' := grows_grownWidened (s.withLeaf (s.key place.node) byte rest value) place.node b
    have hentries := hb.entries
    rw [← hgrows.entriesAt_eq hs hat] at hentries
    rw [hinstalled.has_iff, has_grownWidened_iff] at hhas
    refine hinstalled.needed ?_
    rcases hhas with hleaf | rfl
    · exact hgrows'.needed hg hleaf (needed_withLeaf hleaf hid)
    · -- A new root need not be needed.
      have hneeded : s.Needed place.node := by
        refine hc _ (hplaced.live hs) fun heq => hroot (hs'.eq_root_of_key_eq_nil hlive ?_)
        rw [Store.key, hinstalled.node_eq, node_grownWidened]
        exact (hgrows.key_eq hat).trans (heq ▸ hs.key_root)
      exact needed_grownWidened (hgrows.needed hs hat hneeded) hentries
  | @cut place length next b s' hplaced hpos hnext hreads hb hinstalled =>
    have hat := hs.has_live (hplaced.live hs)
    rw [hinstalled.has_iff] at hhas
    exact hinstalled.needed
      (needed_grownUpper hs hat (hc.needed_of_get? hs hplaced hnext) (Or.inl rfl) hhas hid)
  | @forked place length next byte rest b s' hplaced hpos hnext hreads hdiffers hb hinstalled =>
    have hat := hs.has_live (hplaced.live hs)
    have hg := hs.withLeaf (s.read place.node length) byte rest value
    have hgrows := s.grows_withLeaf (s.read place.node length) byte rest value
    rw [hinstalled.has_iff] at hhas
    refine hinstalled.needed ?_
    by_cases hleaf : (s.withLeaf (s.read place.node length) byte rest value).Has id
    · exact (grows_grownUpper _ place.node length none b).needed hg hleaf
        (needed_withLeaf hleaf hid)
    · have hneeded := hgrows.needed hs hat (hc.needed_of_get? hs hplaced hnext)
      have htwo : 2 ≤ b.entries.length := by
        rw [hb.entries, beside]
        split <;> exact Nat.le_refl 2
      exact needed_grownUpper hg (hgrows.has _ hat) hneeded (Or.inr htwo) hhas hleaf

/-- However an insertion ends, no node is without need. -/
theorem compact (ho : s.Outcome sizing key value s') (hs : s.Sound) (hs' : s'.Sound)
    (hc : s.Compact) : s'.Compact := by
  obtain ⟨hwrote, -⟩ := (ho.published hs).wrote hs hs'
  intro id hlive hroot
  by_cases hid : s.Has id
  · refine hwrote.needed hs hid (hc id (hwrote.live_of_live hs hlive hid) ?_)
    -- A root that has been replaced is not live.
    rintro rfl
    exact hroot (hs'.eq_root_of_key_eq_nil hlive ((hwrote.key_eq hid).trans hs.key_root))
  · exact ho.needed_of_not_has hs hs' hc hlive hroot hid

end Outcome

theorem compact_reset (s : Store V) : s.reset.Compact :=
  fun _ hlive hroot => absurd (live_reset hlive) hroot

theorem compact_empty : (Store.empty : Store V).Compact := by
  rintro ⟨index⟩ hlive hroot
  obtain rfl : index = 0 := Nat.lt_one_iff.mp (sound_empty.has_live hlive)
  exact absurd rfl hroot

end Store

end ByteTrie
