import ByteTrie.Proofs.Store.Publication

/-!
# Storing a value

Whichever of its ways an insertion takes, it succeeds, it answers what the trie
held under the key, and the store that it leaves has been written under the key.
What it has built lists the new entry besides what the node lists that it takes
the place of, and one write publishes it, as `Published` says; this write is one
under the key in the sense of `Wrote`.
-/

namespace ByteTrie

namespace Store

variable {V : Type} {s g s' : Store V} {key : Key} {value : V}

/-! ### What new nodes list -/

namespace Sound

variable {id : NodeId}

theorem itemsBelow_of_row_none (h : s.Sound) (hid : s.Has id) (hrow : (s.node id).row = none) :
    s.itemsBelow id = (s.node id).item?.toList := by
  rw [h.itemsBelow_eq hid, children_of_row_none hrow]
  exact List.append_nil _

/-- Nodes with the same entry and the same row list the same. -/
theorem itemsBelow_congr (h : s.Sound) {a b : NodeId} (ha : s.Has a) (hb : s.Has b)
    (hitem : (s.node a).item? = (s.node b).item?) (hrow : (s.node a).row = (s.node b).row) :
    s.itemsBelow a = s.itemsBelow b := by
  rw [h.itemsBelow_eq ha, h.itemsBelow_eq hb, hitem, children, children, branches?, branches?, hrow]

theorem itemsBelow_eq_entriesAt (h : s.Sound) (hid : s.Has id) :
    s.itemsBelow id =
      (s.node id).item?.toList ++ (s.entriesAt id).flatMap fun entry => s.itemsBelow entry.2 := by
  rw [h.itemsBelow_eq hid, children_eq_map_entriesAt, List.flatMap_map]

end Sound

/-! ### What has been built -/

theorem node_withLeaf_self (s : Store V) (path : Key) (byte : UInt8) (rest : Key) (value : V) :
    (s.withLeaf path byte rest value).node ⟨s.nodes.size⟩ =
      Node.leaf s.nodes.size (path ++ byte :: rest) path.length value :=
  s.node_addNode_self _

theorem itemsBelow_withLeaf {path : Key} {byte : UInt8} {rest : Key}
    (hg : (s.withLeaf path byte rest value).Sound) :
    (s.withLeaf path byte rest value).itemsBelow ⟨s.nodes.size⟩ =
      [(path ++ byte :: rest, value)] := by
  have hnode := node_withLeaf_self s path byte rest value
  rw [hg.itemsBelow_of_row_none (s.has_addNode_self _) (by rw [hnode]; rfl), hnode, Node.item?,
    key_leaf _ (by simp)]
  rfl

/-- A widened node lists what its new branch does besides. -/
theorem Sound.inserts_grownWidened (h : s.Sound) {id child : NodeId} (hid : s.Has id) {index : Nat}
    {byte : UInt8} {b : Branches NodeId} (h' : (s.grownWidened id b).Sound)
    (hentries : b.entries =
      (s.entriesAt id).take index ++ (byte, child) :: (s.entriesAt id).drop index)
    (hchild : s.Has child) (hitems : s.itemsBelow child = [(key, value)]) :
    Entries.Inserts key value ((s.grownWidened id b).itemsBelow id)
      ((s.grownWidened id b).itemsBelow ⟨s.nodes.size⟩) := by
  have hgrows := grows_grownWidened s id b
  have hentriesOld := hgrows.entriesAt_eq h hid
  have hitem : ((s.grownWidened id b).node ⟨s.nodes.size⟩).item? = (s.node id).item? := by
    rw [node_grownWidened]
    rfl
  let lists (entry : UInt8 × NodeId) := (s.grownWidened id b).itemsBelow entry.2
  have hlists : lists (byte, child) = [(key, value)] :=
    (hgrows.itemsBelow_eq h h' hchild).trans hitems
  refine ⟨(s.node id).item?.toList ++ ((s.entriesAt id).take index).flatMap lists,
    ((s.entriesAt id).drop index).flatMap lists, ?_, ?_⟩
  · rw [h'.itemsBelow_eq_entriesAt (hgrows.has id hid), hgrows.node id hid, hentriesOld,
      List.append_assoc, ← List.flatMap_append, List.take_append_drop]
  · rw [h'.itemsBelow_eq_entriesAt (has_grownWidened s id b), hitem, entriesAt_grownWidened,
      hentries, List.flatMap_append, List.flatMap_cons, List.append_assoc]
    change _ ++ (_ ++ (lists (byte, child) ++ _)) = _
    rw [hlists]
    rfl

namespace Builds

/-- A widened node refers to nothing old but what the old one did. -/
theorem widened (h : s.Builds g) (hs : s.Sound) {id leaf : NodeId} (hlive : s.Live id)
    {index : Nat} {byte : UInt8} {b : Branches NodeId} (hfresh : ¬s.Has leaf)
    (hentries : b.entries =
      (g.entriesAt id).take index ++ (byte, leaf) :: (g.entriesAt id).drop index) :
    s.Builds (g.grownWidened id b) := by
  have hat := h.entriesAt_eq hs (hs.has_live hlive)
  have hbranch (entry : UInt8 × NodeId) (hentry : entry ∈ s.entriesAt id) : s.Live entry.2 := by
    refine hlive.tail ?_
    rw [Branch, children_eq_map_entriesAt]
    exact List.mem_map_of_mem hentry
  refine h.grownWidened fun entry hentry hold => ?_
  rw [hentries, hat, List.mem_append, List.mem_cons] at hentry
  rcases hentry with hmem | rfl | hmem
  · exact hbranch entry (List.mem_of_mem_take hmem)
  · exact absurd hold hfresh
  · exact hbranch entry (List.mem_of_mem_drop hmem)

end Builds

/-- What a node is cut for: a value of the first part, or a sibling of the rest. -/
inductive Brings (s : Store V) (key : Key) (value : V) (read : Key) :
    Option V → Option (UInt8 × NodeId) → Prop
  | value (reads : read = key) : Brings s key value read (some value) none
  | sibling {leaf : UInt8 × NodeId} (has : s.Has leaf.2)
      (items : s.itemsBelow leaf.2 = [(key, value)]) : Brings s key value read none (some leaf)

/-- The first part of a cut node lists what it was cut for besides. -/
theorem Sound.inserts_grownUpper (h : s.Sound) {id : NodeId} (hid : s.Has id) {cut : Nat}
    (hcut : cut ≤ (s.node id).segment.length) {held : Option V} {b : Branches NodeId}
    (h' : (s.grownUpper id cut held b).Sound) {byte : UInt8} {sibling : Option (UInt8 × NodeId)}
    (hentries : b.entries = beside (byte, ⟨s.nodes.size⟩) sibling)
    (hbrings : s.Brings key value (s.read id cut) held sibling) :
    Entries.Inserts key value ((s.grownUpper id cut held b).itemsBelow id)
      ((s.grownUpper id cut held b).itemsBelow ⟨s.nodes.size + 1⟩) := by
  have hgrows := grows_grownUpper s id cut held b
  have hlowerHas : (s.grownUpper id cut held b).Has ⟨s.nodes.size⟩ :=
    (has_grownUpper s id cut held b _).mpr (Or.inr (Or.inl rfl))
  have hupperHas : (s.grownUpper id cut held b).Has ⟨s.nodes.size + 1⟩ :=
    (has_grownUpper s id cut held b _).mpr (Or.inr (Or.inr rfl))
  have hlower : (s.grownUpper id cut held b).itemsBelow ⟨s.nodes.size⟩ =
      (s.grownUpper id cut held b).itemsBelow id := by
    refine h'.itemsBelow_congr hlowerHas (hgrows.has id hid) ?_ ?_
    · rw [node_lower_grownUpper, hgrows.node id hid, Node.item?, Sound.key_lower hcut]
      rfl
    · rw [node_lower_grownUpper, hgrows.node id hid]
      rfl
  have hupper : (s.grownUpper id cut held b).itemsBelow ⟨s.nodes.size + 1⟩ =
      (held.map fun v => (s.read id cut, v)).toList ++
        (beside (byte, ⟨s.nodes.size⟩) sibling).flatMap fun entry =>
          (s.grownUpper id cut held b).itemsBelow entry.2 := by
    rw [h'.itemsBelow_eq_entriesAt hupperHas, entriesAt_upper_grownUpper, hentries,
      node_upper_grownUpper, Node.item?, Sound.key_upper hcut]
    rfl
  rw [hupper]
  cases hbrings with
  | value hreads =>
    refine ⟨[], (s.grownUpper id cut (some value) b).itemsBelow id, rfl, ?_⟩
    simp [beside, hlower, hreads]
  | @sibling leaf hleaf hitems =>
    have hitems' : (s.grownUpper id cut none b).itemsBelow leaf.2 = [(key, value)] :=
      (hgrows.itemsBelow_eq h h' hleaf).trans hitems
    rw [beside]
    split
    · refine ⟨[], (s.grownUpper id cut none b).itemsBelow id, rfl, ?_⟩
      simp [hlower, hitems']
    · refine ⟨(s.grownUpper id cut none b).itemsBelow id, [], (List.append_nil _).symm, ?_⟩
      simp [hlower, hitems']

namespace Builds

/-- What a node is cut for is published with the first part of the node. -/
theorem publish_cut (h : s.Builds g) (hs : s.Sound) (hg : g.Sound) {sizing : Sizing}
    {place : Place} (hplaced : s.Placed place) {cut : Nat} {next : UInt8}
    (hnext : (s.node place.node).segment.get? cut = some next) {held : Option V}
    {sibling : Option (UInt8 × NodeId)}
    (hsibling : ∀ other ∈ sibling, ¬s.Has other.2 ∧ g.Leads (s.read place.node cut) other.1 other.2)
    (hbrings : g.Brings key value (s.read place.node cut) held sibling) {b : Branches NodeId}
    (hb : b.Built sizing (beside (next, ⟨g.nodes.size⟩) sibling))
    (hinstalled : Installed (g.grownUpper place.node cut held b) ⟨g.nodes.size + 1⟩ place s') :
    Published key value s s' := by
  have hlive := hplaced.live hs
  have hid := hs.has_live hlive
  have hread : g.read place.node cut = s.read place.node cut := h.read_eq hid cut
  rw [← h.node _ hid] at hnext
  rw [← hread] at hsibling hbrings
  have hw := hg.grownUpper (h.has _ hid) hnext (fun other hother => (hsibling other hother).2) held
    hb.sound hb.entries
  have hbuilds : s.Builds (g.grownUpper place.node cut held b) := by
    refine h.grownUpper hs hlive cut held fun entry hentry => ?_
    rw [hb.entries] at hentry
    rcases mem_beside.mp hentry with rfl | hother
    · exact h.not_has_size
    · exact (hsibling entry hother).1
  have hnew : (g.grownUpper place.node cut held b).Has ⟨g.nodes.size + 1⟩ :=
    (has_grownUpper g place.node cut held b _).mpr (Or.inr (Or.inr rfl))
  have hfresh : ¬s.Has ⟨g.nodes.size + 1⟩ := fun hhas => by
    have hlt : g.nodes.size + 1 < g.nodes.size := h.has _ hhas
    omega
  exact .replaced hbuilds hw hplaced hnew hfresh hinstalled
    (hg.inserts_grownUpper (h.has _ hid) (Nat.le_of_lt (Segment.lt_length_of_get? hnext)) hw
      hb.entries hbrings)

end Builds

theorem wrote_setValue (h : s.Sound) {id : NodeId} (hlive : s.Live id) (hkey : s.key id = key) :
    Wrote key value s (s.setValue id value) ∧
      (key, value) ∈ (s.setValue id value).itemsBelow (s.setValue id value).root := by
  have hid := h.has_live hlive
  have hs' := h.setValue hid value
  have hwrote : Wrote key value s (s.setValue id value) := {
    has := fun other hother => (has_setValue value other).mpr hother
    hasRow := fun _ hrow => hrow
    node := by
      intro other _
      rw [node_setValue hid]
      split
      · rename_i heq
        subst heq
        exact Or.inr ⟨hlive, hkey, rfl⟩
      · exact Or.inl rfl
    row := fun _ _ => Or.inl rfl
    root := Or.inl rfl
    freshNode := by
      intro other hother row hrow
      have hne : other ≠ id := fun heq => hother (heq ▸ hid)
      rw [node_setValue_of_ne hid hne] at hrow
      exact (Builds.refl s).freshNode other hother row hrow
    freshRow := (Builds.refl s).freshRow }
  refine ⟨hwrote, hwrote.mem_root h hs' hlive ?_⟩
  rw [hs'.mem_itemsBelow (hwrote.has id hid)]
  refine ⟨id, Relation.ReflTransGen.refl, (hwrote.key_eq hid).trans hkey, ?_⟩
  rw [node_setValue_self hid]

/-! ### The ways of an insertion -/

/-- However an insertion ends, one write has published what it has built. -/
theorem Outcome.published {sizing : Sizing} (ho : s.Outcome sizing key value s') (hs : s.Sound) :
    Published key value s s' := by
  have hfresh : ¬s.Has ⟨s.nodes.size⟩ := (Keeps.refl s).not_has_size
  cases ho with
  | valued hplaced hkey => exact .valued hplaced hkey
  | @appended place byte rest row changed hplaced hreads howner hpush =>
    subst hreads
    have hg := hs.withLeaf (s.key place.node) byte rest value
    exact .appended (Builds.withLeaf s _ byte rest value) hg hplaced howner
      (s.leads_withLeaf _ byte rest value) hfresh hpush (itemsBelow_withLeaf hg)
  | @widened place index byte rest b s' hplaced hreads habsent hb hinstalled =>
    subst hreads
    have hlive := hplaced.live hs
    have hid := hs.has_live hlive
    have hg := hs.withLeaf (s.key place.node) byte rest value
    have hbuilds := Builds.withLeaf s (s.key place.node) byte rest value
    have hlead := s.leads_withLeaf (s.key place.node) byte rest value
    have hentries := hb.entries
    rw [← hbuilds.entriesAt_eq hs hid] at hentries
    have hw := hg.grownWidened (hbuilds.has _ hid) ((hbuilds.key_eq hid).symm ▸ hlead) hb.sound
      hentries
    have hnew := has_grownWidened (s.withLeaf (s.key place.node) byte rest value) place.node b
    have hinserts := hg.inserts_grownWidened (hbuilds.has _ hid) hw hentries hlead.has
      (itemsBelow_withLeaf hg)
    have hfreshNew := hbuilds.not_has_size
    rw [size_withLeaf] at hnew hinserts hfreshNew
    exact .replaced (hbuilds.widened hs hlive hfresh hentries) hw hplaced hnew hfreshNew
      hinstalled hinserts
  | @cut place length next b s' hplaced hpos hnext hreads hb hinstalled =>
    exact (Builds.refl s).publish_cut hs hs hplaced hnext (by simp) (.value hreads) hb hinstalled
  | @forked place length next byte rest b s' hplaced hpos hnext hreads hdiffers hb hinstalled =>
    subst hreads
    have hg := hs.withLeaf (s.read place.node length) byte rest value
    have hlead := s.leads_withLeaf (s.read place.node length) byte rest value
    rw [← s.size_withLeaf (s.read place.node length) byte rest value] at hb
    refine (Builds.withLeaf s _ byte rest value).publish_cut hs hg hplaced hnext ?_
      (.sibling hlead.has (itemsBelow_withLeaf hg)) hb ?_
    · rintro _ ⟨⟩
      exact ⟨hfresh, hlead⟩
    · rw [size_withLeaf]
      exact hinstalled

/-- Whatever has been published, the key has been written. -/
theorem Published.wrote (h : Published key value s s') (hs : s.Sound) (hs' : s'.Sound) :
    Wrote key value s s' ∧ (key, value) ∈ s'.itemsBelow s'.root := by
  cases h with
  | valued hplaced hkey => exact wrote_setValue hs (hplaced.live hs) hkey
  | appended hbuilds hg hplaced howner hlead hfresh hpush hitems =>
    have hlive := hplaced.live hs
    exact hbuilds.append hs hg hlive hs' howner hlead hfresh
      ((hs.rowSound (hs.has_live hlive) howner).sound.push? hpush).2 hitems
  | replaced hbuilds hg hplaced hnew hfresh hinstalled hinserts =>
    exact hbuilds.install hs hg hs' hplaced hnew hfresh hinstalled hinserts

/-- Storing a value succeeds, and answers what was held under the key. -/
theorem Sound.insert (h : s.Sound) (sizing : Sizing) (key : Key) (value : V) :
    ∃ s', s.insert sizing key value = .ok ((s.itemsBelow s.root).lookup key, s') ∧ s'.Sound ∧
      Wrote key value s s' ∧ (key, value) ∈ s'.itemsBelow s'.root := by
  obtain ⟨s', hinsert, hs', houtcome⟩ := h.insert_outcome sizing key value
  exact ⟨s', hinsert, hs', (houtcome.published h).wrote h hs'⟩

end Store

end ByteTrie
