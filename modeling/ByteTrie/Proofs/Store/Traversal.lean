import ByteTrie.Proofs.Store.Writes
import ByteTrie.Store.Traversal

/-!
# What is to come from a traversal

A suspended traversal is described by the nodes that are pending, each with an
anchor: a beginning of all keys at and below the node that a write leaves as it
is. A step takes the first pending node out and puts its branches in its place.
The keys and values to come are what the pending nodes list.

In a sound traversal the anchors precede one another, so what is to come is in
ascending order. This is kept by its own steps, by all writes, and also when the
store goes on to serve another trie, since no node or row is ever taken away.
-/

namespace ByteTrie

open Store

/-- The branches of a row that are still to come, each with the address of the node. -/
def OpenRow.pending {V : Type} (s : Store V) (r : OpenRow) : List (Key × NodeId) :=
  (((s.row r.row).entries.drop r.cursor.next).take r.cursor.remaining).map fun entry =>
    (s.address entry.2, entry.2)

/-- The row has an owner, and is not shorter than when the traversal came to it. -/
structure OpenRow.Sound {V : Type} (s : Store V) (r : OpenRow) : Prop where
  owner : ∃ id, s.Has id ∧ (s.node id).row = some r.row
  stop_le : r.cursor.stop ≤ (s.row r.row).count

theorem OpenRow.Sound.path {V : Type} {s : Store V} {r : OpenRow} (h : r.Sound s) (hs : s.Sound) :
    ∃ path, s.RowSound path r.row := by
  obtain ⟨id, hid, hrow⟩ := h.owner
  exact ⟨s.key id, hs.rowSound hid hrow⟩

namespace Traversal

variable {V : Type} {s s' : Store V} {t : Traversal} {id : NodeId}

/-- The nodes that a traversal has still to enter, each with a beginning of all
keys at and below it. -/
def pending (s : Store V) (t : Traversal) : List (Key × NodeId) :=
  (t.first.toList.map fun id => (s.key id, id)) ++ t.rows.flatMap (OpenRow.pending s)

/-- A traversal can go on, and will come to all keys in order. -/
structure Sound (s : Store V) (t : Traversal) : Prop where
  first : ∀ id ∈ t.first, s.Has id
  rows : ∀ r ∈ t.rows, r.Sound s
  ordered : ((t.pending s).map Prod.fst).Pairwise Key.Precedes

/-- The nodes to come. -/
def listing (s : Store V) (t : Traversal) : List NodeId :=
  (t.pending s).flatMap fun p => s.nodesBelow p.2

/-- The keys and values to come. -/
def rest (s : Store V) (t : Traversal) : List (Key × V) :=
  (t.pending s).flatMap fun p => s.itemsBelow p.2

theorem rest_eq_filterMap (s : Store V) (t : Traversal) :
    t.rest s = (t.listing s).filterMap fun id => (s.node id).item? := by
  rw [rest, listing, List.filterMap_flatMap]
  exact List.flatMap_congr fun p _ => s.itemsBelow_eq_filterMap p.2

/-- The branches of a node with their addresses. -/
def branchesOf (s : Store V) (id : NodeId) : List (Key × NodeId) :=
  (s.children id).map fun child => (s.address child, child)

theorem pending_of_first_none (h : t.first = none) :
    t.pending s = t.rows.flatMap (OpenRow.pending s) := by
  rw [pending, h]
  rfl

theorem Sound.has_of_mem_pending (h : t.Sound s) (hs : s.Sound) {p : Key × NodeId}
    (hp : p ∈ t.pending s) : s.Has p.2 ∧ p.1 <+: s.key p.2 := by
  rcases List.mem_append.mp hp with hfirst | hrows
  · obtain ⟨id, hid, rfl⟩ := List.mem_map.mp hfirst
    exact ⟨h.first id (Option.mem_toList.mp hid), List.prefix_refl _⟩
  · obtain ⟨r, hr, hp⟩ := List.mem_flatMap.mp hrows
    obtain ⟨entry, hentry, rfl⟩ := List.mem_map.mp hp
    obtain ⟨path, hpath⟩ := (h.rows r hr).path hs
    have hmem := List.mem_of_mem_drop (List.mem_of_mem_take hentry)
    exact ⟨(hpath.leads entry hmem).has, Store.Sound.address_isPrefix entry.2⟩

/-! ### One step -/

theorem pending_enter (hs : s.Sound) (hid : s.Has id) (rows : List OpenRow) :
    (enter s id rows).flatMap (OpenRow.pending s) =
      branchesOf s id ++ rows.flatMap (OpenRow.pending s) := by
  cases howner : (s.node id).row with
  | none => simp [enter, branchesOf, howner, children_of_row_none howner]
  | some row =>
    have hsound := (hs.rowSound hid howner).sound
    have hentries : (s.row row).entries.take (s.row row).count = (s.row row).entries :=
      List.take_of_length_le (Nat.le_of_eq hsound.length_entries)
    rw [branchesOf, children_of_row_some howner, List.map_map]
    simp only [enter, howner]
    split
    · rename_i hzero
      rw [← hentries, show (s.row row).count = 0 from hzero]
      rfl
    · rw [List.flatMap_cons]
      congr 1
      simp [OpenRow.pending, Branches.cursor, Branches.Cursor.remaining, hentries]

theorem sound_enter (hid : s.Has id) {rows : List OpenRow}
    (hrows : ∀ r ∈ rows, r.Sound s) : ∀ r ∈ enter s id rows, r.Sound s := by
  cases howner : (s.node id).row with
  | none => simpa [enter, howner] using hrows
  | some row =>
    simp only [enter, howner]
    split
    · exact hrows
    · refine List.forall_mem_cons.mpr ⟨⟨⟨id, hid, howner⟩, Nat.le_refl _⟩, hrows⟩

theorem pending_of_stop_le {r : OpenRow} (h : r.cursor.stop ≤ r.cursor.next) :
    (r.cursor.step (s.row r.row)).1 = none ∧ r.pending s = [] := by
  have hzero : r.cursor.remaining = 0 := Nat.sub_eq_zero_of_le h
  constructor
  · rw [Branches.Cursor.step, hzero]
    rfl
  · rw [OpenRow.pending, hzero, List.take_zero, List.map_nil]

theorem pending_of_next_lt (hs : s.Sound) {r : OpenRow} (h : r.Sound s)
    (hlt : r.cursor.next < r.cursor.stop) :
    ∃ child cursor, r.cursor.step (s.row r.row) = (some (r.cursor.next, child), cursor) ∧
      s.Has child ∧ r.pending s = (s.address child, child) :: OpenRow.pending s { r with cursor } ∧
      OpenRow.Sound s { r with cursor } := by
  obtain ⟨path, hpath⟩ := h.path hs
  obtain ⟨more, hmore⟩ : ∃ more, r.cursor.remaining = more + 1 :=
    ⟨r.cursor.stop - r.cursor.next - 1, by rw [Branches.Cursor.remaining]; omega⟩
  have hindex : r.cursor.next < (s.row r.row).entries.length := by
    rw [hpath.sound.length_entries]
    exact Nat.lt_of_lt_of_le hlt h.stop_le
  have hheld : (s.row r.row).get? r.cursor.next =
      some (s.row r.row).entries[r.cursor.next].2 := by
    rw [hpath.sound.get?_eq, List.getElem?_eq_getElem hindex, Option.map_some]
  have hlead := hpath.leads _ (List.getElem_mem hindex)
  refine ⟨(s.row r.row).entries[r.cursor.next].2, { r.cursor with next := r.cursor.next + 1 },
    ?_, hlead.has, ?_, h.owner, h.stop_le⟩
  · rw [Branches.Cursor.step, hmore, Branches.firstFrom?, hheld]
  · have hless : Branches.Cursor.remaining { r.cursor with next := r.cursor.next + 1 } = more := by
      rw [Branches.Cursor.remaining] at hmore ⊢
      simp only
      omega
    rw [OpenRow.pending, OpenRow.pending, hmore, hless, List.drop_eq_getElem_cons hindex,
      List.take_succ_cons, List.map_cons]

theorem resume_cases (hs : s.Sound) {rows : List OpenRow} (hrows : ∀ r ∈ rows, r.Sound s) :
    (resume s rows = none ∧ rows.flatMap (OpenRow.pending s) = []) ∨
    ∃ anchor id later inner, resume s rows = some (id, ⟨none, inner⟩) ∧
      rows.flatMap (OpenRow.pending s) = (anchor, id) :: later ∧ (∀ r ∈ inner, r.Sound s) ∧
      inner.flatMap (OpenRow.pending s) = branchesOf s id ++ later := by
  induction rows with
  | nil => exact Or.inl ⟨rfl, rfl⟩
  | cons r rows ih =>
    obtain ⟨hr, hrest⟩ := List.forall_mem_cons.mp hrows
    rcases Nat.lt_or_ge r.cursor.next r.cursor.stop with hlt | hle
    · obtain ⟨child, cursor, hstep, hchild, hpending, hsound⟩ := pending_of_next_lt hs hr hlt
      refine Or.inr ⟨s.address child, child,
        OpenRow.pending s { r with cursor } ++ rows.flatMap (OpenRow.pending s),
        enter s child ({ r with cursor } :: rows), ?_, ?_, ?_, ?_⟩
      · simp only [resume, hstep]
      · rw [List.flatMap_cons, hpending]
        rfl
      · exact sound_enter hchild (List.forall_mem_cons.mpr ⟨hsound, hrest⟩)
      · rw [pending_enter hs hchild, List.flatMap_cons]
    · obtain ⟨hstep, hpending⟩ := pending_of_stop_le (s := s) hle
      have hresume : resume s (r :: rows) = resume s rows := by
        rw [resume]
        split
        · rename_i heq
          rw [heq] at hstep
          cases hstep
        · rfl
      rw [hresume, List.flatMap_cons, hpending, List.nil_append]
      exact ih hrest

theorem exists_of_mem_branchesOf (hs : s.Sound) (hid : s.Has id) {p : Key × NodeId}
    (hp : p ∈ branchesOf s id) : ∃ byte, p.1 = s.key id ++ [byte] := by
  obtain ⟨child, hchild, rfl⟩ := List.mem_map.mp hp
  obtain ⟨byte, hlead⟩ := hs.exists_leads hid hchild
  exact ⟨byte, hlead.address_eq⟩

/-- What is pending behind a node comes after all keys that begin with its anchor. -/
theorem ordered_behind (hs : s.Sound) (hid : s.Has id) {anchor : Key} {later : List (Key × NodeId)}
    (hanchor : anchor <+: s.key id)
    (h : (((anchor, id) :: later).map Prod.fst).Pairwise Key.Precedes) :
    ((branchesOf s id ++ later).map Prod.fst).Pairwise Key.Precedes ∧
      ∀ p ∈ branchesOf s id ++ later, s.key id < p.1 := by
  obtain ⟨hfirst, hlater⟩ := List.pairwise_cons.mp h
  constructor
  · rw [List.map_append]
    refine List.pairwise_append.mpr ⟨?_, hlater, ?_⟩
    · rw [branchesOf, List.map_map]
      exact List.pairwise_map.mpr (hs.pairwise_address_children hid)
    · intro a ha b hb
      obtain ⟨p, hp, rfl⟩ := List.mem_map.mp ha
      obtain ⟨byte, hbyte⟩ := exists_of_mem_branchesOf hs hid hp
      refine (hfirst b hb).mono (hanchor.trans ?_) (List.prefix_refl b)
      exact hbyte ▸ List.prefix_append _ _
  · intro p hp
    rcases List.mem_append.mp hp with hmem | hmem
    · obtain ⟨byte, hbyte⟩ := exists_of_mem_branchesOf hs hid hmem
      exact hbyte ▸ Key.lt_append_cons _ byte []
    · exact hfirst p.1 (List.mem_map_of_mem hmem) (s.key id) p.1 hanchor (List.prefix_refl _)

/-- A step enters the first of what is pending, and puts its branches in front. -/
theorem Sound.visit_cases (h : t.Sound s) (hs : s.Sound) :
    (t.visit s = none ∧ t.pending s = []) ∨
    ∃ anchor id later t', t.visit s = some (id, t') ∧ t.pending s = (anchor, id) :: later ∧
      t'.Sound s ∧ t'.pending s = branchesOf s id ++ later := by
  obtain ⟨first, rows⟩ := t
  have hsound {anchor : Key} {id : NodeId} {later : List (Key × NodeId)} {inner : List OpenRow}
      (hpending : pending s ⟨first, rows⟩ = (anchor, id) :: later) (hinner : ∀ r ∈ inner, r.Sound s)
      (hafter : inner.flatMap (OpenRow.pending s) = branchesOf s id ++ later) :
      Sound s ⟨none, inner⟩ := by
    obtain ⟨hid, hanchor⟩ := h.has_of_mem_pending hs (hpending ▸ List.mem_cons_self)
    refine ⟨by simp, hinner, ?_⟩
    rw [pending_of_first_none rfl, hafter]
    exact (ordered_behind hs hid hanchor (hpending ▸ h.ordered)).1
  cases first with
  | some id =>
    have hid := h.first id rfl
    have hafter := pending_enter hs hid rows
    refine Or.inr ⟨s.key id, id, rows.flatMap (OpenRow.pending s), _, rfl, rfl, ?_, hafter⟩
    exact hsound rfl (sound_enter hid h.rows) hafter
  | none =>
    rcases resume_cases hs h.rows with hnone |
      ⟨anchor, id, later, inner, hresume, hpending, hinner, hafter⟩
    · exact Or.inl hnone
    · exact Or.inr ⟨anchor, id, later, _, hresume, hpending, hsound hpending hinner hafter, hafter⟩

/-- What a traversal has entered was the first of what was pending. -/
theorem Sound.of_visit (h : t.Sound s) (hs : s.Sound) {t' : Traversal}
    (hvisit : t.visit s = some (id, t')) :
    t'.Sound s ∧ ∃ anchor later, t.pending s = (anchor, id) :: later ∧
      t'.pending s = branchesOf s id ++ later := by
  rcases h.visit_cases hs with ⟨hnone, -⟩ |
    ⟨anchor, entered, later, behind, hvisit', hpending, hsound, hafter⟩
  · rw [hvisit] at hnone
    cases hnone
  · rw [hvisit, Option.some.injEq, Prod.mk.injEq] at hvisit'
    obtain ⟨rfl, rfl⟩ := hvisit'
    exact ⟨hsound, anchor, later, hpending, hafter⟩

/-! ### All that is to come -/

theorem flatMap_branchesOf {β : Type} (s : Store V) (id : NodeId) (f : NodeId → List β) :
    ((branchesOf s id).flatMap fun p => f p.2) = (s.children id).flatMap f := by
  rw [branchesOf, List.flatMap_map]

/-- A step takes the first node out of what is to come. -/
theorem Sound.listing_cases (h : t.Sound s) (hs : s.Sound) :
    (t.visit s = none ∧ t.listing s = []) ∨
    ∃ anchor id later t', t.visit s = some (id, t') ∧ t.pending s = (anchor, id) :: later ∧
      t'.Sound s ∧ t'.pending s = branchesOf s id ++ later ∧ t.listing s = id :: t'.listing s := by
  rcases h.visit_cases hs with ⟨hvisit, hpending⟩ |
    ⟨anchor, id, later, t', hvisit, hpending, hsound, hafter⟩
  · exact Or.inl ⟨hvisit, by rw [listing, hpending]; rfl⟩
  · refine Or.inr ⟨anchor, id, later, t', hvisit, hpending, hsound, hafter, ?_⟩
    have hid := (h.has_of_mem_pending hs (hpending ▸ List.mem_cons_self)).1
    rw [listing, listing, hpending, hafter, List.flatMap_cons, List.flatMap_append,
      flatMap_branchesOf, hs.nodesBelow_eq hid]
    rfl

theorem Sound.trail_eq (h : t.Sound s) (hs : s.Sound) (steps : Nat) :
    t.trail s steps = (t.listing s).take steps := by
  induction steps generalizing t with
  | zero => rfl
  | succ steps ih =>
    rw [trail]
    rcases h.listing_cases hs with ⟨hvisit, hlisting⟩ |
      ⟨_, id, _, t', hvisit, -, hsound, -, hlisting⟩
    · rw [hvisit, hlisting, List.take_nil]
    · rw [hvisit, hlisting, List.take_succ_cons, ← ih hsound]

theorem Sound.pairwise_listing (h : t.Sound s) (hs : s.Sound) :
    (t.listing s).Pairwise fun a b => s.key a < s.key b := by
  have hordered := List.pairwise_map.mp h.ordered
  refine List.pairwise_flatMap.mpr ⟨?_, hordered.imp_of_mem ?_⟩
  · exact fun p hp => hs.pairwise_nodesBelow (h.has_of_mem_pending hs hp).1
  · intro p q hp hq hprecedes x hx y hy
    obtain ⟨hhasP, hanchorP⟩ := h.has_of_mem_pending hs hp
    obtain ⟨hhasQ, hanchorQ⟩ := h.has_of_mem_pending hs hq
    rw [hs.mem_nodesBelow hhasP] at hx
    rw [hs.mem_nodesBelow hhasQ] at hy
    exact hprecedes _ _ (hanchorP.trans (hs.key_isPrefix_of_below hhasP hx))
      (hanchorQ.trans (hs.key_isPrefix_of_below hhasQ hy))

theorem Sound.has_of_mem_listing (h : t.Sound s) (hs : s.Sound) (hid : id ∈ t.listing s) :
    s.Has id := by
  obtain ⟨p, hp, hid⟩ := List.mem_flatMap.mp hid
  have hhas := (h.has_of_mem_pending hs hp).1
  exact hs.has_below hhas ((hs.mem_nodesBelow hhas).mp hid)

/-- No traversal has more nodes to come than the store has. -/
theorem Sound.length_listing_le (h : t.Sound s) (hs : s.Sound) :
    (t.listing s).length ≤ s.nodes.size :=
  length_le_size_of_ascending (h.pairwise_listing hs) fun _ hid => h.has_of_mem_listing hs hid

theorem Sound.ahead_eq (h : t.Sound s) (hs : s.Sound) : t.ahead s = t.listing s := by
  rw [ahead, h.trail_eq hs, List.take_of_length_le (h.length_listing_le hs)]

theorem Sound.items_eq (h : t.Sound s) (hs : s.Sound) : t.items s = t.rest s := by
  rw [items, h.ahead_eq hs, rest_eq_filterMap]

theorem Sound.ascending_rest (h : t.Sound s) (hs : s.Sound) : Entries.Ascending (t.rest s) :=
  t.rest_eq_filterMap s ▸ ascending_filterMap_item? (h.pairwise_listing hs)

/-! ### The next entry -/

/-- The anchors of what is pending have a property. -/
def Bounded (s : Store V) (t : Traversal) (P : Key → Prop) : Prop := ∀ p ∈ t.pending s, P p.1

theorem sound_done : done.Sound s := ⟨by simp [done], by simp [done], List.Pairwise.nil⟩

@[simp] theorem rest_done : done.rest s = [] := rfl

theorem bounded_done (P : Key → Prop) : done.Bounded s P := fun _ hp => by cases hp

/-- A property that goes over to longer keys holds of the keys of all nodes to come. -/
theorem Bounded.listing {P : Key → Prop} (h : t.Bounded s P) (ht : t.Sound s) (hs : s.Sound)
    (hP : ∀ a b, a <+: b → P a → P b) : ∀ id ∈ t.listing s, P (s.key id) := by
  intro id hid
  obtain ⟨p, hp, hid⟩ := List.mem_flatMap.mp hid
  obtain ⟨hhas, hanchor⟩ := ht.has_of_mem_pending hs hp
  have hbelow := (hs.mem_nodesBelow hhas).mp hid
  exact hP p.1 _ (hanchor.trans (hs.key_isPrefix_of_below hhas hbelow)) (h p hp)

/-- A traversal has gone on to the next node that has a value. -/
structure Advances (s : Store V) (t : Traversal) (found : Option NodeId) (t' : Traversal) :
    Prop where
  item : (found.bind fun id => (s.node id).item?) = (t.rest s).head?
  sound : t'.Sound s
  rest : t'.rest s = (t.rest s).tail
  above : ∀ item ∈ (t.rest s).head?, t'.Bounded s (item.1 < ·)
  bounded : ∀ P : Key → Prop, (∀ a b, a <+: b → P a → P b) → t.Bounded s P → t'.Bounded s P
  fused : t.rest s = [] → t' = done
  /-- What every step keeps is kept. -/
  stepwise : ∀ P : Traversal → Prop, P done →
    (∀ t id t', P t → t.visit s = some (id, t') → P t') → P t → P t'

theorem advances_done (h : t.rest s = []) : Advances s t none done where
  item := by rw [h]; rfl
  sound := sound_done
  rest := by rw [h]; rfl
  above _ _ := bounded_done _
  bounded P _ _ := bounded_done P
  fused _ := rfl
  stepwise _ hdone _ _ := hdone

/-- A property that goes over to longer keys is kept by a step. -/
theorem bounded_behind (hs : s.Sound) (hid : s.Has id) {anchor : Key} {later : List (Key × NodeId)}
    {t' : Traversal} (hanchor : anchor <+: s.key id)
    (hpending : t.pending s = (anchor, id) :: later)
    (hafter : t'.pending s = branchesOf s id ++ later) (P : Key → Prop)
    (hP : ∀ a b, a <+: b → P a → P b) (ht : t.Bounded s P) : t'.Bounded s P := by
  intro p hp
  rw [Bounded, hpending] at ht
  rw [hafter] at hp
  rcases List.mem_append.mp hp with hmem | hmem
  · obtain ⟨byte, hbyte⟩ := exists_of_mem_branchesOf hs hid hmem
    refine hP anchor p.1 (hanchor.trans ?_) (ht _ List.mem_cons_self)
    exact hbyte ▸ List.prefix_append _ _
  · exact ht p (List.mem_cons_of_mem _ hmem)

theorem Sound.seek_advances (h : t.Sound s) (hs : s.Sound) {steps : Nat}
    (hsteps : (t.listing s).length < steps) :
    Advances s t (t.seek s steps).1 (t.seek s steps).2 := by
  induction steps generalizing t with
  | zero => exact absurd hsteps (Nat.not_lt_zero _)
  | succ steps ih =>
    rw [seek]
    rcases h.listing_cases hs with ⟨hvisit, hlisting⟩ |
      ⟨anchor, id, later, t', hvisit, hpending, hsound, hafter, hlisting⟩
    · simp only [hvisit]
      exact advances_done (by rw [rest_eq_filterMap, hlisting, List.filterMap_nil])
    · obtain ⟨hid, hanchor⟩ := h.has_of_mem_pending hs (hpending ▸ List.mem_cons_self)
      have hrest : t.rest s = (s.node id).item?.toList ++ t'.rest s := by
        rw [rest_eq_filterMap, rest_eq_filterMap, hlisting, List.filterMap_cons]
        cases (s.node id).item? <;> rfl
      have hbounded := bounded_behind hs hid hanchor hpending hafter
      simp only [hvisit]
      cases hvalue : (s.node id).value with
      | some value =>
        have hitem : (s.node id).item? = some (s.key id, value) := by
          rw [Node.item?, hvalue]
          rfl
        rw [hitem] at hrest
        change Advances s t (some id) t'
        refine ⟨by rw [hrest]; exact hitem, hsound, by rw [hrest]; rfl, ?_, hbounded, ?_,
          fun _ _ hstep ht => hstep t id t' ht hvisit⟩
        · intro item hhead
          rw [hrest] at hhead
          obtain rfl := Option.some.inj hhead
          rw [Bounded, hafter]
          exact (ordered_behind hs hid hanchor (hpending ▸ h.ordered)).2
        · intro hnil
          rw [hrest] at hnil
          cases hnil
      | none =>
        have hitem : (s.node id).item? = none := by
          rw [Node.item?, hvalue]
          rfl
        rw [hitem, Option.toList_none, List.nil_append] at hrest
        rw [hlisting, List.length_cons] at hsteps
        have hnext := ih hsound (Nat.lt_of_succ_lt_succ hsteps)
        exact ⟨hrest ▸ hnext.item, hnext.sound, hrest ▸ hnext.rest, hrest ▸ hnext.above,
          fun P hP ht => hnext.bounded P hP (hbounded P hP ht), hrest ▸ hnext.fused,
          fun P hdone hstep ht => hnext.stepwise P hdone hstep (hstep t id t' ht hvisit)⟩

theorem Sound.nextNode_advances (h : t.Sound s) (hs : s.Sound) :
    Advances s t (t.nextNode s).1 (t.nextNode s).2 :=
  h.seek_advances hs (Nat.lt_succ_of_le (h.length_listing_le hs))

/-- The next entry is the first of what is to come. -/
theorem Sound.next_eq (h : t.Sound s) (hs : s.Sound) :
    t.next s = ((t.rest s).head?, (t.nextNode s).2) :=
  Prod.ext (h.nextNode_advances hs).item rfl

theorem Sound.nextValue_eq (h : t.Sound s) (hs : s.Sound) :
    t.nextValue s = ((t.rest s).head?.map Prod.snd, (t.nextNode s).2) := by
  refine Prod.ext ?_ rfl
  rw [← (h.nextNode_advances hs).item, Option.map_bind]
  refine Option.bind_congr fun id _ => (Node.map_snd_item? (s.node id)).symm

end Traversal

end ByteTrie
