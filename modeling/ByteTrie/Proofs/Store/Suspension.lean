import ByteTrie.Proofs.Store.Traversal

/-!
# Writes behind the back of a traversal

While a traversal is suspended the store may be written to. The nodes pending in
it are then the same as before, or nodes that took the place of the old ones;
their anchors do not change. So what is to come takes at most the entry that was
written, and no other.
-/

namespace ByteTrie

namespace Store

variable {V : Type} {s s' : Store V} {t : Traversal} {key : Key} {value : V}

open Traversal

/-! ### A store that keeps all there was -/

namespace Keeps

theorem openRow_pending_eq (h : s.Keeps s') (hs : s.Sound) {r : OpenRow} (hr : r.Sound s) :
    r.pending s' = r.pending s := by
  obtain ⟨path, hpath⟩ := hr.path hs
  rw [OpenRow.pending, OpenRow.pending, h.row r.row hpath.has]
  refine List.map_congr_left fun entry hentry => ?_
  have hlead := hpath.leads entry (List.mem_of_mem_drop (List.mem_of_mem_take hentry))
  rw [h.address_eq hlead.has]

theorem pending_eq (h : s.Keeps s') (hs : s.Sound) (ht : t.Sound s) :
    t.pending s' = t.pending s := by
  rw [pending, pending]
  congr 1
  · refine List.map_congr_left fun id hid => ?_
    rw [h.key_eq (ht.first id (Option.mem_toList.mp hid))]
  · exact List.flatMap_congr fun r hr => h.openRow_pending_eq hs (ht.rows r hr)

theorem sound_openRow (h : s.Keeps s') (hs : s.Sound) {r : OpenRow} (hr : r.Sound s) :
    r.Sound s' := by
  obtain ⟨id, hid, hrow⟩ := hr.owner
  refine ⟨⟨id, h.has id hid, by rw [h.node id hid, hrow]⟩, ?_⟩
  rw [h.row r.row (hs.rowSound hid hrow).has]
  exact hr.stop_le

theorem sound_traversal (h : s.Keeps s') (hs : s.Sound) (ht : t.Sound s) : t.Sound s' where
  first id hid := h.has id (ht.first id hid)
  rows r hr := h.sound_openRow hs (ht.rows r hr)
  ordered := (h.pending_eq hs ht).symm ▸ ht.ordered

theorem rest_eq (h : s.Keeps s') (hs : s.Sound) (hs' : s'.Sound) (ht : t.Sound s) :
    t.rest s' = t.rest s := by
  rw [rest, rest, h.pending_eq hs ht]
  exact List.flatMap_congr fun p hp =>
    h.itemsBelow_eq hs hs' (ht.has_of_mem_pending hs hp).1

theorem enter_eq (h : s.Keeps s') (hs : s.Sound) {id : NodeId} (hid : s.Has id)
    (rows : List OpenRow) : enter s' id rows = enter s id rows := by
  rw [enter, enter, h.node id hid]
  cases hrow : (s.node id).row with
  | none => rfl
  | some row => simp only [h.row row (hs.rowSound hid hrow).has]

theorem resume_eq (h : s.Keeps s') (hs : s.Sound) {rows : List OpenRow}
    (hrows : ∀ r ∈ rows, r.Sound s) : resume s' rows = resume s rows := by
  induction rows with
  | nil => rfl
  | cons r rows ih =>
    obtain ⟨hr, hrest⟩ := List.forall_mem_cons.mp hrows
    obtain ⟨path, hpath⟩ := hr.path hs
    rw [resume, resume, h.row r.row hpath.has]
    rcases Nat.lt_or_ge r.cursor.next r.cursor.stop with hlt | hle
    · obtain ⟨child, cursor, hstep, hchild, -⟩ := pending_of_next_lt hs hr hlt
      simp only [hstep, h.enter_eq hs hchild]
    · obtain ⟨hnone, -⟩ := pending_of_stop_le (s := s) hle
      obtain ⟨cursor, hstep⟩ : ∃ cursor, r.cursor.step (s.row r.row) = (none, cursor) :=
        ⟨_, Prod.ext hnone rfl⟩
      simp only [hstep, ih hrest]

/-- A traversal of what was there before goes on as it would have. -/
theorem visit_eq (h : s.Keeps s') (hs : s.Sound) (ht : t.Sound s) : t.visit s' = t.visit s := by
  rw [visit, visit]
  cases hfirst : t.first with
  | none => exact h.resume_eq hs ht.rows
  | some id => simp only [h.enter_eq hs (ht.first id hfirst)]

/-- A traversal of what was there before comes to nothing else. -/
theorem has_of_mem_listing (h : s.Keeps s') (hs : s.Sound) (hs' : s'.Sound) (ht : t.Sound s)
    {id : NodeId} (hid : id ∈ t.listing s') : s.Has id := by
  rw [listing, h.pending_eq hs ht] at hid
  obtain ⟨p, hp, hid⟩ := List.mem_flatMap.mp hid
  obtain ⟨hnodes, hhas⟩ := h.nodesBelow_eq hs hs' (ht.has_of_mem_pending hs hp).1
  exact hhas id (hnodes ▸ hid)

end Keeps

/-! ### A write under a key -/

/-- A stretch of the old branches is not touched by what stands behind them. -/
theorem Regrown.forall₂_take_drop {before after : List (UInt8 × NodeId)}
    (h : s.Regrown s' key value before after) (next : Nat) {stop : Nat}
    (hstop : stop ≤ before.length) :
    List.Forall₂ (s.Follows s' key value) ((before.drop next).take (stop - next))
      ((after.drop next).take (stop - next)) := by
  obtain ⟨kept, added, rfl, hkept, -⟩ := h
  have hlength : before.length = kept.length := hkept.length_eq
  have hstretch : ((kept ++ added).drop next).take (stop - next) =
      (kept.drop next).take (stop - next) := by
    by_cases hle : next ≤ stop
    · rw [List.drop_append_of_le_length (by omega),
        List.take_append_of_le_length (by rw [List.length_drop]; omega)]
    · rw [Nat.sub_eq_zero_of_le (by omega), List.take_zero, List.take_zero]
  rw [hstretch]
  exact List.forall₂_take _ (List.forall₂_drop _ hkept)

namespace Wrote

theorem sound_openRow (h : Wrote key value s s') (hs : s.Sound) (hs' : s'.Sound) {r : OpenRow}
    (hr : r.Sound s) : r.Sound s' := by
  obtain ⟨id, hid, hrow⟩ := hr.owner
  have hrow' := (h.row_eq hid).trans hrow
  have hsound := hs.rowSound hid hrow
  have hlength := (h.regrown hsound.has).length_le
  rw [hsound.sound.length_entries,
    (hs'.rowSound (h.has id hid) hrow').sound.length_entries] at hlength
  exact ⟨⟨id, h.has id hid, hrow'⟩, Nat.le_trans hr.stop_le hlength⟩

theorem follows_openRow (h : Wrote key value s s') (hs : s.Sound) (hs' : s'.Sound) {r : OpenRow}
    (hr : r.Sound s) :
    List.Forall₂ (s.Follows s' key value) (r.pending s) (r.pending s') := by
  obtain ⟨id, hid, hrow⟩ := hr.owner
  have hsound := hs.rowSound hid hrow
  have hsound' := hs'.rowSound (h.has id hid) ((h.row_eq hid).trans hrow)
  have hstretch := (h.regrown hsound.has).forall₂_take_drop r.cursor.next
    (hsound.sound.length_entries.symm ▸ hr.stop_le)
  obtain ⟨hlength, hfollows⟩ := List.forall₂_iff_zip.mp hstretch
  rw [OpenRow.pending, OpenRow.pending, List.forall₂_map_left_iff, List.forall₂_map_right_iff]
  refine List.forall₂_iff_zip.mpr ⟨hlength, fun {before after} hmem => ?_⟩
  obtain ⟨hbefore, hafter⟩ := List.of_mem_zip hmem
  have hlead := hsound.leads before (List.mem_of_mem_drop (List.mem_of_mem_take hbefore))
  have hlead' := hsound'.leads after (List.mem_of_mem_drop (List.mem_of_mem_take hafter))
  have hpair := hfollows hmem
  refine ⟨?_, hpair.child⟩
  change s'.address after.2 = s.address before.2
  rw [hlead.address_eq, hlead'.address_eq, hpair.label, h.key_eq hid]

/-- What is pending is the same or has been replaced, under the same anchors. -/
theorem follows_pending (h : Wrote key value s s') (hs : s.Sound) (hs' : s'.Sound)
    (ht : t.Sound s) :
    List.Forall₂ (s.Follows s' key value) (t.pending s) (t.pending s') := by
  refine List.rel_append ?_ ?_
  · rw [List.forall₂_map_left_iff, List.forall₂_map_right_iff]
    refine List.forall₂_same.mpr fun id hid => ⟨?_, Or.inl rfl⟩
    exact h.key_eq (ht.first id (Option.mem_toList.mp hid))
  · have hrows : List.Forall₂ (fun a b => a = b ∧ a ∈ t.rows) t.rows t.rows :=
      List.forall₂_same.mpr fun r hr => ⟨rfl, hr⟩
    refine List.rel_flatMap hrows ?_
    rintro r _ ⟨rfl, hr⟩
    exact h.follows_openRow hs hs' (ht.rows r hr)

theorem map_fst_pending (h : Wrote key value s s') (hs : s.Sound) (hs' : s'.Sound)
    (ht : t.Sound s) : (t.pending s').map Prod.fst = (t.pending s).map Prod.fst := by
  have hlabels :
      List.Forall₂ (· = ·) ((t.pending s).map Prod.fst) ((t.pending s').map Prod.fst) := by
    rw [List.forall₂_map_left_iff, List.forall₂_map_right_iff]
    exact (h.follows_pending hs hs' ht).imp fun _ _ hfollows => hfollows.label.symm
  rw [List.forall₂_eq_eq_eq] at hlabels
  exact hlabels.symm

theorem sound_traversal (h : Wrote key value s s') (hs : s.Sound) (hs' : s'.Sound)
    (ht : t.Sound s) : t.Sound s' where
  first id hid := h.has id (ht.first id hid)
  rows r hr := h.sound_openRow hs hs' (ht.rows r hr)
  ordered := (h.map_fst_pending hs hs' ht).symm ▸ ht.ordered

theorem bounded_traversal (h : Wrote key value s s') (hs : s.Sound) (hs' : s'.Sound)
    (ht : t.Sound s) {P : Key → Prop} (hbounded : t.Bounded s P) : t.Bounded s' P := by
  intro p hp
  have hmem := List.mem_map_of_mem (f := Prod.fst) hp
  rw [h.map_fst_pending hs hs' ht] at hmem
  obtain ⟨q, hq, heq⟩ := List.mem_map.mp hmem
  exact heq ▸ hbounded q hq

/-- What is to come takes at most what was written. -/
theorem takes_rest (h : Wrote key value s s') (hs : s.Sound) (hs' : s'.Sound) (ht : t.Sound s) :
    Entries.Takes key value (t.rest s) (t.rest s') := by
  have hold : ∀ p ∈ t.pending s, Entries.Takes key value (s.itemsBelow p.2) (s'.itemsBelow p.2) :=
    fun p hp => h.takes hs hs' p.2 (ht.has_of_mem_pending hs hp).1
  have hpairs := ((List.forall₂_and_left _ _).mpr ⟨hold, h.follows_pending hs hs' ht⟩).imp
    fun _ _ hpair => hpair.2.takes hpair.1
  exact Entries.Takes.flatMap hpairs

end Wrote

end Store

end ByteTrie
