import ByteTrie.Proofs.Shelf
import Mathlib.Data.List.ReduceOption

/-!
# Cursors whatever is done to their rows

A cursor holds two positions and no part of its row, and any calls may come between
its steps. A step meets the first child ahead that is there at that moment, and the
cursor is behind it afterwards. So what the cursor meets in time has bytes in the
order of the row, at positions that were in use when it was opened. When nothing is
left ahead the cursor stands at its end, and stays there.
-/

universe u

namespace ByteTrie

namespace Branches

variable {α : Type u} {b b' : Branches α}

namespace Cursor

variable {c c' : Cursor} {entry : Option (UInt8 × α)}

/-- What a step of a cursor meets and where it leads: to the first slot ahead that is not
empty, or to the end when all of them are. -/
inductive Meets (b : Branches α) (c : Cursor) : Option (UInt8 × α) → Cursor → Prop
  | child {place : Nat} {byte : UInt8} {child : α} (next_le : c.next ≤ place)
      (lt_stop : place < c.stop) (byte_eq : b.keys[place]? = some byte)
      (held : b.get? place = some child)
      (passed : ∀ other, c.next ≤ other → other < place → b.get? other = none) :
      Meets b c (some (byte, child)) { c with next := place + 1 }
  | ended (passed : ∀ other, c.next ≤ other → other < c.stop → b.get? other = none) :
      Meets b c none { c with next := c.stop }

theorem meets_stepEntry (hb : b.Ordered) (c : Cursor) :
    c.Meets b (c.stepEntry b).1 (c.stepEntry b).2 := by
  cases hfirst : b.firstFrom? c.next c.remaining with
  | none =>
    have hstep : c.stepEntry b = (none, { c with next := c.stop }) := by
      simp only [stepEntry, step, hfirst, Option.bind_none]
    rw [hstep]
    refine .ended fun other hother hstop => firstFrom?_eq_none_iff.mp hfirst other hother ?_
    rw [remaining]
    omega
  | some found =>
    obtain ⟨place, child⟩ := found
    obtain ⟨hnext, hstop, hheld, hpassed⟩ := firstFrom?_eq_some hfirst
    have hplace : place < b.keys.size := by
      rw [hb.size_keys]
      by_contra hpast
      rw [get?_of_capacity_le (Nat.le_of_not_lt hpast)] at hheld
      cases hheld
    have hbyte : b.keys[place]? = some b.keys[place] := Array.getElem?_eq_getElem hplace
    have hentry : b.entry? place = some (b.keys[place], child) := by
      unfold entry?
      rw [hbyte, hheld]
      rfl
    have hstep : c.stepEntry b = (some (b.keys[place], child), { c with next := place + 1 }) := by
      simp only [stepEntry, step, hfirst, Option.bind_some, hentry]
    rw [hstep]
    rw [remaining] at hstop
    exact .child hnext (by omega) hbyte hheld hpassed

namespace Meets

theorem stop_eq (h : c.Meets b entry c') : c'.stop = c.stop := by
  cases h <;> rfl

theorem next_le_stop (h : c.Meets b entry c') : c'.next ≤ c'.stop := by
  cases h with
  | child _ hlt => exact hlt
  | ended => exact Nat.le_refl _

theorem next_le (h : c.Meets b entry c') (hc : c.next ≤ c.stop) : c.next ≤ c'.next := by
  cases h with
  | child hnext => exact Nat.le_succ_of_le hnext
  | ended => exact hc

/-- The byte that is met comes before those that are still ahead, also among the bytes that
the row had earlier. -/
theorem sublist_drop (h : c.Meets b' entry c') (hb : b.Ordered) (hretains : b.Retains b')
    (hstop : c.stop = b.count) {later : List (UInt8 × α)}
    (hlater : (later.map Prod.fst).Sublist ((b.keys.toList.take b.count).drop c'.next)) :
    ((entry.toList ++ later).map Prod.fst).Sublist
      ((b.keys.toList.take b.count).drop c.next) := by
  cases h with
  | @child place byte child hnext hlt hbyte =>
    rw [hretains.byte place (hstop ▸ hlt)] at hbyte
    have hget : (b.keys.toList.take b.count)[place]? = some byte := by
      rw [List.getElem?_take_of_lt (hstop ▸ hlt), Array.getElem?_toList, hbyte]
    have hdrop : (b.keys.toList.take b.count).drop place =
        byte :: (b.keys.toList.take b.count).drop (place + 1) := by
      rw [List.drop_eq_getElem?_toList_append, hget]
      rfl
    refine List.Sublist.trans ?_ (List.drop_sublist_drop_left _ hnext)
    rw [hdrop]
    exact hlater.cons_cons byte
  | ended =>
    have hnil : (b.keys.toList.take b.count).drop c.stop = [] :=
      List.drop_eq_nil_of_le (by rw [hb.length_take_keys, hstop])
    rw [hnil, List.sublist_nil] at hlater
    rw [Option.toList_none, List.nil_append, hlater]
    exact List.nil_sublist _

end Meets

end Cursor

end Branches

namespace Shelf

variable {α : Type u} {s s' : Shelf α} {b : Branches α} {cursor row : Nat} {c : Branches.Cursor}

/-- What the steps of one cursor met, among the answers to several calls. -/
def met (cursor : Nat) (calls : List (Call α)) (answers : List (Except Fault (Answer α))) :
    List (Option (UInt8 × α)) :=
  (calls.zip answers).filterMap fun
    | (.step other, .ok (.met entry)) => if other = cursor then some entry else none
    | _ => none

theorem met_step (entry : Option (UInt8 × α)) (calls : List (Call α))
    (answers : List (Except Fault (Answer α))) :
    met cursor (.step cursor :: calls) (.ok (.met entry) :: answers) =
      entry :: met cursor calls answers := by
  simp [met]

theorem met_of_ne {call : Call α} (h : call ≠ .step cursor) (answer : Except Fault (Answer α))
    (calls : List (Call α)) (answers : List (Except Fault (Answer α))) :
    met cursor (call :: calls) (answer :: answers) = met cursor calls answers := by
  rw [met, List.zip_cons_cons, List.filterMap_cons_none, met]
  split
  · rename_i other entry heq
    cases heq
    have hother : other ≠ cursor := fun heq => h (congrArg Call.step heq)
    exact if_neg hother
  · rfl

/-- A call other than a step of a cursor leaves the cursor where it is. -/
theorem getElem?_cursors_of_call {call : Call α} {answer : Answer α}
    (h : s.call call = .ok (answer, s')) (hne : call ≠ .step cursor)
    (hcursor : s.cursors[cursor]? = some (row, c)) : s'.cursors[cursor]? = some (row, c) := by
  cases call with
  | blank capacity =>
    cases h
    exact hcursor
  | ofEntries entries capacity =>
    obtain ⟨b, -, hadd⟩ := exists_of_map_eq_ok h
    cases hadd
    exact hcursor
  | insertIdx other index byte child capacity =>
    obtain ⟨b, -, hadd⟩ := exists_of_map_eq_ok h
    cases hadd
    exact hcursor
  | push other byte child =>
    rw [Shelf.call] at h
    split at h <;> cases h <;> exact hcursor
  | replace other index child =>
    obtain ⟨⟨old, b⟩, -, hset⟩ := exists_of_map_eq_ok h
    cases hset
    exact hcursor
  | vacate other =>
    cases h
    exact hcursor
  | cursor other =>
    cases h
    obtain ⟨hlt, -⟩ := Array.getElem?_eq_some_iff.mp hcursor
    rw [Array.getElem?_push, if_neg (Nat.ne_of_lt hlt)]
    exact hcursor
  | step other =>
    cases h
    have hother : other ≠ cursor := fun heq => hne (heq ▸ rfl)
    exact (Array.getElem?_setIfInBounds_ne hother).trans hcursor

/-- A cursor is open on a row that has retained what it was when the cursor was opened. -/
structure Walks (s : Shelf α) (cursor row : Nat) (b : Branches α) (c : Branches.Cursor) :
    Prop where
  opened : s.cursors[cursor]? = some (row, c)
  retains : ∃ b', s.rows[row]? = some b' ∧ b.Retains b'
  stop_eq : c.stop = b.count
  next_le : c.next ≤ c.stop

/-- A step is answered with what the cursor meets in its row as it is then. -/
theorem Walks.perform_step (h : s.Walks cursor row b c) (hs : s.Ordered) :
    ∃ entry c' s' b', s.perform (.step cursor) = (.ok (.met entry), s') ∧
      s.rows[row]? = some b' ∧ b.Retains b' ∧ c.Meets b' entry c' ∧ s'.Walks cursor row b c' := by
  obtain ⟨b', hrow, hretains⟩ := h.retains
  obtain ⟨hlt, -⟩ := Array.getElem?_eq_some_iff.mp h.opened
  have hget : s.cursors.getD cursor (0, ⟨0, 0⟩) = (row, c) := by
    rw [Array.getD_eq_getD_getElem?, h.opened, Option.getD_some]
  have hmeets := c.meets_stepEntry (hs row b' hrow)
  have hperform : s.perform (.step cursor) = (.ok (.met (c.stepEntry b').1),
      { s with cursors := s.cursors.setIfInBounds cursor (row, (c.stepEntry b').2) }) := by
    rw [perform, call, hget]
    simp only [row_eq hrow]
  refine ⟨_, _, _, b', hperform, hrow, hretains, hmeets, ?_⟩
  refine ⟨Array.getElem?_setIfInBounds_self_of_lt hlt, ⟨b', hrow, hretains⟩, ?_, ?_⟩
  · exact hmeets.stop_eq.trans h.stop_eq
  · exact hmeets.next_le_stop

/-- A call other than its own step leaves a cursor where it is. -/
theorem Walks.perform_of_ne (h : s.Walks cursor row b c) (hs : s.Ordered) {call : Call α}
    (hne : call ≠ .step cursor) : (s.perform call).2.Walks cursor row b c := by
  obtain ⟨b', hrow, hretains⟩ := h.retains
  obtain ⟨b'', hrow', hretains'⟩ := (hs.perform call).2 row b' hrow
  refine ⟨?_, ⟨b'', hrow', hretains.trans hretains'⟩, h.stop_eq, h.next_le⟩
  rw [Shelf.perform]
  split
  · rename_i hcall
    exact getElem?_cursors_of_call hcall hne h.opened
  · exact h.opened

/-- What a cursor meets in time has bytes that were in use ahead of it, each once and in order.
Once it has met the end it stands there. -/
theorem Walks.performAll (h : s.Walks cursor row b c) (hs : s.Ordered) (hb : b.Ordered)
    (calls : List (Call α)) :
    ∃ c', (s.performAll calls).2.Walks cursor row b c' ∧ c.next ≤ c'.next ∧
      ((met cursor calls (s.performAll calls).1).reduceOption.map Prod.fst).Sublist
        ((b.keys.toList.take b.count).drop c.next) ∧
      (none ∈ met cursor calls (s.performAll calls).1 → c'.next = c'.stop) := by
  induction calls generalizing s c with
  | nil => exact ⟨c, h, Nat.le_refl _, List.nil_sublist _, fun hnone => by cases hnone⟩
  | cons call rest ih =>
    have hs' := (hs.perform call).1
    by_cases hstep : call = .step cursor
    · subst hstep
      obtain ⟨entry, c', s', b', hperform, -, hretains, hmeets, hwalks⟩ := h.perform_step hs
      rw [hperform] at hs'
      obtain ⟨c'', hwalks', hle, hsub, hend⟩ := ih hwalks hs'
      refine ⟨c'', ?_, Nat.le_trans (hmeets.next_le h.next_le) hle, ?_, ?_⟩
      · simpa only [Shelf.performAll, hperform] using hwalks'
      · have hcons : (entry :: met cursor rest (s'.performAll rest).1).reduceOption =
            entry.toList ++ (met cursor rest (s'.performAll rest).1).reduceOption := by
          cases entry <;> rfl
        simp only [Shelf.performAll, hperform, met_step, hcons]
        exact hmeets.sublist_drop hb hretains h.stop_eq hsub
      · simp only [Shelf.performAll, hperform, met_step, List.mem_cons]
        rintro (rfl | hnone)
        · -- A cursor that met the end stands there, and later steps only lead on.
          cases hmeets
          exact Nat.le_antisymm hwalks'.next_le (hwalks'.stop_eq.trans h.stop_eq.symm ▸ hle)
        · exact hend hnone
    · obtain ⟨c', hwalks', hle, hsub, hend⟩ := ih (h.perform_of_ne hs hstep) hs'
      refine ⟨c', hwalks', hle, ?_, ?_⟩
      · simpa only [Shelf.performAll, met_of_ne hstep] using hsub
      · simpa only [Shelf.performAll, met_of_ne hstep] using hend

end Shelf

end ByteTrie
