import ByteTrie.Branches.Shelf
import ByteTrie.Proofs.Branches.Append
import ByteTrie.Proofs.Branches.Placement

/-!
# Rows whatever is done to them

A call on a shelf leaves the rows alone, makes a new one, or does one operation on
one of them. The rows that are made are in order, and an operation keeps a row in
order and retains its bytes; so all rows are in order after any calls, those at
fault among them, and no byte in use ever changes.
-/

universe u

namespace ByteTrie

namespace Shelf

variable {α : Type u} {s s' s'' : Shelf α}

/-- What a call may have done to the rows. -/
inductive Changed (s : Shelf α) (s' : Shelf α) : Prop
  | same (rows : s'.rows = s.rows)
  | added {b : Branches α} (ordered : b.Ordered) (rows : s'.rows = s.rows.push b)
  | operated {id : Nat} {b : Branches α} (operated : (s.row id).Operated b)
      (rows : s'.rows = s.rows.setIfInBounds id b)

/-- Every row is in order. -/
def Ordered (s : Shelf α) : Prop := ∀ (id : Nat) (b : Branches α), s.rows[id]? = some b → b.Ordered

/-- Every row is still there and has the bytes it had. -/
def Retains (s s' : Shelf α) : Prop :=
  ∀ (id : Nat) (b : Branches α), s.rows[id]? = some b → ∃ b', s'.rows[id]? = some b' ∧ b.Retains b'

theorem row_eq {id : Nat} {b : Branches α} (h : s.rows[id]? = some b) : s.row id = b := by
  rw [row, Array.getD_eq_getD_getElem?, h, Option.getD_some]

theorem getElem?_setRow {id : Nat} {b b' : Branches α} (h : s.rows[id]? = some b) :
    (s.setRow id b').rows[id]? = some b' := by
  obtain ⟨hid, -⟩ := Array.getElem?_eq_some_iff.mp h
  exact Array.getElem?_setIfInBounds_self_of_lt hid

theorem ordered_of_ofEntries {entries : List (UInt8 × α)} {capacity : Nat} {b : Branches α}
    (h : Branches.ofEntries entries capacity = .ok b) : b.Ordered :=
  (Branches.sound_of_ofEntries h).1.toOrdered

theorem changed_of_call {c : Call α} {answer : Answer α} (h : s.call c = .ok (answer, s')) :
    s.Changed s' := by
  cases c with
  | blank capacity =>
    cases h
    exact .added (Branches.ordered_blank capacity) rfl
  | ofEntries entries capacity =>
    obtain ⟨b, hb, hadd⟩ := exists_of_map_eq_ok h
    cases hadd
    exact .added (ordered_of_ofEntries hb) rfl
  | insertIdx row index byte child capacity =>
    obtain ⟨b, hb, hadd⟩ := exists_of_map_eq_ok h
    cases hadd
    rw [Branches.insertIdx] at hb
    split at hb
    · exact .added (ordered_of_ofEntries hb) rfl
    · cases hb
  | push row byte child =>
    rw [call] at h
    split at h
    · rename_i b hpush
      cases h
      exact .operated (.pushed hpush) rfl
    · cases h
      exact .same rfl
  | replace row index child =>
    obtain ⟨⟨old, b⟩, hreplace, hset⟩ := exists_of_map_eq_ok h
    cases hset
    exact .operated (.replaced hreplace) rfl
  | vacate row =>
    cases h
    exact .operated .vacated rfl
  | cursor row =>
    cases h
    exact .same rfl
  | step cursor =>
    cases h
    exact .same rfl

namespace Retains

theorem refl (s : Shelf α) : s.Retains s := fun _ b hb => ⟨b, hb, .refl b⟩

theorem trans (h : s.Retains s') (h' : s'.Retains s'') : s.Retains s'' := by
  intro id b hb
  obtain ⟨b', hb', hretains⟩ := h id b hb
  obtain ⟨b'', hb'', hretains'⟩ := h' id b' hb'
  exact ⟨b'', hb'', hretains.trans hretains'⟩

end Retains

namespace Changed

theorem ordered (h : s.Changed s') (hs : s.Ordered) : s'.Ordered := by
  intro id b hb
  cases h with
  | same hrows => exact hs id b (hrows ▸ hb)
  | added hordered hrows =>
    rw [hrows, Array.getElem?_push] at hb
    split at hb
    · cases hb
      exact hordered
    · exact hs id b hb
  | @operated other changed hoperated hrows =>
    rw [hrows, Array.getElem?_setIfInBounds] at hb
    split at hb
    · rename_i heq
      subst heq
      split at hb
      · rename_i hlt
        cases hb
        have hrow := Array.getElem?_eq_getElem hlt
        exact (hs _ _ hrow).operated (row_eq hrow ▸ hoperated)
      · cases hb
    · exact hs id b hb

theorem retains (h : s.Changed s') : s.Retains s' := by
  intro id b hb
  obtain ⟨hid, -⟩ := Array.getElem?_eq_some_iff.mp hb
  cases h with
  | same hrows => exact ⟨b, hrows ▸ hb, .refl b⟩
  | added _ hrows =>
    refine ⟨b, ?_, .refl b⟩
    rw [hrows, Array.getElem?_push, if_neg (Nat.ne_of_lt hid)]
    exact hb
  | @operated other changed hoperated hrows =>
    rw [hrows]
    by_cases heq : other = id
    · subst heq
      refine ⟨changed, Array.getElem?_setIfInBounds_self_of_lt hid, ?_⟩
      exact row_eq hb ▸ hoperated.retains
    · exact ⟨b, (Array.getElem?_setIfInBounds_ne heq).trans hb, .refl b⟩

end Changed

/-- A call keeps the rows in order and their bytes, also one at fault. -/
theorem Ordered.perform (h : s.Ordered) (c : Call α) :
    (s.perform c).2.Ordered ∧ s.Retains (s.perform c).2 := by
  rw [Shelf.perform]
  split
  · rename_i hcall
    have hchanged := changed_of_call hcall
    exact ⟨hchanged.ordered h, hchanged.retains⟩
  · exact ⟨h, .refl s⟩

theorem Ordered.performAll (h : s.Ordered) (calls : List (Call α)) :
    (s.performAll calls).2.Ordered ∧ s.Retains (s.performAll calls).2 := by
  induction calls generalizing s with
  | nil => exact ⟨h, .refl s⟩
  | cons c rest ih =>
    obtain ⟨hstep, hretains⟩ := h.perform c
    obtain ⟨hrest, hretains'⟩ := ih hstep
    exact ⟨hrest, hretains.trans hretains'⟩

theorem ordered_empty : (empty : Shelf α).Ordered := fun id b hb => by
  simp [empty] at hb

/-- Whatever is done with rows, each is in order and has at most as many children as there are
bytes. A search answers the slot in use that has the byte, or else the complement of how many
lesser bytes are in use. Whatever is done then, the count does not fall, and the bytes that
were in use are as they were. -/
theorem performAll_ordered (calls later : List (Call α)) :
    ∃ answers s answers' s', empty.performAll calls = (answers, s) ∧
      s.performAll later = (answers', s') ∧
      ∀ (id : Nat) (b : Branches α), s.rows[id]? = some b → b.Ordered ∧ b.count ≤ 256 ∧
        (∀ byte, ∃ code : Int, (b.locate byte).map Position.code = .ok code ∧
          (∀ index : Nat, code = index ↔ index < b.count ∧ b.byteAt index = .ok byte) ∧
          ((∀ index : Nat, code ≠ index) →
            code = ~~~((b.keys.toList.take b.count).countP (· < byte) : Int))) ∧
        ∃ b', s'.rows[id]? = some b' ∧ b'.capacity = b.capacity ∧ b.count ≤ b'.count ∧
          ∀ index < b.count, b'.byteAt index = b.byteAt index := by
  obtain ⟨hs, -⟩ := ordered_empty.performAll calls
  obtain ⟨hs', hretains⟩ := hs.performAll later
  refine ⟨_, _, _, _, rfl, rfl, fun id b hb => ?_⟩
  have hordered := hs id b hb
  obtain ⟨b', hb', hkept⟩ := hretains id b hb
  exact ⟨hordered, hordered.count_le_256, hordered.locate_code, b', hb', hkept.capacity,
    hkept.count_le, fun index hindex => hkept.byteAt_eq hordered (hs' id b' hb') hindex⟩

/-- Among calls that are refused or at fault, a row of two is emptied and takes a third child; its
bytes are found where they were, and a byte between them is not. -/
theorem performAll_ordered_pushed :
    ∃ (s s' : Shelf Nat) (b b' : Branches Nat),
      empty.performAll [.ofEntries [(3, 30), (9, 90)] 4, .ofEntries [(9, 90), (3, 30)] 4,
        .push 0 5 50] = ([.ok (.made 0), .error .entriesNotAscending, .ok (.refused 50)], s) ∧
      s.performAll [.replace 0 2 20, .vacate 0, .push 0 200 1] =
        ([.error .replacePastCount, .ok (.vacated [30, 90]), .ok .pushed], s') ∧
      s.rows[0]? = some b ∧ s'.rows[0]? = some b' ∧ b.Ordered ∧ b.count = 2 ∧ b'.count = 3 ∧
      b'.capacity = b.capacity ∧ b'.byteAt 1 = b.byteAt 1 ∧
      (b.locate 9).map Position.code = .ok 1 ∧
      (b.locate 5).map Position.code = .ok (~~~1) := by
  obtain ⟨_, s, _, s', hcalls, hlater, h⟩ := performAll_ordered (α := Nat)
    [.ofEntries [(3, 30), (9, 90)] 4, .ofEntries [(9, 90), (3, 30)] 4, .push 0 5 50]
    [.replace 0 2 20, .vacate 0, .push 0 200 1]
  obtain ⟨-, rfl⟩ := Prod.mk.inj hcalls
  obtain ⟨-, rfl⟩ := Prod.mk.inj hlater
  let b : Branches Nat := ⟨#[3, 9, 0, 0], #[some 30, some 90, none, none], 2⟩
  have hbetween : ∀ index < b.count, b.byteAt index ≠ .ok 5 := by decide
  obtain ⟨hordered, -, hlocate, b', hb', hcapacity, -, hbytes⟩ := h 0 b rfl
  obtain ⟨code, hcode, hfound, -⟩ := hlocate 9
  obtain rfl : code = 1 := (hfound 1).mpr ⟨by decide, rfl⟩
  obtain ⟨code', hcode', hfound', habsent⟩ := hlocate 5
  obtain rfl : code' = ~~~1 := by
    refine habsent fun index heq => ?_
    obtain ⟨hindex, hbyte⟩ := (hfound' index).mp heq
    exact hbetween index hindex hbyte
  refine ⟨_, _, b, b', rfl, rfl, rfl, hb', hordered, rfl, ?_, hcapacity, hbytes 1 (by decide),
    hcode, hcode'⟩
  cases hb'
  rfl

/-- A child is appended to a row without emptied slots exactly when there is room and a search
puts its byte behind all others, which is when a row can be built with the child behind all
others; and that row is the one that comes about. A child that is refused is handed back, and
nothing changes. -/
theorem performAll_push (calls : List (Call α)) :
    ∃ answers s, empty.performAll calls = (answers, s) ∧
      ∀ (id : Nat) (b : Branches α), s.rows[id]? = some b →
        (∀ index < b.count, (b.get? index).isSome) →
        ∀ byte child, ∃ answer s', s.call (.push id byte child) = .ok (answer, s') ∧
          (answer = .pushed ↔ b.count < b.capacity ∧
            (b.locate byte).map Position.code = .ok (~~~(b.count : Int))) ∧
          (answer = .pushed ↔
            ∃ copy, b.insertIdx b.count byte child b.capacity = .ok copy) ∧
          (answer = .pushed → ∃ b', s'.rows[id]? = some b' ∧
            b.insertIdx b.count byte child b.capacity = .ok b') ∧
          (answer ≠ .pushed → answer = .refused child ∧ s' = s) := by
  obtain ⟨hs, -⟩ := ordered_empty.performAll calls
  refine ⟨_, _, rfl, fun id b hb hfilled byte child => ?_⟩
  have hsound : b.Sound := ⟨hs id b hb, hfilled⟩
  have hpushes : (∃ b', b.push? byte child = some b') ↔ _ := hsound.toOrdered.exists_push?_iff
  rw [hsound.toOrdered.locate_code_eq_compl_count_iff, hsound.exists_insertIdx_count_iff,
    ← hpushes, call, row_eq hb]
  cases hpush : b.push? byte child with
  | none => exact ⟨_, _, rfl, by simp, by simp, by simp, fun _ => ⟨rfl, rfl⟩⟩
  | some b' =>
    refine ⟨_, _, rfl, by simp, by simp, fun _ => ?_, fun hne => absurd rfl hne⟩
    exact ⟨b', getElem?_setRow hb, hsound.insertIdx_count_of_push? hpush⟩

/-- A greater byte comes in behind the one that is there, which is itself refused. -/
theorem performAll_push_behind :
    ∃ (s : Shelf Nat) (b copy : Branches Nat),
      empty.performAll [.ofEntries [(3, 30)] 2] = ([.ok (.made 0)], s) ∧ s.rows[0]? = some b ∧
        (∃ s', s.call (.push 0 7 70) = .ok (.pushed, s') ∧ s'.rows[0]? = some copy) ∧
        b.insertIdx b.count 7 70 b.capacity = .ok copy ∧
        s.call (.push 0 3 70) = .ok (.refused 70, s) := by
  obtain ⟨_, s, hperform, hpush⟩ := performAll_push (α := Nat) [.ofEntries [(3, 30)] 2]
  obtain ⟨rfl, rfl⟩ := Prod.mk.inj hperform
  have hfilled : ∀ index < 1,
      ((⟨#[3, 0], #[some 30, none], 1⟩ : Branches Nat).get? index).isSome := by
    decide
  obtain ⟨answer, s', hcall, htakes, -, hbuilds, -⟩ := hpush 0 _ rfl hfilled 7 70
  obtain rfl : answer = .pushed := htakes.mpr ⟨by decide, rfl⟩
  obtain ⟨copy, hcopy, hbuilt⟩ := hbuilds rfl
  obtain ⟨answer', s'', hcall', htakes', -, -, hrefuses⟩ := hpush 0 _ rfl hfilled 3 70
  have hne : answer' ≠ .pushed := by
    intro heq
    have hcode := (htakes'.mp heq).2
    cases hcode
  obtain ⟨rfl, rfl⟩ := hrefuses hne
  exact ⟨_, _, copy, rfl, rfl, ⟨s', hcall, hcopy⟩, hbuilt, hcall'⟩

/-- A row can be built with one more child exactly when the position is one of those up to the
count, there is room, and the byte parts the entries beside its place; a position behind the last
entry means the place behind it. The new row has the entries of the old one and the child among
them. Otherwise the first check that fails is the fault, and there is no new row. The old row stays
as it was. -/
theorem performAll_insertIdx (calls : List (Call α)) :
    ∃ answers s, empty.performAll calls = (answers, s) ∧
      ∀ (id : Nat) (b : Branches α), s.rows[id]? = some b →
        ∀ index byte child capacity, ∃ place answer s', place = min index b.entries.length ∧
          s.perform (.insertIdx id index byte child capacity) = (answer, s') ∧
          s'.rows[id]? = some b ∧
          ((∃ made, answer = .ok made) ↔ index ≤ b.count ∧ b.entries.length + 1 ≤ capacity ∧
            Branches.Parts (b.entries.map Prod.fst) place byte) ∧
          (∀ made, answer = .ok made → made = .made s.rows.size ∧ ∃ b',
            s'.rows = s.rows.push b' ∧ b'.count = b.entries.length + 1 ∧ b'.capacity = capacity ∧
              b'.entries = b.entries.take place ++ (byte, child) :: b.entries.drop place) ∧
          (∀ fault, answer = .error fault → s' = s ∧
            fault = if b.count < index then .insertPastCount
              else if capacity < b.entries.length + 1 then .entriesPastCapacity
              else .entriesNotAscending) := by
  obtain ⟨hs, -⟩ := ordered_empty.performAll calls
  refine ⟨_, _, rfl, fun id b hb index byte child capacity => ?_⟩
  have hbuilds : (∃ b', b.insertIdx index byte child capacity = .ok b') ↔ _ :=
    (hs id b hb).exists_insertIdx_iff
  refine ⟨min index b.entries.length, ?_⟩
  rw [← hbuilds, perform, call, row_eq hb]
  cases hinsert : b.insertIdx index byte child capacity with
  | error fault =>
    refine ⟨_, _, rfl, rfl, hb, by simp, by simp, ?_⟩
    rintro _ ⟨⟩
    exact ⟨rfl, Branches.fault_of_insertIdx hinsert⟩
  | ok b' =>
    obtain ⟨hsound, hcapacity, hentries⟩ := Branches.entries_of_insertIdx hinsert
    refine ⟨_, _, rfl, rfl, ?_, by simp, ?_, by simp⟩
    · obtain ⟨hid, -⟩ := Array.getElem?_eq_some_iff.mp hb
      exact (Array.getElem?_push_lt hid).trans (Array.getElem?_eq_getElem hid ▸ hb)
    · rintro _ ⟨⟩
      refine ⟨rfl, b', rfl, ?_, hcapacity, hentries.trans (b.withEntry_eq_min index byte child)⟩
      rw [← hsound.length_entries, hentries, Branches.length_withEntry]

/-- Of three slots in use two are empty, so every position but the first is behind the one child
that is there. In the first a greater byte is out of order. -/
theorem performAll_insertIdx_emptied :
    ∃ (s s' : Shelf Nat) (b b' : Branches Nat),
      empty.performAll [.ofEntries [(3, 30), (5, 50), (7, 70)] 4, .vacate 0, .replace 0 2 71] =
        ([.ok (.made 0), .ok (.vacated [30, 50, 70]), .ok (.replaced none)], s) ∧
      s.rows[0]? = some b ∧ b.count = 3 ∧ b.entries = [(7, 71)] ∧
      s.perform (.insertIdx 0 3 9 90 2) = (.ok (.made 1), s') ∧ s'.rows = s.rows.push b' ∧
      b'.count = 2 ∧ b'.entries = [(7, 71), (9, 90)] ∧
      s.perform (.insertIdx 0 0 9 90 2) = (.error .entriesNotAscending, s) := by
  obtain ⟨_, s, hperform, hinsert⟩ := performAll_insertIdx (α := Nat)
    [.ofEntries [(3, 30), (5, 50), (7, 70)] 4, .vacate 0, .replace 0 2 71]
  obtain ⟨rfl, rfl⟩ := Prod.mk.inj hperform
  obtain ⟨_, answer, s', rfl, hanswer, -, hiff, hmade, -⟩ := hinsert 0 _ rfl 3 9 90 2
  obtain ⟨made, rfl⟩ := hiff.mpr ⟨by decide, by decide, Or.inr ⟨7, rfl, by decide⟩, Or.inl rfl⟩
  obtain ⟨rfl, b', hrows, hcount, -, hentries⟩ := hmade made rfl
  obtain ⟨_, answer, s'', rfl, hanswer', -, hiff', -, hfault⟩ := hinsert 0 _ rfl 0 9 90 2
  cases answer with
  | ok made =>
    obtain ⟨-, -, -, hbehind⟩ := hiff'.mp ⟨made, rfl⟩
    exact absurd hbehind (by decide)
  | error fault =>
    obtain ⟨rfl, rfl⟩ := hfault fault rfl
    exact ⟨_, s', _, b', rfl, rfl, rfl, rfl, hanswer, hrows, hcount, hentries, hanswer'⟩

end Shelf

end ByteTrie
