import ByteTrie.Proofs.Key.CommonPrefix
import ByteTrie.Proofs.Store.Pieces

/-!
# Going down by whole segments

From the end of a node's segment a descent can take the whole segment of a branch at
once: it compares what is left of the key with the segment, and either enters the branch
or stops. This is the same descent as the one that reads byte by byte. No segment of a
branch is empty, so each branch that is entered takes a byte off the key, and the
descent ends after as many branches as the key has bytes, if not before.
-/

namespace ByteTrie

namespace Store

variable {V : Type} {s : Store V}

/-- What a descent does at the end of a segment. -/
inductive Turn where
  | stops (stop : Stop)
  /-- A branch is entered, and some of the key is left at the end of its segment. -/
  | enters (child : Place) (rest : Key)

/-- Compare what is left of a key with the branch that begins with its first byte. -/
def turn (s : Store V) (place : Place) : Key → Except Fault Turn
  | [] => .ok (.stops (.ended place (s.node place.node).segment.length))
  | byte :: rest =>
      match s.locate place.node byte with
      | .error fault => .error fault
      | .ok (.absent index) => .ok (.stops (.branchless place index (byte :: rest)))
      | .ok (.found index) =>
          match s.branch? place.node index with
          | none => .ok (.stops (.vacant index))
          | some child =>
              let segment := (s.node child.node).segment
              let common := (Key.commonPrefix (byte :: rest) segment.bytes).length
              if common = segment.length then .ok (.enters child ((byte :: rest).drop common))
              else if common = (byte :: rest).length then .ok (.stops (.ended child common))
              else .ok (.stops (.diverged child common ((byte :: rest).drop common)))

/-- A descent with some of a key left enters some nodes, one with each turn, and stops
with the turn behind the last. -/
inductive Descends (s : Store V) : Place → Key → List NodeId → Stop → Prop
  | stops {place : Place} {rest : Key} {stop : Stop} (turn : s.turn place rest = .ok (.stops stop)) :
      Descends s place rest [] stop
  | enters {place child : Place} {rest later : Key} {entered : List NodeId} {stop : Stop}
      (turn : s.turn place rest = .ok (.enters child later))
      (below : Descends s child later entered stop) :
      Descends s place rest (child.node :: entered) stop

/-- Byte by byte through a segment is as far as the key and the segment agree. -/
theorem descend_eq_of_within (place : Place) (rest : Key)
    (hwithin : (s.node place.node).segment.Within) {matched common : Nat}
    (hle : matched ≤ (s.node place.node).segment.length)
    (hcommon : common =
      (Key.commonPrefix rest ((s.node place.node).segment.bytes.drop matched)).length) :
    s.descend place matched rest =
      if matched + common = (s.node place.node).segment.length then
        s.descend place (matched + common) (rest.drop common)
      else if common = rest.length then .ok (.ended place (matched + common))
      else .ok (.diverged place (matched + common) (rest.drop common)) := by
  induction rest generalizing matched common with
  | nil =>
    obtain rfl : common = 0 := by rw [hcommon]; rfl
    rw [Nat.add_zero]
    split <;> rfl
  | cons byte rest ih =>
    cases hget : (s.node place.node).segment.get? matched with
    | none =>
      have hdrop : (s.node place.node).segment.bytes.drop matched = [] := by
        rw [Segment.get?_eq] at hget
        exact List.drop_eq_nil_of_le (List.getElem?_eq_none_iff.mp hget)
      obtain rfl : common = 0 := by rw [hcommon, hdrop]; simp
      have hend : matched = (s.node place.node).segment.length := by
        refine Nat.le_antisymm hle (Nat.le_of_not_lt fun hlt => ?_)
        obtain ⟨expected, hexpected⟩ := Segment.exists_get? hwithin hlt
        rw [hget] at hexpected
        cases hexpected
      rw [Nat.add_zero, if_pos hend]
      rfl
    | some expected =>
      have hlt := Segment.lt_length_of_get? hget
      have hdrop : (s.node place.node).segment.bytes.drop matched =
          expected :: (s.node place.node).segment.bytes.drop (matched + 1) := by
        rw [Segment.get?_eq] at hget
        obtain ⟨hbound, heq⟩ := List.getElem?_eq_some_iff.mp hget
        rw [List.drop_eq_getElem_cons hbound, heq]
      rw [hdrop, Key.commonPrefix_cons] at hcommon
      rw [descend, hget]
      by_cases heq : expected = byte
      · subst heq
        rw [if_pos rfl, List.length_cons] at hcommon
        simp only [if_true]
        rw [ih hlt rfl, hcommon, Nat.add_right_comm matched 1, Nat.add_assoc matched _ 1,
          List.drop_succ_cons, List.length_cons]
        simp only [Nat.add_right_cancel_iff]
      · obtain rfl : common = 0 := by rw [hcommon, if_neg (Ne.symm heq)]; rfl
        simp only [if_neg heq, Nat.add_zero, if_neg (Nat.ne_of_lt hlt), List.drop_zero]
        rw [if_neg (by simp)]

/-- A branch is entered with its first byte read. -/
theorem descend_zero {place : Place} {byte : UInt8}
    (hget : (s.node place.node).segment.get? 0 = some byte) (rest : Key) :
    s.descend place 0 (byte :: rest) = s.descend place 1 rest := by
  rw [descend, hget]
  simp

namespace Sound

/-- At the end of a segment a descent goes on as one turn says, and a branch that the turn
enters takes at least a byte off the key. -/
theorem turn_cases (h : s.Sound) {place : Place} (hid : s.Has place.node) (rest : Key) :
    (∃ stop, s.turn place rest = .ok (.stops stop) ∧
      s.descend place (s.node place.node).segment.length rest = .ok stop) ∨
    ∃ child later, s.turn place rest = .ok (.enters child later) ∧
      s.Branch place.node child.node ∧ later.length < rest.length ∧
      s.descend place (s.node place.node).segment.length rest =
        s.descend child (s.node child.node).segment.length later := by
  cases rest with
  | nil => exact .inl ⟨_, rfl, rfl⟩
  | cons byte rest =>
    have hend : (s.node place.node).segment.get? (s.node place.node).segment.length = none := by
      rw [Segment.get?, if_neg (Nat.lt_irrefl _)]
    rw [Store.descend, hend, turn]
    rcases h.locate hid byte with ⟨index, hlocate, -⟩ | ⟨index, row, child, hlocate, hrow, hentry⟩
    · simp only [hlocate]
      exact .inl ⟨_, rfl, rfl⟩
    · have hsound := h.rowSound hid hrow
      have hmem := List.mem_of_getElem? hentry
      have hlead : s.Leads (s.key place.node) byte child := hsound.leads _ hmem
      have hbranch : s.branch? place.node index = some ⟨.branch row index, child⟩ := by
        simp [branch?, hrow, hsound.sound.get?_eq, hentry]
      have hstride := descend_eq_of_within ⟨.branch row index, child⟩ (byte :: rest)
        (h.node child hlead.has).within (Nat.zero_le _) rfl
      rw [descend_zero hlead.get?_zero, Nat.zero_add, List.drop_zero] at hstride
      simp only [hlocate, hbranch, hstride]
      split
      · rename_i hall
        refine .inr ⟨_, _, rfl, mem_children.mpr ⟨row, hrow, byte, hmem⟩, ?_, by rw [hall]⟩
        have := h.length_pos hlead
        rw [List.length_drop, hall, List.length_cons]
        omega
      · split
        · exact .inl ⟨_, rfl, rfl⟩
        · exact .inl ⟨_, rfl, rfl⟩

/-- From the end of a segment a descent ends, with no more branches entered than there are
bytes left. -/
theorem descends (h : s.Sound) (place : Place) (hid : s.Has place.node) (rest : Key) :
    ∃ entered stop, s.Descends place rest entered stop ∧
      s.descend place (s.node place.node).segment.length rest = .ok stop ∧
      entered.length ≤ rest.length := by
  induction hn : rest.length using Nat.strongRecOn generalizing place rest with
  | ind n ih =>
    obtain ⟨stop, hturn, hstop⟩ | ⟨child, later, hturn, hchild, hless, hstride⟩ :=
      h.turn_cases hid rest
    · exact ⟨[], stop, .stops hturn, hstop, Nat.zero_le _⟩
    · obtain ⟨entered, stop, hbelow, hstop, hle⟩ :=
        ih later.length (hn ▸ hless) child (h.has_child hid hchild) later rfl
      refine ⟨child.node :: entered, stop, .enters hturn hbelow, hstride.trans hstop, ?_⟩
      rw [List.length_cons]
      omega

/-- A descent from the root ends, with no more branches entered than the key has bytes. -/
theorem trace_descends (h : s.Sound) (key : Key) :
    ∃ entered stop, s.Descends s.rootPlace key entered stop ∧ s.trace key = .ok stop ∧
      entered.length ≤ key.length := by
  have hdescends := h.descends s.rootPlace h.has_root key
  rwa [rootPlace, h.length_root] at hdescends

end Sound

end Store

end ByteTrie
