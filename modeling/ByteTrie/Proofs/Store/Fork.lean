import ByteTrie.Proofs.Branches.Append
import ByteTrie.Proofs.Store.Pieces

/-!
# Forks

A node that a key departs from inside its segment is cut, and a leaf comes beside
the rest of it in the same write. The node might as well be cut first, and its
first part be given the leaf as any node is given one more branch. As the first
part was made with room for the rest alone, the leaf is not appended but a row is
built anew, wherever among the two the search has put the leaf. The row is the one
that the single write makes, for a row is given by its entries and its capacity.
-/

namespace ByteTrie

namespace Store

variable {V : Type} {s s' g : Store V}

/-- The root, or a slot in use. -/
def HasSeat (s : Store V) : Seat → Prop
  | .root => True
  | .branch row index => index < (s.row row).count ∧ index < (s.row row).capacity

/-- A node is found in a seat. -/
def Seats (s : Store V) : Seat → NodeId → Prop
  | .root, id => s.root = id
  | .branch row index, id => (s.row row).get? index = some id

/-- A node has come into a seat, and nothing else has changed. -/
structure Seated (s : Store V) (seat : Seat) (new : NodeId) (s' : Store V) : Prop where
  nodes : s'.nodes = s.nodes
  hasSeat : s'.HasSeat seat
  seats : s'.Seats seat new
  hasRow : ∀ row, s'.HasRow row ↔ s.HasRow row
  row : ∀ row, (∀ index, seat ≠ .branch row index) → s'.row row = s.row row

/-- A node has come into the seat of a cut one. It stands for the first bytes of it,
without a value, and has a row of branches. The rest of the cut node keeps what that
had: its value, its row, and the key that ends with it. Whatever else was there is as
it was. -/
structure Forks (s : Store V) (place : Place) (cut : Nat) (lower : NodeId)
    (b : Branches NodeId) (s' : Store V) (parent : NodeId) : Prop where
  hasSeat : s'.HasSeat place.seat
  seats : s'.Seats place.seat parent
  segment : (s.node place.node).segment.take cut = .ok (s'.node parent).segment
  value : (s'.node parent).value = none
  branches : s'.branches? parent = some b
  has_lower : s'.Has lower
  segment_lower : (s.node place.node).segment.drop cut = .ok (s'.node lower).segment
  value_lower : (s'.node lower).value = (s.node place.node).value
  row_lower : (s'.node lower).row = (s.node place.node).row
  key_lower : s'.key lower = s.key place.node
  node : ∀ id, s.Has id → s'.Has id ∧ s'.node id = s.node id
  row : ∀ row, s.HasRow row → (∀ index, place.seat ≠ .branch row index) →
    s'.HasRow row ∧ s'.row row = s.row row

/-! ### Seats -/

namespace HasSeat

variable {seat : Seat}

theorem hasRow {row : RowId} {index : Nat} (h : s.HasSeat (.branch row index)) : s.HasRow row := by
  by_contra hrow
  have hroom := h.2
  rw [row_of_not_hasRow hrow, Branches.capacity_blank] at hroom
  exact Nat.not_lt_zero index hroom

theorem ne_branch (h : s.HasSeat seat) {row : RowId} (hrow : ¬s.HasRow row) (index : Nat) :
    seat ≠ .branch row index := by
  rintro rfl
  exact hrow h.hasRow

theorem mono (h : s.HasSeat seat) (hgrows : s.Grows g) : g.HasSeat seat := by
  cases seat with
  | root => trivial
  | branch row index =>
    rw [HasSeat, hgrows.row row h.hasRow]
    exact h

/-- A node can be put into any seat. -/
theorem install (h : s.HasSeat seat) (new : NodeId) :
    ∃ s', s.install seat new = .ok s' ∧ s.Seated seat new s' := by
  cases seat with
  | root => exact ⟨{ s with root := new }, rfl, rfl, trivial, rfl, fun _ => Iff.rfl, fun _ _ => rfl⟩
  | branch row index =>
    have hrow := h.hasRow
    obtain ⟨hcount, hroom⟩ := h
    obtain ⟨changed, hreplace⟩ :
        ∃ changed, (s.row row).replace index new = .ok ((s.row row).get? index, changed) :=
      ⟨_, Branches.replace_eq_ok_iff.mpr ⟨hcount, rfl, rfl⟩⟩
    have hcapacity := Branches.capacity_of_replace hreplace
    obtain ⟨-, -, hchanged⟩ := Branches.replace_eq_ok_iff.mp hreplace
    refine ⟨s.setRow row changed, by rw [Store.install, hreplace]; rfl, rfl, ?_, ?_,
      hasRow_setRow row changed, fun other hother => ?_⟩
    · rw [HasSeat, row_setRow_self hrow]
      exact ⟨hchanged ▸ hcount, hcapacity.symm ▸ hroom⟩
    · rw [Seats, row_setRow_self hrow, hchanged, Branches.get?_setIfInBounds hroom, if_pos rfl]
    · have hne : other ≠ row := fun heq => hother index (heq ▸ rfl)
      rw [row_setRow hrow, if_neg hne]

end HasSeat

namespace Seated

variable {seat : Seat} {new : NodeId}

theorem has_iff (h : s.Seated seat new s') (id : NodeId) : s'.Has id ↔ s.Has id := by
  rw [Has, h.nodes, Has]

theorem node (h : s.Seated seat new s') (id : NodeId) : s'.node id = s.node id := by
  rw [Store.node, h.nodes, Store.node]

theorem keeps_node (h : g.Seated seat new s') (hgrows : s.Grows g) {id : NodeId} (hid : s.Has id) :
    s'.Has id ∧ s'.node id = s.node id :=
  ⟨(h.has_iff id).mpr (hgrows.has id hid), (h.node id).trans (hgrows.node id hid)⟩

theorem keeps_row (h : g.Seated seat new s') (hgrows : s.Grows g) {row : RowId}
    (hrow : s.HasRow row) (hseat : ∀ index, seat ≠ .branch row index) :
    s'.HasRow row ∧ s'.row row = s.row row :=
  ⟨(h.hasRow row).mpr (hgrows.hasRow row hrow), (h.row row hseat).trans (hgrows.row row hrow)⟩

end Seated

/-! ### Cutting with a leaf -/

/-- Nothing is appended to a row without room. -/
theorem appended?_of_full {id child : NodeId} {index : Nat} {byte : UInt8} {row : RowId}
    (howner : (s.node id).row = some row) (hfull : (s.row row).count = (s.row row).capacity) :
    s.appended? id index byte child = none := by
  refine Option.eq_none_iff_forall_ne_some.mpr fun result happended => ?_
  obtain ⟨row', changed⟩ := result
  obtain ⟨howner', hpush⟩ := appended?_eq_some happended
  obtain rfl := Option.some.inj (howner.symm.trans howner')
  exact Nat.ne_of_lt (Branches.push?_eq_some_iff.mp hpush).1.1 hfull

/-- The rest of a cut node comes under the first part by one write, and a sibling
with it. -/
theorem HasSeat.split {place : Place} (h : s.HasSeat place.seat) (sizing : Sizing) {cut : Nat}
    (hpos : 0 < cut) {first : UInt8} (hfirst : (s.node place.node).segment.get? cut = some first)
    (sibling : Option (UInt8 × NodeId))
    (hsibling : ∀ other ∈ sibling, (s.node other.2).segment.get? 0 = some other.1)
    (hne : ∀ other ∈ sibling, other.1 ≠ first) :
    ∃ s' b, s.split sizing place cut none (sibling.map Prod.snd) = .ok s' ∧ b.Sound ∧
      b.entries = beside (first, ⟨s.nodes.size⟩) sibling ∧
      sizing.capacity b.count = .ok b.capacity ∧
      s.Forks place cut ⟨s.nodes.size⟩ b s' ⟨s.nodes.size + 1⟩ := by
  obtain ⟨b, hb, hentries, hcapacity, hadd⟩ := addUpper_eq sizing hpos hfirst hsibling hne none
  have hgrows := grows_grownUpper s place.node cut none b
  obtain ⟨s', hinstall, hseated⟩ := (h.mono hgrows).install ⟨s.nodes.size + 1⟩
  have hupper := (hseated.node _).trans (node_upper_grownUpper s place.node cut none b)
  have hlower := (hseated.node _).trans (node_lower_grownUpper s place.node cut none b)
  have hcut := Nat.le_of_lt (Segment.lt_length_of_get? hfirst)
  refine ⟨s', b, ?_, hb, hentries, hcapacity, {
    hasSeat := hseated.hasSeat
    seats := hseated.seats
    segment := by rw [hupper, Segment.take, if_pos hcut]; rfl
    value := by rw [hupper]; rfl
    branches := ?_
    has_lower := ?_
    segment_lower := by rw [hlower, Segment.drop, if_pos hcut]; rfl
    value_lower := by rw [hlower]; rfl
    row_lower := by rw [hlower]; rfl
    key_lower := by rw [key, hlower, Sound.key_lower hcut]
    node := fun id hid => hseated.keeps_node hgrows hid
    row := fun row hrow hother => hseated.keeps_row hgrows hrow hother }⟩
  · rw [Store.split, hadd]
    exact hinstall
  · have hrow := hseated.row ⟨s.rows.size⟩ (h.ne_branch (Nat.lt_irrefl _))
    rw [branches?, hupper, Node.upper, Option.map_some, hrow, row_grownUpper, if_pos rfl]
  · rw [hseated.has_iff, has_grownUpper]
    exact Or.inr (Or.inl rfl)

/-- A leaf is given to the first part of a cut node by a node with a new row, which
takes its seat, when the row that it has is full. -/
theorem Forks.addBranch {place : Place} {cut : Nat} {lower upper : NodeId} {b : Branches NodeId}
    (h : s.Forks place cut lower b g upper) (sizing : Sizing) (hb : b.Sound)
    (hfull : b.count = b.capacity) {index : Nat} {byte : UInt8}
    (hlocate : g.locate upper byte = .ok (.absent index)) (leaf : NodeId) :
    ∃ s' b', g.addBranch sizing ⟨place.seat, upper⟩ index byte leaf = .ok s' ∧ b'.Sound ∧
      b'.entries = b.entries.take index ++ (byte, leaf) :: b.entries.drop index ∧
      sizing.capacity b'.count = .ok b'.capacity ∧
      s.Forks place cut lower b' s' ⟨g.nodes.size⟩ := by
  obtain ⟨row, howner, hrow⟩ := Option.map_eq_some_iff.mp h.branches
  have happended : g.appended? upper index byte leaf = none :=
    appended?_of_full howner (hrow ▸ hfull)
  have hold (other : RowId) (hother : (g.node upper).row = some other) : (g.row other).Sound := by
    obtain rfl := Option.some.inj (howner.symm.trans hother)
    exact hrow ▸ hb
  obtain ⟨b', hb', hentries, hcapacity, hadd⟩ := addWidened_eq sizing hold hlocate leaf
  rw [entriesAt_of_row_some howner, hrow] at hentries
  have hgrows := grows_grownWidened g upper b'
  obtain ⟨s', hinstall, hseated⟩ := (h.hasSeat.mono hgrows).install ⟨g.nodes.size⟩
  have hwide := (hseated.node _).trans (node_grownWidened g upper b')
  obtain ⟨hlowerHas, hlower⟩ := hseated.keeps_node hgrows h.has_lower
  refine ⟨s', b', ?_, hb', hentries, hcapacity, {
    hasSeat := hseated.hasSeat
    seats := hseated.seats
    segment := by rw [hwide]; exact h.segment
    value := by rw [hwide]; exact h.value
    branches := ?_
    has_lower := hlowerHas
    segment_lower := by rw [hlower]; exact h.segment_lower
    value_lower := by rw [hlower]; exact h.value_lower
    row_lower := by rw [hlower]; exact h.row_lower
    key_lower := by rw [key, hlower]; exact h.key_lower
    node := fun id hid => ?_
    row := fun other hother hseat => ?_ }⟩
  · rw [Store.addBranch, happended]
    simp only [hadd, bind, Except.bind]
    exact hinstall
  · have hrow' := hseated.row ⟨g.rows.size⟩ (h.hasSeat.ne_branch (Nat.lt_irrefl _))
    rw [branches?, hwide, Option.map_some, hrow']
    exact congrArg some (row_addRow_self g b')
  · obtain ⟨hhas, hnode⟩ := h.node id hid
    exact (hseated.keeps_node hgrows hhas).imp_right (·.trans hnode)
  · obtain ⟨hhas, hrow'⟩ := h.row other hother hseat
    exact (hseated.keeps_row hgrows hhas hseat).imp_right (·.trans hrow')

/-- Two entries in order are the two that stand beside each other. -/
theorem beside_eq_of_pairwise {lower other : UInt8 × NodeId} {index : Nat}
    {entries : List (UInt8 × NodeId)}
    (h : entries = [lower].take index ++ other :: [lower].drop index)
    (hlt : (entries.map Prod.fst).Pairwise (· < ·)) : entries = beside lower (some other) := by
  subst h
  cases index with
  | zero =>
    have hother : other.1 < lower.1 := by simpa using hlt
    rw [beside, if_pos hother]
    rfl
  | succ index =>
    have hlower : lower.1 < other.1 := by simpa using hlt
    rw [beside, if_neg (UInt8.lt_asymm hlower)]
    simp

/-- Cutting a node with a leaf beside the rest comes to the same as cutting it alone and
giving the leaf to its first part, where the search has its place. Either way the node
that is in the seat then has the same branches, down to the room for more. -/
theorem split_eq_addBranch_split (sizing : Sizing) {place : Place} (hseat : s.HasSeat place.seat)
    (hwithin : (s.node place.node).segment.Within) {cut : Nat} (hpos : 0 < cut)
    (hlt : cut < (s.node place.node).segment.length) {leaf : NodeId} {byte : UInt8}
    (hbyte : (s.node leaf).segment.get? 0 = some byte)
    (hne : (s.node place.node).segment.get? cut ≠ some byte) :
    ∃ lower first b, (s.node place.node).segment.get? cut = some first ∧
      b.entries = beside (first, lower) (some (byte, leaf)) ∧
      (∃ s' parent, s.split sizing place cut none (some leaf) = .ok s' ∧
        s.Forks place cut lower b s' parent) ∧
      ∃ half upper index s' parent, s.split sizing place cut none none = .ok half ∧
        half.Seats place.seat upper ∧ half.locate upper byte = .ok (.absent index) ∧
        half.addBranch sizing ⟨place.seat, upper⟩ index byte leaf = .ok s' ∧
        s.Forks place cut lower b s' parent := by
  obtain ⟨first, hfirst⟩ := Segment.exists_get? hwithin hlt
  have hdiffers : byte ≠ first := fun heq => hne (heq ▸ hfirst)
  obtain ⟨one, b, hone, hb, hentries, hcapacity, hforkOne⟩ :=
    hseat.split sizing hpos hfirst (some (byte, leaf)) (by rintro _ ⟨⟩; exact hbyte)
      (by rintro _ ⟨⟩; exact hdiffers)
  obtain ⟨half, alone, hhalf, halone, hsingle, hroom, hforkHalf⟩ :=
    hseat.split sizing hpos hfirst none (by simp) (by simp)
  have hcount : alone.count = 1 := by
    rw [← halone.length_entries, hsingle]
    rfl
  -- There is no room behind the rest, whatever rows are given, so nothing can be appended.
  have hfull : alone.count = alone.capacity := by
    rw [hcount, sizing.capacity_one] at hroom
    exact hcount.trans (Except.ok.inj hroom)
  obtain ⟨position, hposition, hplace⟩ := halone.locate byte
  have hlocate : half.locate ⟨s.nodes.size + 1⟩ byte = .ok position := by
    rw [locate, hforkHalf.branches]
    exact hposition
  rw [hsingle] at hplace
  cases position with
  | found index =>
    have hmem : byte ∈ [first] := List.mem_of_getElem? hplace
    exact absurd (List.mem_singleton.mp hmem) hdiffers
  | absent index =>
    obtain ⟨two, b', htwo, hb', hentries', hcapacity', hforkTwo⟩ :=
      hforkHalf.addBranch sizing halone hfull hlocate leaf
    rw [hsingle] at hentries'
    have hsame := (beside_eq_of_pairwise hentries' hb'.ascending_entries).trans hentries.symm
    have hcounts : b'.count = b.count := by
      rw [← hb'.length_entries, hsame, hb.length_entries]
    rw [hcounts, hcapacity] at hcapacity'
    obtain rfl := hb.eq_of_entries_eq hb' (Except.ok.inj hcapacity').symm hsame
    exact ⟨_, first, _, hfirst, hentries, ⟨one, _, hone, hforkOne⟩, half, _, index, two, _, hhalf,
      hforkHalf.seats, hlocate, htwo, hforkTwo⟩

/-- A leaf for `aX` comes before the rest of `abc`, so its branch has no place behind. -/
theorem split_eq_addBranch_split_before :
    ∃ (s : Store Nat) (place : Place) (lower : NodeId) (b : Branches NodeId),
      s.key place.node = [97, 98, 99] ∧ s.key ⟨2⟩ = [97, 88] ∧ s.Seats place.seat place.node ∧
      b.entries = [(88, ⟨2⟩), (98, lower)] ∧
      (∃ s' parent, s.split .alphabet place 1 none (some ⟨2⟩) = .ok s' ∧
        s.Forks place 1 lower b s' parent) ∧
      ∃ half upper index s' parent, s.split .alphabet place 1 none none = .ok half ∧
        half.Seats place.seat upper ∧ half.locate upper 88 = .ok (.absent index) ∧
        half.addBranch .alphabet ⟨place.seat, upper⟩ index 88 ⟨2⟩ = .ok s' ∧
        s.Forks place 1 lower b s' parent := by
  let place : Place := ⟨.branch ⟨0⟩ 0, ⟨1⟩⟩
  let s : Store Nat :=
    ⟨#[⟨Segment.empty 0, none, some ⟨0⟩⟩, Node.leaf 1 [97, 98, 99] 0 7, Node.leaf 2 [97, 88] 1 8],
      #[⟨#[97], #[some ⟨1⟩], 1⟩], ⟨0⟩⟩
  have hseat : s.HasSeat place.seat := ⟨Nat.zero_lt_one, Nat.zero_lt_one⟩
  have hwithin : (s.node place.node).segment.Within := Nat.le_refl 3
  have hlt : 1 < (s.node place.node).segment.length := by decide
  have hbyte : (s.node ⟨2⟩).segment.get? 0 = some 88 := rfl
  have hne : (s.node place.node).segment.get? 1 ≠ some 88 := by decide
  obtain ⟨lower, first, b, hfirst, hentries, hone, htwo⟩ :=
    split_eq_addBranch_split .alphabet hseat hwithin Nat.zero_lt_one hlt hbyte hne
  obtain rfl : 98 = first := Option.some.inj hfirst
  exact ⟨s, place, lower, b, rfl, rfl, rfl, hentries, hone, htwo⟩

end Store

end ByteTrie
