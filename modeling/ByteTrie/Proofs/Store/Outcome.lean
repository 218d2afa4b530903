import ByteTrie.Proofs.Store.Pieces

/-!
# How an insertion ends

An insertion ends in one of five ways, and `Outcome` says for each of them what
has been built beside the store and which single write has made it part of the
trie. Whatever the store is like, an insertion into a sound one ends so, and
leaves a sound store behind; all else that holds of an insertion is read off its
outcome, one case for each way.
-/

namespace ByteTrie

/-- A row made for some entries, with the room that is meant for so many. -/
structure Branches.Built {α : Type} (sizing : Sizing) (entries : List (UInt8 × α))
    (b : Branches α) : Prop where
  sound : b.Sound
  entries : b.entries = entries
  capacity : sizing.capacity b.count = .ok b.capacity

namespace Store

variable {V : Type} {s s' : Store V} {key : Key} {value : V}

/-- The store with a leaf for what a key has behind a path. -/
def withLeaf (s : Store V) (path : Key) (byte : UInt8) (rest : Key) (value : V) : Store V :=
  (s.addNode (Node.leaf s.nodes.size (path ++ byte :: rest) path.length value)).2

/-- What an insertion has built, and the write that has made it part of the trie. -/
inductive Outcome (s : Store V) (sizing : Sizing) (key : Key) (value : V) : Store V → Prop
  /-- The key has a node, whose value was set. -/
  | valued {place : Place} (placed : s.Placed place) (reads : s.key place.node = key) :
      Outcome s sizing key value (s.setValue place.node value)
  /-- A leaf stands behind the last branch of a node. -/
  | appended {place : Place} {byte : UInt8} {rest : Key} {row : RowId} {changed : Branches NodeId}
      (placed : s.Placed place) (reads : s.key place.node ++ byte :: rest = key)
      (owner : (s.node place.node).row = some row)
      (pushed : (s.row row).push? byte ⟨s.nodes.size⟩ = some changed) :
      Outcome s sizing key value
        ((s.withLeaf (s.key place.node) byte rest value).setRow row changed)
  /-- A node with one branch more, which leads to a leaf, has replaced another. -/
  | widened {place : Place} {index : Nat} {byte : UInt8} {rest : Key} {b : Branches NodeId}
      {s' : Store V} (placed : s.Placed place) (reads : s.key place.node ++ byte :: rest = key)
      (absent : s.locate place.node byte = .ok (.absent index))
      (built : b.Built sizing ((s.entriesAt place.node).take index ++
        (byte, ⟨s.nodes.size⟩) :: (s.entriesAt place.node).drop index))
      (installed : Installed ((s.withLeaf (s.key place.node) byte rest value).grownWidened
        place.node b) ⟨s.nodes.size + 1⟩ place s') :
      Outcome s sizing key value s'
  /-- A node has been cut where the key ends, and its first part has the value. -/
  | cut {place : Place} {length : Nat} {next : UInt8} {b : Branches NodeId} {s' : Store V}
      (placed : s.Placed place) (pos : 0 < length)
      (next_eq : (s.node place.node).segment.get? length = some next)
      (reads : s.read place.node length = key)
      (built : b.Built sizing (beside (next, ⟨s.nodes.size⟩) none))
      (installed : Installed (s.grownUpper place.node length (some value) b)
        ⟨s.nodes.size + 1⟩ place s') :
      Outcome s sizing key value s'
  /-- A node has been cut where the key departs, and a leaf stands beside the rest of it. -/
  | forked {place : Place} {length : Nat} {next byte : UInt8} {rest : Key} {b : Branches NodeId}
      {s' : Store V} (placed : s.Placed place) (pos : 0 < length)
      (next_eq : (s.node place.node).segment.get? length = some next)
      (reads : s.read place.node length ++ byte :: rest = key) (differs : byte ≠ next)
      (built : b.Built sizing (beside (next, ⟨s.nodes.size + 1⟩) (some (byte, ⟨s.nodes.size⟩))))
      (installed : Installed ((s.withLeaf (s.read place.node length) byte rest value).grownUpper
        place.node length none b) ⟨s.nodes.size + 2⟩ place s') :
      Outcome s sizing key value s'

/-! ### The leaf of an insertion -/

theorem addLeaf_eq_withLeaf (s : Store V) (path : Key) (byte : UInt8) (rest : Key) (value : V) :
    s.addLeaf (path ++ byte :: rest) ((path ++ byte :: rest).length - (byte :: rest).length) value =
      .ok (⟨s.nodes.size⟩, s.withLeaf path byte rest value) := by
  have hdepth : (path ++ byte :: rest).length - (byte :: rest).length = path.length := by simp
  rw [hdepth, addLeaf_eq s (by simp) value]
  rfl

theorem grows_withLeaf (s : Store V) (path : Key) (byte : UInt8) (rest : Key) (value : V) :
    s.Grows (s.withLeaf path byte rest value) :=
  Grows.addNode s _

theorem size_withLeaf (s : Store V) (path : Key) (byte : UInt8) (rest : Key) (value : V) :
    (s.withLeaf path byte rest value).nodes.size = s.nodes.size + 1 := by
  simp [withLeaf, addNode]

theorem leads_withLeaf (s : Store V) (path : Key) (byte : UInt8) (rest : Key) (value : V) :
    (s.withLeaf path byte rest value).Leads path byte ⟨s.nodes.size⟩ :=
  leads_leaf s path byte rest value

theorem Keeps.entriesAt_eq (h : s.Keeps s') (hs : s.Sound) {id : NodeId} (hid : s.Has id) :
    s'.entriesAt id = s.entriesAt id := by
  rw [entriesAt, entriesAt, h.branches?_eq hs hid]

theorem Keeps.locate_eq (h : s.Keeps s') (hs : s.Sound) {id : NodeId} (hid : s.Has id)
    (byte : UInt8) : s'.locate id byte = s.locate id byte := by
  rw [locate, locate, h.branches?_eq hs hid]

theorem Keeps.read_eq (h : s.Keeps s') {id : NodeId} (hid : s.Has id) (matched : Nat) :
    s'.read id matched = s.read id matched := by
  rw [read, read, h.key_eq hid, h.node id hid]

namespace Sound

theorem withLeaf (h : s.Sound) (path : Key) (byte : UInt8) (rest : Key) (value : V) :
    (s.withLeaf path byte rest value).Sound :=
  h.addNode (nodeSound_leaf s s.nodes.size (by simp) value)

/-! ### The writes that publish -/

/-- A branch to what prolongs the key of a node may stand behind its last one. -/
theorem push (h : s.Sound) {id child : NodeId} (hid : s.Has id) {row : RowId}
    (howner : (s.node id).row = some row) {byte : UInt8} {changed : Branches NodeId}
    (hpush : (s.row row).push? byte child = some changed) (hlead : s.Leads (s.key id) byte child) :
    (s.setRow row changed).Sound := by
  have hrow := h.rowSound hid howner
  obtain ⟨hchanged, hentries⟩ := hrow.sound.push? hpush
  refine h.setRow hrow.has hchanged (by simp [hentries]) fun path hpath entry hentry => ?_
  obtain rfl := hpath.path_unique hrow
  rw [hentries] at hentry
  rcases List.mem_append.mp hentry with hmem | hmem
  · exact hrow.leads entry hmem
  · obtain rfl := List.mem_singleton.mp hmem
    exact hlead

/-- A branch that a node does not have is added in place, or with a node that has it. -/
theorem addBranch (h : s.Sound) (sizing : Sizing) {place : Place} (hplaced : s.Placed place)
    {index : Nat} {byte : UInt8} {child : NodeId}
    (hlocate : s.locate place.node byte = .ok (.absent index))
    (hlead : s.Leads (s.key place.node) byte child) :
    ∃ s', s.addBranch sizing place index byte child = .ok s' ∧ s'.Sound ∧
      ((∃ row changed, (s.node place.node).row = some row ∧
          (s.row row).push? byte child = some changed ∧ s' = s.setRow row changed) ∨
        ∃ b : Branches NodeId, b.Built sizing ((s.entriesAt place.node).take index ++
            (byte, child) :: (s.entriesAt place.node).drop index) ∧
          Installed (s.grownWidened place.node b) ⟨s.nodes.size⟩ place s') := by
  have hid := h.has_live (hplaced.live h)
  cases happended : s.appended? place.node index byte child with
  | some result =>
    obtain ⟨row, changed⟩ := result
    obtain ⟨howner, hpush⟩ := appended?_eq_some happended
    exact ⟨s.setRow row changed, by rw [Store.addBranch, happended], h.push hid howner hpush hlead,
      Or.inl ⟨row, changed, howner, hpush, rfl⟩⟩
  | none =>
    obtain ⟨b, hb, hentries, hcapacity, hadd, hw⟩ := h.addWidened sizing hid hlocate hlead
    have hsegment := segment_grownWidened hid b
    have hkey : (s.grownWidened place.node b).key ⟨s.nodes.size⟩ =
        (s.grownWidened place.node b).key place.node := by
      rw [Store.key, hsegment, Store.key]
    obtain ⟨s', hinstall, hs', hinstalled⟩ := hw.install
      ((grows_grownWidened s place.node b).placed h hplaced) (has_grownWidened s place.node b)
      (by rw [hsegment]) (by rw [address, address, hkey, hsegment]) (by rw [hkey]; exact id)
    refine ⟨s', ?_, hs', Or.inr ⟨b, ⟨hb, hentries, hcapacity⟩, hinstalled⟩⟩
    rw [Store.addBranch, happended]
    simp only [hadd, bind, Except.bind]
    exact hinstall

/-- A node is cut inside its segment, and its first part takes its seat. -/
theorem split (h : s.Sound) (sizing : Sizing) {place : Place} (hplaced : s.Placed place)
    {length : Nat} (hpos : 0 < length) {next : UInt8}
    (hnext : (s.node place.node).segment.get? length = some next)
    {sibling : Option (UInt8 × NodeId)}
    (hsibling : ∀ other ∈ sibling, s.Leads (s.read place.node length) other.1 other.2)
    (hne : ∀ other ∈ sibling, other.1 ≠ next) (held : Option V) :
    ∃ s' b, s.split sizing place length held (sibling.map Prod.snd) = .ok s' ∧ s'.Sound ∧
      b.Built sizing (beside (next, ⟨s.nodes.size⟩) sibling) ∧
      Installed (s.grownUpper place.node length held b) ⟨s.nodes.size + 1⟩ place s' := by
  have hid := h.has_live (hplaced.live h)
  have hcut := Nat.le_of_lt (Segment.lt_length_of_get? hnext)
  obtain ⟨b, hb, hentries, hcapacity, hadd, hw⟩ :=
    h.addUpper sizing hid hpos hnext hsibling hne held
  have hgrows := grows_grownUpper s place.node length held b
  obtain ⟨s', hinstall, hs', hinstalled⟩ := hw.install (hgrows.placed h hplaced)
    ((has_grownUpper s place.node length held b _).mpr (Or.inr (Or.inr rfl)))
    (offset_grownUpper hid held b) (address_grownUpper hid hpos hcut held b)
    fun hnil => by rw [key_grownUpper hcut, read, ← hgrows.key_eq hid, hnil, List.take_nil]
  refine ⟨s', b, ?_, hs', ⟨hb, hentries, hcapacity⟩, hinstalled⟩
  rw [Store.split]
  simp only [hadd, bind, Except.bind]
  exact hinstall

/-! ### The ways of an insertion -/

/-- A key that ends in a segment has its value set, or has the segment cut. -/
theorem insert_ended (h : s.Sound) (sizing : Sizing) (value : V) {place : Place} {matched : Nat}
    (htrace : s.trace key = .ok (.ended place matched)) (hplaced : s.Placed place)
    (hle : matched ≤ (s.node place.node).segment.length)
    (hbegun : 0 < matched ∨ (s.node place.node).segment.length = 0)
    (hread : s.read place.node matched = key) :
    ∃ s', s.insert sizing key value = .ok (if matched = (s.node place.node).segment.length then
        (s.node place.node).value else none, s') ∧ s'.Sound ∧ s.Outcome sizing key value s' := by
  have hid := h.has_live (hplaced.live h)
  rw [Store.insert, htrace]
  simp only [bind, Except.bind]
  by_cases hend : matched = (s.node place.node).segment.length
  · have hkey : s.key place.node = key := by rw [← h.read_length hid, ← hend, hread]
    rw [if_pos hend, if_pos hend]
    exact ⟨_, rfl, h.setValue hid value, .valued hplaced hkey⟩
  · obtain ⟨next, hnext⟩ := h.exists_get? hid (Nat.lt_of_le_of_ne hle hend)
    have hpos : 0 < matched := hbegun.resolve_right (by omega)
    have hsibling : ∀ other ∈ (none : Option (UInt8 × NodeId)),
        s.Leads (s.read place.node matched) other.1 other.2 := by simp
    obtain ⟨s', b, hsplit, hs', hb, hinstalled⟩ :=
      h.split sizing hplaced hpos hnext hsibling (by simp) (some value)
    rw [Option.map_none] at hsplit
    rw [if_neg hend, if_neg hend, hsplit]
    exact ⟨s', rfl, hs', .cut hplaced hpos hnext hread hb hinstalled⟩

/-- A key that departs inside a segment has the segment cut, and a leaf beside the rest. -/
theorem insert_diverged (h : s.Sound) (sizing : Sizing) (value : V) {place : Place} {matched : Nat}
    {byte expected : UInt8} {rest : Key}
    (htrace : s.trace key = .ok (.diverged place matched (byte :: rest)))
    (hplaced : s.Placed place) (hbegun : 0 < matched)
    (hread : s.read place.node matched ++ byte :: rest = key)
    (hexpects : (s.node place.node).segment.get? matched = some expected)
    (hdiffers : expected ≠ byte) :
    ∃ s', s.insert sizing key value = .ok (none, s') ∧ s'.Sound ∧
      s.Outcome sizing key value s' := by
  subst hread
  have hid := h.has_live (hplaced.live h)
  have hg := h.withLeaf (s.read place.node matched) byte rest value
  have hgrows := s.grows_withLeaf (s.read place.node matched) byte rest value
  have hsibling : ∀ other ∈ some (byte, (⟨s.nodes.size⟩ : NodeId)),
      (s.withLeaf (s.read place.node matched) byte rest value).Leads
        ((s.withLeaf (s.read place.node matched) byte rest value).read place.node matched)
        other.1 other.2 := by
    rintro _ ⟨⟩
    rw [hgrows.read_eq hid]
    exact s.leads_withLeaf _ byte rest value
  have hne : ∀ other ∈ some (byte, (⟨s.nodes.size⟩ : NodeId)), other.1 ≠ expected := by
    rintro _ ⟨⟩
    exact hdiffers.symm
  obtain ⟨s', b, hsplit, hs', hb, hinstalled⟩ := hg.split sizing (hgrows.placed h hplaced) hbegun
    (by rw [hgrows.node _ hid]; exact hexpects) hsibling hne none
  rw [size_withLeaf] at hb hinstalled
  rw [Option.map_some] at hsplit
  refine ⟨s', ?_, hs', .forked hplaced hbegun hexpects rfl hdiffers.symm hb hinstalled⟩
  rw [Store.insert, htrace]
  simp only [bind, Except.bind, addLeaf_eq_withLeaf, hsplit]
  rfl

/-- A key that goes on behind a segment where no branch does gets a branch to a leaf. -/
theorem insert_branchless (h : s.Sound) (sizing : Sizing) (value : V) {place : Place} {index : Nat}
    {byte : UInt8} {rest : Key}
    (htrace : s.trace key = .ok (.branchless place index (byte :: rest)))
    (hplaced : s.Placed place) (hread : s.key place.node ++ byte :: rest = key)
    (habsent : s.locate place.node byte = .ok (.absent index)) :
    ∃ s', s.insert sizing key value = .ok (none, s') ∧ s'.Sound ∧
      s.Outcome sizing key value s' := by
  subst hread
  have hid := h.has_live (hplaced.live h)
  have hg := h.withLeaf (s.key place.node) byte rest value
  have hgrows := s.grows_withLeaf (s.key place.node) byte rest value
  have hlead := s.leads_withLeaf (s.key place.node) byte rest value
  obtain ⟨s', hadd, hs', hways⟩ := hg.addBranch sizing (hgrows.placed h hplaced)
    (by rw [hgrows.locate_eq h hid]; exact habsent) (by rw [hgrows.key_eq hid]; exact hlead)
  refine ⟨s', ?_, hs', ?_⟩
  · rw [Store.insert, htrace]
    simp only [bind, Except.bind, addLeaf_eq_withLeaf, hlead.get_zero, hadd]
    rfl
  · rcases hways with ⟨row, changed, howner, hpush, rfl⟩ | ⟨b, hb, hinstalled⟩
    · rw [hgrows.node _ hid] at howner
      rw [hgrows.row row (h.rowSound hid howner).has] at hpush
      exact .appended hplaced rfl howner hpush
    · rw [hgrows.entriesAt_eq h hid] at hb
      rw [size_withLeaf] at hinstalled
      exact .widened hplaced rfl habsent hb hinstalled

/-- Storing a value succeeds in one of its ways, and answers what was held under the key. -/
theorem insert_outcome (h : s.Sound) (sizing : Sizing) (key : Key) (value : V) :
    ∃ s', s.insert sizing key value = .ok ((s.itemsBelow s.root).lookup key, s') ∧ s'.Sound ∧
      s.Outcome sizing key value s' := by
  obtain ⟨stop, htrace, hstops, -⟩ := h.trace key
  have hlookup := h.lookup_eq key
  rw [lookup, htrace] at hlookup
  simp only [bind, Except.bind] at hlookup
  cases hstops with
  | ended hplaced hle hbegun hread =>
    rw [← Except.ok.inj hlookup]
    exact h.insert_ended sizing value htrace hplaced hle hbegun hread
  | diverged hplaced hbegun _ hread hexpects hdiffers =>
    rw [← Except.ok.inj hlookup]
    exact h.insert_diverged sizing value htrace hplaced hbegun hread hexpects hdiffers
  | branchless hplaced hread habsent =>
    rw [← Except.ok.inj hlookup]
    exact h.insert_branchless sizing value htrace hplaced hread habsent

end Sound

end Store

end ByteTrie
