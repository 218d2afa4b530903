import ByteTrie.Proofs.Session

/-!
# Writes between the steps of a traversal

What an open traversal has yielded and what it has still to come make one list
in ascending order, whatever is done in the session meanwhile. A write puts at
most its own entry into the part that is to come; clearing the trie or beginning
it anew leaves that part alone. So nothing that was there when the traversal was
opened is lost, and nothing comes twice.
-/

namespace ByteTrie

variable {V : Type}

/-- A property that goes over to longer keys holds of all keys to come. -/
theorem Traversal.Bounded.rest {s : Store V} {t : Traversal} {P : Key → Prop}
    (h : t.Bounded s P) (ht : t.Sound s) (hs : s.Sound) (hP : ∀ a b, a <+: b → P a → P b) :
    ∀ item ∈ t.rest s, P item.1 := by
  intro item hitem
  rw [t.rest_eq_filterMap s] at hitem
  obtain ⟨id, hid, hitem⟩ := List.mem_filterMap.mp hitem
  obtain ⟨value, -, rfl⟩ := Option.map_eq_some_iff.mp hitem
  exact h.listing ht hs hP id hid

namespace Session

variable {s s' : Session V} {id : Nat}

theorem rest_of_wrote (hs : s.Sound) (hs' : s'.Sound) {key : Key} {value : V}
    (hwrote : Store.Wrote key value s.trie.store s'.trie.store)
    (hsame : s'.traversal id = s.traversal id) :
    s'.rest id = s.rest id ∨ s'.rest id = Entries.put key value (s.rest id) := by
  have htakes := hwrote.takes_rest hs.store hs'.store (hs.traversal id)
  rw [← hsame, ← hs'.rest_eq, hsame, ← hs.rest_eq] at htakes
  exact htakes.eq_or_eq_put (hs.ascending_rest id) (hs'.ascending_rest id)

theorem rest_of_keeps (hs : s.Sound) (hs' : s'.Sound) (hkeeps : s.trie.store.Keeps s'.trie.store)
    (hsame : s'.traversal id = s.traversal id) : s'.rest id = s.rest id := by
  rw [hs'.rest_eq, hs.rest_eq, hsame]
  exact hkeeps.rest_eq hs.store hs'.store (hs.traversal id)

theorem rest_of_advances (hs : s.Sound) (hs' : s'.Sound) {found : Option NodeId}
    (hstore : s'.trie.store = s.trie.store)
    (hadvances : Traversal.Advances s.trie.store (s.traversal id) found (s'.traversal id)) :
    s'.rest id = (s.rest id).tail := by
  rw [hs'.rest_eq, hs.rest_eq, hstore, hadvances.rest]

/-- A step takes what it yields off what was to come. -/
theorem head_append_rest (hs : s.Sound) (hs' : s'.Sound) {found : Option NodeId}
    (hstore : s'.trie.store = s.trie.store)
    (hadvances : Traversal.Advances s.trie.store (s.traversal id) found (s'.traversal id)) :
    (s.rest id).head?.toList ++ s'.rest id = s.rest id := by
  rw [rest_of_advances hs hs' hstore hadvances]
  cases s.rest id <;> rfl

namespace Passes

variable {out : List (Key × V)} {item : Key × V}

/-- An action leaves a traversal where it is, or takes it on by a step of its own. -/
theorem stays_or_steps (h : Passes s s' id out) (hs : s.Sound) (hs' : s'.Sound) :
    (out = [] ∧ s'.traversal id = s.traversal id) ∨
      ∃ found, s'.trie.store = s.trie.store ∧
        Traversal.Advances s.trie.store (s.traversal id) found (s'.traversal id) ∧
        out ++ s'.rest id = s.rest id := by
  cases h with
  | wrote _ _ hsame => exact Or.inl ⟨rfl, hsame⟩
  | kept _ hsame => exact Or.inl ⟨rfl, hsame⟩
  | advanced hstore hadvances =>
    exact Or.inr ⟨_, hstore, hadvances, head_append_rest hs hs' hstore hadvances⟩

/-- What is to come after an action was to come before, or has just been written. -/
theorem mem_rest (h : Passes s s' id out) (hs : s.Sound) (hs' : s'.Sound)
    (hitem : item ∈ out ++ s'.rest id) :
    item ∈ s.rest id ∨ s'.trie.lookup item.1 = .ok (some item.2) := by
  cases h with
  | wrote hwrote hheld hsame =>
    rcases rest_of_wrote hs hs' hwrote hsame with heq | heq
    · exact Or.inl (heq ▸ hitem)
    · rw [List.nil_append, heq, Entries.mem_put (hs.ascending_rest id)] at hitem
      rcases hitem with rfl | hitem
      · exact Or.inr hheld
      · exact Or.inl (Entries.mem_without.mp hitem).1
  | kept hkeeps hsame => exact Or.inl (rest_of_keeps hs hs' hkeeps hsame ▸ hitem)
  | advanced hstore hadvances =>
    exact Or.inl (head_append_rest hs hs' hstore hadvances ▸ hitem)

/-- No key is lost by an action. -/
theorem key_mem_rest (h : Passes s s' id out) (hs : s.Sound) (hs' : s'.Sound)
    (hitem : item ∈ s.rest id) : item.1 ∈ (out ++ s'.rest id).map Prod.fst := by
  cases h with
  | @wrote key value hwrote hheld hsame =>
    rw [List.nil_append]
    rcases rest_of_wrote hs hs' hwrote hsame with heq | heq
    · exact heq ▸ List.mem_map_of_mem hitem
    · by_cases hkey : item.1 = key
      · refine List.mem_map.mpr ⟨(key, value), ?_, hkey.symm⟩
        rw [heq, Entries.mem_put (hs.ascending_rest id)]
        exact Or.inl rfl
      · refine List.mem_map_of_mem ?_
        rw [heq, Entries.mem_put (hs.ascending_rest id)]
        exact Or.inr (Entries.mem_without.mpr ⟨hitem, hkey⟩)
  | kept hkeeps hsame =>
    rw [rest_of_keeps hs hs' hkeeps hsame]
    exact List.mem_map_of_mem hitem
  | advanced hstore hadvances =>
    rw [head_append_rest hs hs' hstore hadvances]
    exact List.mem_map_of_mem hitem

theorem bounded (h : Passes s s' id out) (hs : s.Sound) (hs' : s'.Sound) {P : Key → Prop}
    (hP : ∀ a b, a <+: b → P a → P b) (hbounded : (s.traversal id).Bounded s.trie.store P) :
    (s'.traversal id).Bounded s'.trie.store P := by
  cases h with
  | wrote hwrote hheld hsame =>
    rw [hsame]
    exact hwrote.bounded_traversal hs.store hs'.store (hs.traversal id) hbounded
  | kept hkeeps hsame =>
    rw [hsame, Traversal.Bounded, hkeeps.pending_eq hs.store (hs.traversal id)]
    exact hbounded
  | advanced hstore hadvances =>
    rw [hstore]
    exact hadvances.bounded P hP hbounded

theorem sublist (h : Passes s s' id out) : out.Sublist (s.rest id) := by
  cases h with
  | wrote => exact List.nil_sublist _
  | kept => exact List.nil_sublist _
  | advanced =>
    cases s.rest id with
    | nil => exact List.nil_sublist _
    | cons first later => exact List.singleton_sublist.mpr List.mem_cons_self

/-- What an action takes out of a traversal is before all that is to come. -/
theorem behind (h : Passes s s' id out) (hs : s.Sound) (hitem : item ∈ out) :
    (s'.traversal id).Bounded s'.trie.store (item.1 < ·) := by
  cases h with
  | wrote => cases hitem
  | kept => cases hitem
  | advanced hstore hadvances =>
    rw [Option.mem_toList] at hitem
    rw [hstore]
    exact hadvances.above item (hs.rest_eq id ▸ hitem)

theorem done (h : Passes s s' id out) (hs : s.Sound) (hdone : s.traversal id = Traversal.done) :
    out = [] ∧ s'.traversal id = Traversal.done := by
  have hrest : s.rest id = [] := by rw [hs.rest_eq, hdone, Traversal.rest_done]
  cases h with
  | wrote _ _ hsame => exact ⟨rfl, hsame.trans hdone⟩
  | kept _ hsame => exact ⟨rfl, hsame.trans hdone⟩
  | advanced _ hadvances =>
    exact ⟨by rw [hrest]; rfl, hadvances.fused (hs.rest_eq id ▸ hrest)⟩

end Passes

/-! ### Runs of actions -/

/-- A traversal that was opened with a stem and has yielded some entries. -/
structure Watched (s : Session V) (id : Nat) (stem : Key) (past : List (Key × V)) : Prop where
  sound : s.Sound
  isOpen : id < s.traversals.size
  ascending : Entries.Ascending past
  begins : ∀ item ∈ past, stem <+: item.1
  behind : ∀ item ∈ past, (s.traversal id).Bounded s.trie.store (item.1 < ·)
  covered : (s.traversal id).Bounded s.trie.store (stem <+: ·)

namespace Watched

variable {stem : Key} {past : List (Key × V)}

/-- What has been yielded and what is to come are in one ascending order. -/
theorem ascending_append (h : Watched s id stem past) : Entries.Ascending (past ++ s.rest id) := by
  refine List.pairwise_append.mpr ⟨h.ascending, h.sound.ascending_rest id, fun item hitem => ?_⟩
  rw [h.sound.rest_eq]
  exact (h.behind item hitem).rest (h.sound.traversal id) h.sound.store
    fun _ _ hprefix hlt => Key.lt_of_lt_of_isPrefix hlt hprefix

theorem begins_append (h : Watched s id stem past) :
    ∀ item ∈ past ++ s.rest id, stem <+: item.1 := by
  refine List.forall_mem_append.mpr ⟨h.begins, ?_⟩
  rw [h.sound.rest_eq]
  exact h.covered.rest (h.sound.traversal id) h.sound.store
    fun _ _ hprefix hstem => hstem.trans hprefix

theorem act (h : Watched s id stem past) (a : Action V) :
    ∃ s', s.act a = .ok s' ∧ Passes s s' id (s.yields id a) ∧
      Watched s' id stem (past ++ s.yields id a) := by
  obtain ⟨s', hact, hs', hall⟩ := h.sound.act a
  obtain ⟨hopen, hpasses⟩ := hall id h.isOpen
  refine ⟨s', hact, hpasses, hs', hopen, ?_, ?_, ?_, ?_⟩
  · exact h.ascending_append.sublist (hpasses.sublist.append_left past)
  · refine List.forall_mem_append.mpr ⟨h.begins, fun item hitem => ?_⟩
    exact h.begins_append item (List.mem_append_right _ (hpasses.sublist.mem hitem))
  · refine List.forall_mem_append.mpr ⟨fun item hitem => ?_, fun item hitem => ?_⟩
    · refine hpasses.bounded h.sound hs' ?_ (h.behind item hitem)
      exact fun _ _ hprefix hlt => Key.lt_of_lt_of_isPrefix hlt hprefix
    · exact hpasses.behind h.sound hitem
  · exact hpasses.bounded h.sound hs' (fun _ _ hprefix hstem => hstem.trans hprefix) h.covered

theorem run (h : Watched s id stem past) (actions : List (Action V)) :
    ∃ s', s.run actions = .ok s' ∧ Watched s' id stem (past ++ s.given id actions) := by
  refine exists_run_of_act (fun s past => Watched s id stem past) ?_ h
  intro a _ s₁ past₁ h₁
  obtain ⟨s₂, hact, -, h₂⟩ := h₁.act a
  exact ⟨s₂, hact, h₂⟩

/-- All that is yielded later was to come, or was in the trie at some moment since. -/
theorem mem_rest_or_held (h : Watched s id stem past) (actions : List (Action V))
    (hrun : s.run actions = .ok s') {item : Key × V}
    (hitem : item ∈ s.given id actions ++ s'.rest id) :
    item ∈ s.rest id ∨ ∃ moment later s₁, actions = moment ++ later ∧ s.run moment = .ok s₁ ∧
      s₁.trie.lookup item.1 = .ok (some item.2) := by
  induction actions generalizing s past with
  | nil =>
    obtain rfl : s = s' := Except.ok.inj hrun
    exact Or.inl hitem
  | cons a rest ih =>
    obtain ⟨s₁, hact, hpasses, h₁⟩ := h.act a
    rw [Session.run, hact] at hrun
    rw [given, hact, List.append_assoc, List.mem_append] at hitem
    have hmoment {moment : List (Action V)} {s₂ : Session V} (h₂ : s₁.run moment = .ok s₂) :
        s.run (a :: moment) = .ok s₂ := by
      rw [Session.run, hact]
      exact h₂
    have hsplit : item ∈ s.yields id a ++ s₁.rest id ∨ ∃ moment later s₂,
        rest = moment ++ later ∧ s₁.run moment = .ok s₂ ∧
          s₂.trie.lookup item.1 = .ok (some item.2) := by
      rcases hitem with hout | hlater
      · exact Or.inl (List.mem_append_left _ hout)
      · exact (ih h₁ hrun hlater).imp_left (List.mem_append_right _)
    rcases hsplit with hnow | ⟨moment, later, s₂, rfl, h₂, hheld⟩
    · rcases hpasses.mem_rest h.sound h₁.sound hnow with hbefore | hheld
      · exact Or.inl hbefore
      · exact Or.inr ⟨[a], rest, s₁, rfl, hmoment rfl, hheld⟩
    · exact Or.inr ⟨a :: moment, later, s₂, rfl, hmoment h₂, hheld⟩

/-- No key that is to come is lost. -/
theorem key_mem (h : Watched s id stem past) (actions : List (Action V))
    (hrun : s.run actions = .ok s') {item : Key × V} (hitem : item ∈ s.rest id) :
    item.1 ∈ (s.given id actions ++ s'.rest id).map Prod.fst := by
  induction actions generalizing s past item with
  | nil =>
    obtain rfl : s = s' := Except.ok.inj hrun
    exact List.mem_map_of_mem hitem
  | cons a rest ih =>
    obtain ⟨s₁, hact, hpasses, h₁⟩ := h.act a
    rw [Session.run, hact] at hrun
    rw [given, hact, List.append_assoc, List.map_append, List.mem_append]
    have hkey := hpasses.key_mem_rest h.sound h₁.sound hitem
    rw [List.map_append, List.mem_append] at hkey
    refine hkey.imp_right fun hlater => ?_
    obtain ⟨item', hitem', heq⟩ := List.mem_map.mp hlater
    exact heq ▸ ih h₁ hrun hitem'

end Watched

/-- A traversal that has come to its end stays there. -/
theorem Sound.run_done (h : s.Sound) (hid : id < s.traversals.size)
    (hdone : s.traversal id = Traversal.done) (actions : List (Action V)) :
    ∃ s', s.run actions = .ok s' ∧ s.given id actions = [] ∧ (s'.next id).1 = none := by
  induction actions generalizing s with
  | nil =>
    refine ⟨s, rfl, rfl, ?_⟩
    rw [Session.next, hdone]
    rfl
  | cons a rest ih =>
    obtain ⟨s₁, hact, h₁, hall⟩ := h.act a
    obtain ⟨hid₁, hpasses⟩ := hall id hid
    obtain ⟨hout, hdone₁⟩ := hpasses.done h hdone
    obtain ⟨s', hrun, hgiven, hnext⟩ := ih h₁ hid₁ hdone₁
    refine ⟨s', by rw [Session.run, hact]; exact hrun, ?_, hnext⟩
    rw [given, hact, hout]
    exact hgiven

/-! ### What an open traversal can rely on -/

/-- Whatever is done next, a traversal goes on with what it has to come, apart
from an entry that is written. -/
structure Undisturbed (s : Session V) (id : Nat) : Prop where
  /-- One by one it yields what is to come. -/
  yields : (s.traversal id).Yields s.trie.store (s.rest id)
  next : (s.next id).1 = (s.rest id).head? ∧ (s.next id).2.rest id = (s.rest id).tail
  nextValue : s.nextValue id = ((s.next id).1.map Prod.snd, (s.next id).2)
  drain : (s.drain id).1 = s.rest id ∧ (s.drainValues id).1 = (s.rest id).map Prod.snd
  insert : ∀ key value, ∃ replaced s', s.insert key value = .ok (replaced, s') ∧
    (s'.rest id = s.rest id ∨ s'.rest id = Entries.put key value (s.rest id))
  clear : s.clear.rest id = s.rest id
  restart : ∀ sizing entries, ∃ s', s.restart sizing entries = .ok s' ∧ s'.rest id = s.rest id
  opens : s.openAll.2.rest id = s.rest id ∧
    ∀ stem, ∃ n s', s.openSearch stem = .ok (n, s') ∧ s'.rest id = s.rest id
  others : ∀ other ≠ id, (s.next other).2.rest id = s.rest id ∧
    (s.nextValue other).2.rest id = s.rest id
  /-- Once it has answered that there are no more entries, it does so for ever. -/
  ended : (s.next id).1 = none → ∀ later, ∃ s', (s.next id).2.run later = .ok s' ∧
    (s.next id).2.given id later = [] ∧ (s'.next id).1 = none

theorem Sound.undisturbed (h : s.Sound) (hid : id < s.traversals.size) : s.Undisturbed id where
  yields := (h.traversal id).yields h.store
  next := ⟨by rw [h.next_eq], rest_of_advances h (h.next id) rfl (h.advances_next hid)⟩
  nextValue := h.nextValue_eq id
  drain := ⟨rfl, (s.traversal id).values_eq s.trie.store⟩
  insert key value := by
    obtain ⟨replaced, s', hinsert, hs', hsame, hwrote, -⟩ := h.insert key value
    refine ⟨replaced, s', hinsert, rest_of_wrote h hs' hwrote ?_⟩
    rw [Session.traversal, Session.traversal, hsame]
  clear := rest_of_keeps h h.clear.1 h.clear.2 rfl
  restart sizing entries := by
    obtain ⟨s', hrestart, hs', hsame, hkeeps⟩ := h.restart sizing entries
    refine ⟨s', hrestart, rest_of_keeps h hs' hkeeps ?_⟩
    rw [Session.traversal, Session.traversal, hsame]
  opens := by
    have hopen (stem : Key) :
        ∃ n s', s.openSearch stem = .ok (n, s') ∧ s'.rest id = s.rest id := by
      obtain ⟨s', hopen, hs', htrie, ⟨t, ht⟩, -⟩ := h.openSearch stem
      exact ⟨_, s', hopen, rest_of_keeps h hs' (htrie ▸ .refl _) (traversal_of_push ht hid)⟩
    refine ⟨?_, hopen⟩
    obtain ⟨n, s', hsearch, hrest⟩ := hopen []
    obtain rfl : s.openAll.2 = s' := congrArg Prod.snd (Except.ok.inj hsearch)
    exact hrest
  others other hne := by
    have hrest : (s.next other).2.rest id = s.rest id :=
      rest_of_keeps h (h.next other) (.refl _) (s.traversal_next_of_ne hne)
    exact ⟨hrest, by rw [h.nextValue_eq]; exact hrest⟩
  ended hnone later := by
    have hrest : s.rest id = [] := by
      rw [h.next_eq] at hnone
      exact List.head?_eq_none_iff.mp hnone
    have hdone := (h.advances_next hid).fused (h.rest_eq id ▸ hrest)
    exact (h.next id).run_done ((s.size_traversals_next id).symm ▸ hid) hdone later

/-- Whatever is done in a session before a traversal is opened and after, what it
yields and what is to come are the keys that start with its stem in ascending
order; of what the trie held when it was opened no key is lost, and every entry
was in the trie at some moment since. -/
theorem run_undisturbed (sizing : Sizing) (entries : List (Key × V)) (before : List (Action V))
    (stem : Key) (after : List (Action V)) :
    ∃ start s₀ id s₁ s given, Trie.ofList sizing entries = .ok start ∧
      (ofTrie start).run before = .ok s₀ ∧ s₀.openSearch stem = .ok (id, s₁) ∧
      (stem = [] → s₀.openAll = (id, s₁)) ∧ s₁.run after = .ok s ∧ s₁.given id after = given ∧
      Entries.Ascending (given ++ s.rest id) ∧ (∀ item ∈ given ++ s.rest id, stem <+: item.1) ∧
      (∀ key value, s₀.trie.lookup key = .ok (some value) → stem <+: key →
        key ∈ (given ++ s.rest id).map Prod.fst) ∧
      (∀ item ∈ given ++ s.rest id, ∃ moment later s₂, after = moment ++ later ∧
        s₁.run moment = .ok s₂ ∧ s₂.trie.lookup item.1 = .ok (some item.2)) ∧
      s.Undisturbed id := by
  obtain ⟨start, hstart, hholds⟩ := Trie.holds_ofList sizing entries
  obtain ⟨s₀, hbefore, h₀⟩ := (sound_ofTrie hholds).run before
  obtain ⟨s₁, hopen, h₁, htrie, ⟨t, ht⟩, hcovered, hmem⟩ := h₀.openSearch stem
  have hwatched : Watched s₁ s₀.traversals.size stem [] := {
    sound := h₁
    isOpen := by
      rw [ht, Array.size_push]
      exact Nat.lt_succ_self _
    ascending := List.Pairwise.nil
    begins := by simp
    behind := by simp
    covered := htrie ▸ hcovered }
  obtain ⟨s, hafter, h⟩ := hwatched.run after
  rw [List.nil_append] at h
  refine ⟨start, s₀, _, s₁, s, _, hstart, hbefore, hopen, ?_, hafter, rfl, h.ascending_append,
    h.begins_append, ?_, ?_, h.sound.undisturbed h.isOpen⟩
  · rintro rfl
    exact Except.ok.inj hopen
  · intro key value hheld hstem
    exact hwatched.key_mem after hafter ((hmem key value).mpr ⟨hheld, hstem⟩)
  · rintro ⟨key, value⟩ hitem
    rcases hwatched.mem_rest_or_held after hafter hitem with hrest | hheld
    · exact ⟨[], after, s₁, rfl, rfl, htrie ▸ ((hmem key value).mp hrest).1⟩
    · exact hheld

end Session

end ByteTrie
