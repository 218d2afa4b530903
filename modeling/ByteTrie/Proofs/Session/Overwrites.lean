import ByteTrie.Proofs.Interleaving
import ByteTrie.Proofs.Session.Operations
import ByteTrie.Proofs.Store.Revaluation

/-!
# Overwrites under the eyes of a traversal

If no other writes are made than under keys that have a value, the nodes of the
trie stay what they are, and so do the nodes that an open traversal has still to
enter. It goes on to yield the keys that were there when it was opened, and
finds under each the value of that moment: a write is seen if and only if its
key has not been yielded.
-/

namespace ByteTrie

variable {V : Type}

theorem Trie.contains_iff {t : Trie V} {key : Key} :
    t.contains key = .ok true ↔ ∃ value, t.lookup key = .ok (some value) := by
  rw [contains]
  cases t.lookup key with
  | error fault => simp [Except.map]
  | ok held => simp [Except.map, Option.isSome_iff_exists]

/-- If an action writes to a trie, it does so under a key that has a value. -/
def Action.Overwrites (t : Trie V) : Action V → Prop
  | .insert key _ => t.contains key = .ok true
  | .clear => False
  | .restart _ _ => False
  | .openAll => True
  | .openSearch _ => True
  | .next _ => True
  | .nextValue _ => True

theorem Action.Overwrites.revalued {t t' : Trie V} {a : Action V} (h : a.Overwrites t)
    (hrevalued : t.store.Revalued t'.store) (ht : t.store.Sound) (ht' : t'.store.Sound) :
    a.Overwrites t' := by
  cases a with
  | insert key value =>
    exact Trie.contains_iff.mpr
      ((hrevalued.exists_lookup_iff ht ht' key).mpr (Trie.contains_iff.mp h))
  | clear | restart => exact h
  | openAll | openSearch | next | nextValue => trivial

namespace Session

variable {s s' : Session V} {id : Nat}

/-- An overwrite changes nothing but a value. -/
theorem Sound.revalued_of_overwrites (h : s.Sound) {a : Action V} (ha : a.Overwrites s.trie)
    (hact : s.act a = .ok s') : s.trie.store.Revalued s'.trie.store := by
  cases a with
  | insert key value =>
    obtain ⟨held, hlookup⟩ := Trie.contains_iff.mp ha
    obtain ⟨node, hlive, -, hvalue, hinsert⟩ :=
      h.store.insert_of_lookup s.trie.sizing hlookup value
    rw [Session.act, Session.insert, Trie.insert, hinsert] at hact
    obtain rfl := Except.ok.inj hact
    exact .setValue (h.store.has_live hlive) (by rw [hvalue]; rfl) value
  | clear | restart => exact ha.elim
  | openAll | next other | nextValue other =>
    obtain rfl := Except.ok.inj hact
    exact .refl _
  | openSearch stem =>
    obtain ⟨s₁, hopen, -, htrie, -⟩ := h.openSearch stem
    rw [Session.act, hopen] at hact
    obtain rfl := Except.ok.inj hact
    exact htrie ▸ .refl _

/-- A search opens a traversal of nodes of the trie. -/
theorem Sound.attached_openSearch (h : s.Sound) {stem : Key}
    (hopen : s.openSearch stem = .ok (id, s')) :
    (s'.traversal id).Attached s'.trie.store := by
  obtain ⟨found, hcover, hfound, -⟩ := h.store.cover? stem
  rw [Session.openSearch, Trie.search, hcover] at hopen
  have hkeep : s.keep (Traversal.start found) = (id, s') := Except.ok.inj hopen
  have htraversal := s.traversal_keep (Traversal.start found)
  have htrie : (s.keep (Traversal.start found)).2.trie = s.trie := rfl
  rw [hkeep] at htraversal htrie
  intro p hp
  rw [htraversal, Traversal.pending_start] at hp
  obtain ⟨node, hnode, rfl⟩ := List.mem_map.mp hp
  exact htrie ▸ (hfound node (Option.mem_toList.mp hnode)).1

/-- A traversal goes through the nodes of a trie that has been overwritten only:
with what it has yielded, it comes to some given keys. -/
structure Tracks (base : Trie V) (keys : List Key) (s : Session V) (id : Nat)
    (past : List (Key × V)) : Prop where
  sound : s.Sound
  isOpen : id < s.traversals.size
  revalued : base.store.Revalued s.trie.store
  attached : (s.traversal id).Attached s.trie.store
  keys_eq : (past ++ s.rest id).map Prod.fst = keys

namespace Tracks

variable {base : Trie V} {keys : List Key} {past : List (Key × V)} {key : Key} {value : V}

theorem lookup_of_mem_rest (h : Tracks base keys s id past) (hitem : (key, value) ∈ s.rest id) :
    s.trie.lookup key = .ok (some value) :=
  h.attached.lookup_eq h.sound.store (h.sound.rest_eq id ▸ hitem)

/-- What is to come is what the trie holds under the keys not yielded. -/
theorem mem_rest_iff (h : Tracks base keys s id past) (hkeys : keys.Nodup) :
    (key, value) ∈ s.rest id ↔
      s.trie.lookup key = .ok (some value) ∧ key ∈ keys ∧ key ∉ past.map Prod.fst := by
  rw [← h.keys_eq, List.map_append] at hkeys ⊢
  constructor
  · intro hitem
    have hkey : key ∈ (s.rest id).map Prod.fst := List.mem_map_of_mem hitem
    exact ⟨h.lookup_of_mem_rest hitem, List.mem_append_right _ hkey,
      fun hpast => (List.nodup_append.mp hkeys).2.2 key hpast key hkey rfl⟩
  · rintro ⟨hlookup, hkey, hpast⟩
    obtain ⟨⟨key, held⟩, hitem, rfl⟩ :=
      List.mem_map.mp ((List.mem_append.mp hkey).resolve_left hpast)
    rw [h.lookup_of_mem_rest hitem, Except.ok.injEq, Option.some.injEq] at hlookup
    exact hlookup ▸ hitem

theorem act (h : Tracks base keys s id past) (hbase : base.store.Sound) {a : Action V}
    (ha : a.Overwrites base) :
    ∃ s', s.act a = .ok s' ∧ Tracks base keys s' id (past ++ s.yields id a) ∧
      ∀ item ∈ s.yields id a, s.trie.lookup item.1 = .ok (some item.2) := by
  obtain ⟨s', hact, hs', hall⟩ := h.sound.act a
  obtain ⟨hopen, hpasses⟩ := hall id h.isOpen
  have hrevalued := h.sound.revalued_of_overwrites (ha.revalued h.revalued hbase h.sound.store) hact
  have hsteps : (s'.traversal id).Attached s'.trie.store ∧
      (s.yields id a ++ s'.rest id).map Prod.fst = (s.rest id).map Prod.fst := by
    rcases hpasses.stays_or_steps h.sound hs' with
      ⟨hout, hsame⟩ | ⟨found, hstore, hadvances, hrest⟩
    · rw [hout, List.nil_append, hs'.rest_eq, h.sound.rest_eq, hsame]
      exact ⟨h.attached.revalued hrevalued,
        hrevalued.map_fst_rest h.sound.store hs'.store (h.sound.traversal id)⟩
    · rw [hrest, hstore]
      exact ⟨h.attached.advances h.sound.store (h.sound.traversal id) hadvances, rfl⟩
  refine ⟨s', hact, ⟨hs', hopen, h.revalued.trans hrevalued, hsteps.1, ?_⟩, fun item hitem => ?_⟩
  · rw [← h.keys_eq, List.append_assoc, List.map_append, hsteps.2, List.map_append]
  · exact h.lookup_of_mem_rest (hpasses.sublist.mem hitem)

theorem run (h : Tracks base keys s id past) (hbase : base.store.Sound) {actions : List (Action V)}
    (hactions : ∀ a ∈ actions, a.Overwrites base) :
    ∃ s', s.run actions = .ok s' ∧ Tracks base keys s' id (past ++ s.given id actions) := by
  refine exists_run_of_act (fun s past => Tracks base keys s id past) ?_ h
  intro a ha s₁ past₁ h₁
  obtain ⟨s₂, hact, h₂, -⟩ := h₁.act hbase (hactions a ha)
  exact ⟨s₂, hact, h₂⟩

/-- What is yielded is in the trie at that moment. -/
theorem lookup_of_mem_yields (h : Tracks base keys s id past) (hbase : base.store.Sound)
    {moment later : List (Action V)} {a : Action V}
    (hactions : ∀ b ∈ moment ++ a :: later, b.Overwrites base) (hrun : s.run moment = .ok s')
    {item : Key × V} (hitem : item ∈ s'.yields id a) :
    s'.trie.lookup item.1 = .ok (some item.2) := by
  obtain ⟨hmoment, hlater⟩ := List.forall_mem_append.mp hactions
  obtain ⟨s₁, hrun₁, h₁⟩ := h.run hbase hmoment
  obtain rfl := Except.ok.inj (hrun₁.symm.trans hrun)
  obtain ⟨-, -, -, hheld⟩ := h₁.act hbase (hlater a List.mem_cons_self)
  exact hheld item hitem

end Tracks

/-- If after a traversal has been opened nothing is written but under keys that
have a value, it comes to the keys with its stem that had one, in ascending order,
each with the value that the trie holds when it is yielded. -/
theorem run_overwrites (sizing : Sizing) (entries : List (Key × V)) (before : List (Operation V))
    (stem : Key) :
    ∃ start answers s₀ id s₁, Trie.ofList sizing entries = .ok start ∧
      (ofTrie start).performAll before = .ok (answers, s₀) ∧
      s₀.openSearch stem = .ok (id, s₁) ∧ (stem = [] → s₀.openAll = (id, s₁)) ∧
      ∀ after : List (Action V), (∀ a ∈ after, a.Overwrites s₀.trie) →
        ∃ s given, s₁.run after = .ok s ∧ s₁.given id after = given ∧
          s₀.trie.store.Revalued s.trie.store ∧ Entries.Ascending (given ++ s.rest id) ∧
          (∀ key, key ∈ (given ++ s.rest id).map Prod.fst ↔
            s₀.trie.contains key = .ok true ∧ stem <+: key) ∧
          (∀ moment a later s₂, after = moment ++ a :: later → s₁.run moment = .ok s₂ →
            ∀ item ∈ s₂.yields id a, s₂.trie.lookup item.1 = .ok (some item.2)) ∧
          (∀ key value, (key, value) ∈ s.rest id ↔ s.trie.lookup key = .ok (some value) ∧
            stem <+: key ∧ key ∉ given.map Prod.fst) ∧
          s.Undisturbed id := by
  obtain ⟨start, answers, s₀, hstart, hbefore, h₀⟩ := exists_performAll sizing entries before
  obtain ⟨s₁, hopen, h₁, htrie, ⟨t, ht⟩, -, hmem⟩ := h₀.openSearch stem
  have htracks : Tracks s₀.trie ((s₁.rest s₀.traversals.size).map Prod.fst) s₁
      s₀.traversals.size [] := {
    sound := h₁
    isOpen := by
      rw [ht, Array.size_push]
      exact Nat.lt_succ_self _
    revalued := htrie ▸ .refl _
    attached := h₀.attached_openSearch hopen
    keys_eq := rfl }
  have hascending := h₁.ascending_rest s₀.traversals.size
  have hkeys (key : Key) : key ∈ (s₁.rest s₀.traversals.size).map Prod.fst ↔
      s₀.trie.contains key = .ok true ∧ stem <+: key := by
    rw [Trie.contains_iff, ← exists_and_right]
    simp [hmem]
  refine ⟨start, answers, s₀, _, s₁, hstart, hbefore, hopen, ?_, fun after hafter => ?_⟩
  · rintro rfl
    exact Except.ok.inj hopen
  obtain ⟨s, hrun, h⟩ := htracks.run h₀.store hafter
  rw [List.nil_append] at h
  refine ⟨s, _, hrun, rfl, h.revalued, ?_, fun key => ?_, ?_, fun key value => ?_,
    h.sound.undisturbed h.isOpen⟩
  · exact List.pairwise_map.mp (h.keys_eq ▸ List.pairwise_map.mpr hascending)
  · rw [h.keys_eq]
    exact hkeys key
  · rintro moment a later s₂ rfl hmoment item hitem
    exact htracks.lookup_of_mem_yields h₀.store hafter hmoment hitem
  · rw [h.mem_rest_iff hascending.nodup_map_fst]
    refine and_congr_right fun hlookup => and_congr_left' ?_
    have hheld := (h.revalued.exists_lookup_iff h₀.store h.sound.store key).mp ⟨value, hlookup⟩
    rw [hkeys, and_iff_right (Trie.contains_iff.mpr hheld)]

/-- Of two keys that are overwritten once the first has been yielded, the second
is seen with its new value. -/
theorem run_overwrites_second :
    ∃ (start : Trie Nat) (id : Nat) (s₁ s : Session Nat),
      Trie.ofList .alphabet [([1], 10), ([2], 20)] = .ok start ∧
      (ofTrie start).openSearch [] = .ok (id, s₁) ∧
      (∀ a ∈ [.next 0, .insert [1] 11, .insert [2] 21], Action.Overwrites start a) ∧
      s₁.run [.next 0, .insert [1] 11, .insert [2] 21] = .ok s ∧
      s₁.given id [.next 0, .insert [1] 11, .insert [2] 21] = [([1], 10)] ∧
      ([2], 21) ∈ s.rest id ∧ ([1], 11) ∉ s.rest id := by
  obtain ⟨start, answers, s₀, id, s₁, hstart, hbefore, hopen, -, hafter⟩ :=
    run_overwrites .alphabet [([1], 10), ([2], 20)] [] []
  obtain ⟨-, rfl⟩ := Prod.mk.inj (Except.ok.inj hbefore)
  have hcontains : (Trie.ofList .alphabet [([1], 10), ([2], 20)]).bind (fun start : Trie Nat =>
      .ok (start.contains [1], start.contains [2])) = .ok (.ok true, .ok true) := by
    decide +kernel
  have hgiven : (Trie.ofList .alphabet [([1], 10), ([2], 20)]).bind (fun start : Trie Nat =>
      ((ofTrie start).openSearch []).bind fun (id, s) =>
        (s.run [.next 0, .insert [1] 11, .insert [2] 21]).map fun s' =>
          (s.given id [.next 0, .insert [1] 11, .insert [2] 21], s'.trie.lookup [2])) =
      .ok ([([1], 10)], .ok (some 21)) := by
    decide +kernel
  rw [hstart] at hcontains hgiven
  obtain ⟨hone, htwo⟩ := Prod.mk.inj (Except.ok.inj hcontains)
  have hall : ∀ a ∈ [.next 0, .insert [1] 11, .insert [2] 21], Action.Overwrites start a := by
    simp [Action.Overwrites, hone, htwo]
  obtain ⟨s, given, hrun, rfl, -, -, -, -, hrest, -⟩ := hafter _ hall
  simp only [Except.bind, hopen, hrun, Except.map, Except.ok.injEq, Prod.mk.injEq] at hgiven
  obtain ⟨hgiven, hheld⟩ := hgiven
  refine ⟨start, id, s₁, s, hstart, hopen, hall, hrun, hgiven, ?_, ?_⟩
  · rw [hrest, hgiven]
    exact ⟨hheld, List.nil_prefix, by decide⟩
  · rw [hrest, hgiven]
    exact fun hitem => hitem.2.2 (by decide)

end Session

end ByteTrie
