import ByteTrie.Proofs.Interleaving
import ByteTrie.Proofs.Session.Operations
import ByteTrie.Proofs.Store.Rounds
import ByteTrie.Proofs.Store.Strides

/-!
# All loops end

However a session has been used, every descent, walk, collection and sweep in it ends, in
the trie as it is and over all that the root has left behind. No walk comes to a node
twice, and none does so in the course of its life either, whatever is written between its
steps: the nodes that it has gone through keep their keys, and what is pending has anchors
behind all of them.
-/

namespace ByteTrie

namespace Session

variable {V : Type} {s s' : Session V} {id : Nat} {a : Action V}

/-- The nodes that an action takes a traversal through. -/
def visits (s : Session V) (id : Nat) : Action V → List NodeId
  | .next other => if other = id then (s.traversal id).visited s.trie.store else []
  | .nextValue other => if other = id then (s.traversal id).visited s.trie.store else []
  | _ => []

/-- The nodes that several actions take a traversal through. -/
def seen (s : Session V) (id : Nat) : List (Action V) → List NodeId
  | [] => []
  | a :: rest => s.visits id a ++ ((s.act a).toOption.elim [] fun s => s.seen id rest)

/-- An action takes a traversal through no nodes, or is a step of its own. -/
theorem Sound.visits_cases (h : s.Sound) (hid : id < s.traversals.size) (hact : s.act a = .ok s') :
    s.visits id a = [] ∨ ∃ found, s'.trie.store = s.trie.store ∧
      (s.traversal id).Seeks s.trie.store (s.visits id a) found (s'.traversal id) := by
  have hstep : (s.traversal id).Seeks s.trie.store ((s.traversal id).visited s.trie.store)
      ((s.traversal id).nextNode s.trie.store).1 ((s.next id).2.traversal id) := by
    rw [h.next_eq, s.traversal_setTraversal_self hid]
    exact (h.traversal id).seeks h.store
  cases a with
  | next other =>
    obtain rfl := Except.ok.inj hact
    by_cases heq : other = id
    · subst heq
      rw [visits, if_pos rfl]
      exact .inr ⟨_, rfl, hstep⟩
    · exact .inl (if_neg heq)
  | nextValue other =>
    obtain rfl := Except.ok.inj hact
    by_cases heq : other = id
    · subst heq
      rw [visits, if_pos rfl, h.nextValue_eq]
      exact .inr ⟨_, rfl, hstep⟩
    · exact .inl (if_neg heq)
  | insert | clear | restart | openAll | openSearch => exact .inl rfl

/-- What an action takes a traversal through was the first of what was to come, and all
that is left comes behind it. -/
theorem Sound.visits_isPrefix (h : s.Sound) (hid : id < s.traversals.size)
    (hact : s.act a = .ok s') :
    s.visits id a <+: (s.traversal id).listing s.trie.store ∧
      ∀ node ∈ s.visits id a,
        (s'.traversal id).Bounded s'.trie.store (s.trie.store.key node < ·) := by
  rcases h.visits_cases hid hact with hnone | ⟨found, hstore, hseeks⟩
  · rw [hnone]
    exact ⟨List.nil_prefix, by simp⟩
  · obtain ⟨hlisting, -, hbehind⟩ := hseeks.listing_eq (h.traversal id) h.store
    rw [hlisting, hstore]
    exact ⟨List.prefix_append _ _, hbehind⟩

/-- Nodes are not taken away, and keep their keys. -/
theorem Passes.has_key {out : List (Key × V)} (h : Passes s s' id out) {node : NodeId}
    (hnode : s.trie.store.Has node) :
    s'.trie.store.Has node ∧ s'.trie.store.key node = s.trie.store.key node := by
  cases h with
  | wrote hwrote _ _ => exact ⟨hwrote.has _ hnode, hwrote.key_eq hnode⟩
  | kept hkeeps _ => exact ⟨hkeeps.has _ hnode, hkeeps.key_eq hnode⟩
  | advanced hstore _ => exact ⟨hstore ▸ hnode, by rw [hstore]⟩

/-- A traversal that has gone through some nodes. -/
structure Trodden (s : Session V) (id : Nat) (past : List NodeId) : Prop where
  sound : s.Sound
  isOpen : id < s.traversals.size
  has : ∀ node ∈ past, s.trie.store.Has node
  ascending : past.Pairwise fun a b => s.trie.store.key a < s.trie.store.key b
  behind : ∀ node ∈ past, (s.traversal id).Bounded s.trie.store (s.trie.store.key node < ·)

namespace Trodden

variable {past : List NodeId}

/-- What has been gone through and what is to come are in one ascending order. -/
theorem ascending_append (h : Trodden s id past) :
    (past ++ (s.traversal id).listing s.trie.store).Pairwise fun a b =>
      s.trie.store.key a < s.trie.store.key b := by
  refine List.pairwise_append.mpr
    ⟨h.ascending, (h.sound.traversal id).pairwise_listing h.sound.store, fun node hnode => ?_⟩
  exact (h.behind node hnode).listing (h.sound.traversal id) h.sound.store
    fun _ _ hprefix hlt => Key.lt_of_lt_of_isPrefix hlt hprefix

theorem nodup (h : Trodden s id past) :
    (past ++ (s.traversal id).ahead s.trie.store).Nodup := by
  rw [(h.sound.traversal id).ahead_eq h.sound.store]
  exact Store.nodup_of_ascending h.ascending_append

theorem act (h : Trodden s id past) (a : Action V) :
    ∃ s', s.act a = .ok s' ∧ Trodden s' id (past ++ s.visits id a) := by
  obtain ⟨s', hact, hs', hall⟩ := h.sound.act a
  obtain ⟨hopen, hpasses⟩ := hall id h.isOpen
  obtain ⟨hfirst, hbehind⟩ := h.sound.visits_isPrefix h.isOpen hact
  have hhas : ∀ node ∈ past ++ s.visits id a, s.trie.store.Has node :=
    List.forall_mem_append.mpr ⟨h.has, fun node hnode =>
      (h.sound.traversal id).has_of_mem_listing h.sound.store (hfirst.mem hnode)⟩
  have hkey {node : NodeId} (hnode : node ∈ past ++ s.visits id a) :=
    hpasses.has_key (hhas node hnode)
  refine ⟨s', hact, hs', hopen, fun node hnode => (hkey hnode).1, ?_, fun node hnode => ?_⟩
  · -- the keys are as before the action, so the order can be read there
    have hascending := h.ascending_append.sublist (hfirst.sublist.append_left past)
    refine hascending.imp_of_mem fun {a b} ha hb hlt => ?_
    rwa [(hkey ha).2, (hkey hb).2]
  · rw [(hkey hnode).2]
    rcases List.mem_append.mp hnode with hpast | hnow
    · exact hpasses.bounded h.sound hs'
        (fun _ _ hprefix hlt => Key.lt_of_lt_of_isPrefix hlt hprefix) (h.behind node hpast)
    · exact hbehind node hnow

theorem run (h : Trodden s id past) (actions : List (Action V)) :
    ∃ s', s.run actions = .ok s' ∧ Trodden s' id (past ++ s.seen id actions) := by
  induction actions generalizing s past with
  | nil => exact ⟨s, rfl, (List.append_nil past).symm ▸ h⟩
  | cons a rest ih =>
    obtain ⟨s₁, hact, h₁⟩ := h.act a
    obtain ⟨s', hrun, h'⟩ := ih h₁
    refine ⟨s', by rw [Session.run, hact]; exact hrun, ?_⟩
    rw [seen, hact, ← List.append_assoc]
    exact h'

end Trodden

/-- In a session all loops end, and no walk comes to a node twice. -/
structure Ends (s : Session V) : Prop where
  /-- Looking a key up, searching for it and storing under it all go down as far as this. -/
  descent : ∀ key, ∃ entered stop,
    s.trie.store.Descends s.trie.store.rootPlace key entered stop ∧
      s.trie.store.trace key = .ok stop ∧ entered.length ≤ key.length
  lookup : ∀ key, ∃ value, s.trie.lookup key = .ok value
  insert : ∀ key value, ∃ replaced s', s.insert key value = .ok (replaced, s')
  /-- Without a stem this is the traversal of all that there is. -/
  search : ∀ stem, ∃ t, s.trie.search stem = .ok t ∧ t.Ends s.trie.store
  traversals : ∀ t ∈ s.traversals, t.Ends s.trie.store
  /-- What an open traversal goes through from now on, whatever is done meanwhile. -/
  life : ∀ id < s.traversals.size, ∀ actions, ∃ s', s.run actions = .ok s' ∧
    (s.seen id actions ++ (s'.traversal id).ahead s'.trie.store).Nodup
  /-- From any node, also from one that the root has left behind. -/
  collection : ∀ id, s.trie.store.Has id → s.trie.store.CollectionEnds id
  sweep : ∃ visited, s.trie.SweepEnds visited

theorem Sound.ends (h : s.Sound) : s.Ends where
  descent key := h.store.trace_descends key
  lookup key := by
    obtain ⟨m, hholds⟩ := h.trie
    exact ⟨m.lookup key, hholds.lookup_eq key⟩
  insert key value := by
    obtain ⟨replaced, s', hinsert, -⟩ := h.insert key value
    exact ⟨replaced, s', hinsert⟩
  search stem := by
    obtain ⟨found, hcover, hsound, -⟩ := h.store.search stem
    exact ⟨Traversal.start found, by rw [Trie.search, hcover]; rfl, hsound.ends h.store⟩
  traversals t ht := (h.traversals t ht).ends h.store
  life id hid actions := by
    have htrodden : Trodden s id [] := ⟨h, hid, by simp, .nil, by simp⟩
    obtain ⟨s', hrun, h'⟩ := htrodden.run actions
    exact ⟨s', hrun, h'.nodup⟩
  collection _ hid := h.store.collectionEnds hid
  sweep := Trie.exists_sweepEnds h.store

/-- However a trie of given entries is used, all loops end. -/
theorem performAll_ends (sizing : Sizing) (entries : List (Key × V))
    (operations : List (Operation V)) :
    ∃ start answers s, Trie.ofList sizing entries = .ok start ∧
      (ofTrie start).performAll operations = .ok (answers, s) ∧ s.Ends := by
  obtain ⟨start, answers, s, hstart, hperform, h⟩ := exists_performAll sizing entries operations
  exact ⟨start, answers, s, hstart, hperform, h.ends⟩

end Session

end ByteTrie
