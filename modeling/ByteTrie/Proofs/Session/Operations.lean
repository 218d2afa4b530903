import ByteTrie.Proofs.Session

/-!
# All that can be asked of a session

No operation fails in a sound session, each leaves a sound session behind, and so
does every run of them.
-/

namespace ByteTrie

variable {V : Type}

namespace Session

/-- Storing several values is storing one after the other. -/
theorem insertEach_cons (s : Session V) (key : Key) (value : V) (rest : List (Key × V)) :
    s.insertEach ((key, value) :: rest) = do
      let (replaced, s) ← s.insert key value
      let (later, s) ← s.insertEach rest
      return (replaced :: later, s) := by
  rw [insertEach, Trie.insertEach, insert]
  cases s.trie.insert key value with
  | error fault => rfl
  | ok result =>
    obtain ⟨replaced, trie⟩ := result
    simp only [bind, Except.bind, Except.map, insertEach]
    cases trie.insertEach rest <;> rfl

namespace Sound

variable {s : Session V}

theorem insertEach (h : s.Sound) (entries : List (Key × V)) :
    ∃ answers s', s.insertEach entries = .ok (answers, s') ∧ s'.Sound := by
  induction entries generalizing s with
  | nil => exact ⟨[], s, rfl, h⟩
  | cons entry rest ih =>
    obtain ⟨key, value⟩ := entry
    obtain ⟨replaced, s₁, hinsert, h₁, -⟩ := h.insert key value
    obtain ⟨answers, s', hrest, h'⟩ := ih h₁
    refine ⟨replaced :: answers, s', ?_, h'⟩
    rw [insertEach_cons, hinsert]
    simp only [bind, Except.bind, hrest]
    rfl

theorem write (h : s.Sound) (w : Write V) :
    ∃ answer s', s.write w = .ok (answer, s') ∧ s'.Sound := by
  cases w with
  | insert key value =>
    obtain ⟨replaced, s', hinsert, h', -⟩ := h.insert key value
    exact ⟨.value replaced, s', by rw [Session.write, hinsert]; rfl, h'⟩
  | insertEach entries =>
    obtain ⟨answers, s', hinsert, h'⟩ := h.insertEach entries
    exact ⟨.replaced answers, s', by rw [Session.write, hinsert]; rfl, h'⟩
  | clear => exact ⟨.nothing, s.clear, rfl, h.clear.1⟩
  | restart sizing entries =>
    obtain ⟨s', hrestart, h', -⟩ := h.restart sizing entries
    exact ⟨.nothing, s', by rw [Session.write, hrestart]; rfl, h'⟩

theorem close (h : s.Sound) (id : Nat) : (s.close id).Sound :=
  h.setTraversal Traversal.sound_done id

theorem gatherItems (h : s.Sound) (stem : Key) :
    ∃ s', s.gatherItems stem = .ok s' ∧ s'.Sound := by
  obtain ⟨found, hcover, -⟩ := h.store.cover? stem
  rw [Session.gatherItems, Trie.itemsWith, hcover]
  exact ⟨_, rfl, h.trie, h.traversals⟩

theorem gatherValues (h : s.Sound) (stem : Key) :
    ∃ s', s.gatherValues stem = .ok s' ∧ s'.Sound := by
  obtain ⟨found, hcover, -⟩ := h.store.cover? stem
  rw [Session.gatherValues, Trie.valuesWith, hcover]
  exact ⟨_, rfl, h.trie, h.traversals⟩

/-- Every operation can be done. -/
theorem perform (h : s.Sound) (operation : Operation V) :
    ∃ answer s', s.perform operation = .ok (answer, s') ∧ s'.Sound := by
  obtain ⟨m, hholds⟩ := h.trie
  cases operation with
  | write w => exact h.write w
  | lookup key =>
    exact ⟨.value (m.lookup key), s, by rw [Session.perform, hholds.lookup_eq]; rfl, h⟩
  | contains key =>
    exact ⟨.flag (m.lookup key).isSome, s, by rw [Session.perform, hholds.contains_eq]; rfl, h⟩
  | openAll =>
    obtain ⟨s', hopen, h', -⟩ := h.openSearch []
    obtain rfl : s' = s.openAll.2 := congrArg Prod.snd (Except.ok.inj hopen.symm)
    exact ⟨_, _, rfl, h'⟩
  | openSearch stem =>
    obtain ⟨s', hopen, h', -⟩ := h.openSearch stem
    exact ⟨.number s.traversals.size, s', by rw [Session.perform, hopen]; rfl, h'⟩
  | next id => exact ⟨_, _, rfl, h.next id⟩
  | nextValue id =>
    have heq : (s.nextValue id).2 = (s.next id).2 := by rw [h.nextValue_eq]
    exact ⟨_, _, rfl, heq ▸ h.next id⟩
  | drain id => exact ⟨_, _, rfl, h.close id⟩
  | drainValues id => exact ⟨_, _, rfl, h.close id⟩
  | close id => exact ⟨_, _, rfl, h.close id⟩
  | gatherItems stem =>
    obtain ⟨s', hgather, h'⟩ := h.gatherItems stem
    exact ⟨.number s'.items.length, s', by rw [Session.perform, hgather]; rfl, h'⟩
  | gatherValues stem =>
    obtain ⟨s', hgather, h'⟩ := h.gatherValues stem
    exact ⟨.number s'.values.length, s', by rw [Session.perform, hgather]; rfl, h'⟩
  | takeItems => exact ⟨_, _, rfl, h.trie, h.traversals⟩
  | takeValues => exact ⟨_, _, rfl, h.trie, h.traversals⟩
  | toList | values | size | isEmpty | census => exact ⟨_, s, rfl, h⟩

/-- Every run of operations can be done. -/
theorem performAll (h : s.Sound) (operations : List (Operation V)) :
    ∃ answers s', s.performAll operations = .ok (answers, s') ∧ s'.Sound := by
  induction operations generalizing s with
  | nil => exact ⟨[], s, rfl, h⟩
  | cons operation rest ih =>
    obtain ⟨answer, s₁, hperform, h₁⟩ := h.perform operation
    obtain ⟨later, s', hrest, h'⟩ := ih h₁
    refine ⟨answer :: later, s', ?_, h'⟩
    rw [Session.performAll, hperform]
    simp only [bind, Except.bind, hrest]
    rfl

end Sound

/-- A session with a trie of given entries can be used in any way. -/
theorem exists_performAll (sizing : Sizing) (entries : List (Key × V))
    (operations : List (Operation V)) :
    ∃ start answers s, Trie.ofList sizing entries = .ok start ∧
      (ofTrie start).performAll operations = .ok (answers, s) ∧ s.Sound := by
  obtain ⟨start, hstart, hholds⟩ := Trie.holds_ofList sizing entries
  obtain ⟨answers, s, hperform, h⟩ := (sound_ofTrie hholds).performAll operations
  exact ⟨start, answers, s, hstart, hperform, h⟩

end Session

end ByteTrie
