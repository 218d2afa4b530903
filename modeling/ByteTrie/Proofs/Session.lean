import ByteTrie.Proofs.Store.Suspension
import ByteTrie.Proofs.Trie.Search
import ByteTrie.Session.Operations

/-!
# Traversals that are open in a session

Between two steps of an open traversal anything may be done in the session: the
trie may be written to, cleared or begun anew, and any traversal may be opened
or taken on. Seen from one traversal each action is one of three: a write under
a key, something that leaves all nodes and rows as they are, or its own step.
`Passes` tells them apart, and all that holds over a run of actions is an
induction over it.
-/

namespace ByteTrie

variable {V : Type}

namespace Session

/-- The entry that an action takes out of a traversal. -/
def yields (s : Session V) (id : Nat) : Action V → List (Key × V)
  | .next other => if other = id then (s.next id).1.toList else []
  | .nextValue other => if other = id then (s.next id).1.toList else []
  | _ => []

/-- The entries that several actions take out of a traversal. -/
def given (s : Session V) (id : Nat) : List (Action V) → List (Key × V)
  | [] => []
  | a :: rest => s.yields id a ++ ((s.act a).toOption.elim [] fun s => s.given id rest)

/-- What an open traversal would yield if nothing else was done any more. -/
def rest (s : Session V) (id : Nat) : List (Key × V) := (s.traversal id).items s.trie.store

/-- The trie holds a map, and every open traversal can go on in its store. -/
structure Sound (s : Session V) : Prop where
  trie : ∃ m, s.trie.Holds m
  traversals : ∀ t ∈ s.traversals, t.Sound s.trie.store

/-- What becomes of a traversal when something is done in the session. -/
inductive Passes (s s' : Session V) (id : Nat) : List (Key × V) → Prop
  | wrote {key : Key} {value : V} (write : Store.Wrote key value s.trie.store s'.trie.store)
      (held : s'.trie.lookup key = .ok (some value)) (same : s'.traversal id = s.traversal id) :
      Passes s s' id []
  | kept (keeps : s.trie.store.Keeps s'.trie.store) (same : s'.traversal id = s.traversal id) :
      Passes s s' id []
  | advanced {found : Option NodeId} (store : s'.trie.store = s.trie.store)
      (advances : Traversal.Advances s.trie.store (s.traversal id) found (s'.traversal id)) :
      Passes s s' id (s.rest id).head?.toList

variable {s s' : Session V} {id : Nat}

theorem traversal_setTraversal_self (s : Session V) (hid : id < s.traversals.size) (t : Traversal) :
    (s.setTraversal id t).traversal id = t := by
  simp [traversal, setTraversal, hid]

theorem traversal_setTraversal_of_ne (s : Session V) {other : Nat} (hne : other ≠ id)
    (t : Traversal) : (s.setTraversal other t).traversal id = s.traversal id := by
  simp [traversal, setTraversal, Array.getElem?_setIfInBounds_ne hne]

namespace Sound

theorem store (h : s.Sound) : s.trie.store.Sound := by
  obtain ⟨m, hholds⟩ := h.trie
  exact hholds.sound

theorem traversal (h : s.Sound) (id : Nat) : (s.traversal id).Sound s.trie.store := by
  rw [Session.traversal, Array.getD_eq_getD_getElem?]
  cases hget : s.traversals[id]? with
  | none => exact Traversal.sound_done
  | some t => exact h.traversals t (Array.mem_of_getElem? hget)

theorem rest_eq (h : s.Sound) (id : Nat) : s.rest id = (s.traversal id).rest s.trie.store :=
  (h.traversal id).items_eq h.store

theorem ascending_rest (h : s.Sound) (id : Nat) : Entries.Ascending (s.rest id) :=
  h.rest_eq id ▸ (h.traversal id).ascending_rest h.store

/-! ### What each action does -/

/-- An insertion succeeds, and its entry is there. -/
theorem insert (h : s.Sound) (key : Key) (value : V) :
    ∃ replaced s', s.insert key value = .ok (replaced, s') ∧ s'.Sound ∧
      s'.traversals = s.traversals ∧ Store.Wrote key value s.trie.store s'.trie.store ∧
      s'.trie.lookup key = .ok (some value) := by
  obtain ⟨m, hholds⟩ := h.trie
  obtain ⟨trie, hinsert, hholds', hwrote⟩ := hholds.insert key value
  refine ⟨m.lookup key, { s with trie }, by rw [Session.insert, hinsert]; rfl, ?_, rfl, hwrote, ?_⟩
  · exact ⟨⟨_, hholds'⟩, fun t ht =>
      hwrote.sound_traversal h.store hholds'.sound (h.traversals t ht)⟩
  · rw [hholds'.lookup_eq, Finmap.lookup_insert]

/-- A session goes on with another trie in the same store. -/
theorem of_keeps (h : s.Sound) {trie : Trie V} (htrie : ∃ m, trie.Holds m)
    (hkeeps : s.trie.store.Keeps trie.store) : Sound { s with trie } :=
  ⟨htrie, fun t ht => hkeeps.sound_traversal h.store (h.traversals t ht)⟩

theorem clear (h : s.Sound) : s.clear.Sound ∧ s.trie.store.Keeps s.clear.trie.store := by
  obtain ⟨m, hholds⟩ := h.trie
  have hkeeps := Store.Keeps.reset s.trie.store
  exact ⟨h.of_keeps ⟨∅, hholds.restart s.trie.sizing⟩ hkeeps, hkeeps⟩

/-- Once the trie has been taken away, all there was is left behind. -/
theorem retires_restart (h : s.Sound) {sizing : Sizing} {entries : List (Key × V)}
    (hrestart : s.restart sizing entries = .ok s') :
    s.trie.store.reset.Retires s'.trie.store := by
  obtain ⟨m, hholds⟩ := h.trie
  obtain ⟨trie, hinsert, -, hretires⟩ := (hholds.restart sizing).insertMany entries
  rw [Session.restart, hinsert] at hrestart
  obtain rfl := Except.ok.inj hrestart
  exact hretires

theorem restart (h : s.Sound) (sizing : Sizing) (entries : List (Key × V)) :
    ∃ s', s.restart sizing entries = .ok s' ∧ s'.Sound ∧ s'.traversals = s.traversals ∧
      s.trie.store.Keeps s'.trie.store := by
  obtain ⟨m, hholds⟩ := h.trie
  obtain ⟨trie, hinsert, hholds', -⟩ := (hholds.restart sizing).insertMany entries
  have hrestart : s.restart sizing entries = .ok { s with trie } := by
    rw [Session.restart, hinsert]
    rfl
  have hkeeps := Store.Keeps.of_retires_reset (h.retires_restart hrestart)
  exact ⟨_, hrestart, h.of_keeps ⟨_, hholds'⟩ hkeeps, rfl, hkeeps⟩

theorem keep (h : s.Sound) {t : Traversal} (ht : t.Sound s.trie.store) : (s.keep t).2.Sound := by
  refine ⟨h.trie, fun other hother => ?_⟩
  rcases Array.mem_push.mp hother with hmem | rfl
  · exact h.traversals other hmem
  · exact ht

/-- A search opens a traversal of what the trie holds with that beginning. -/
theorem openSearch (h : s.Sound) (stem : Key) :
    ∃ s', s.openSearch stem = .ok (s.traversals.size, s') ∧ s'.Sound ∧ s'.trie = s.trie ∧
      (∃ t, s'.traversals = s.traversals.push t) ∧
      (s'.traversal s.traversals.size).Bounded s.trie.store (stem <+: ·) ∧
      ∀ key value, (key, value) ∈ s'.rest s.traversals.size ↔
        s.trie.lookup key = .ok (some value) ∧ stem <+: key := by
  obtain ⟨m, hholds⟩ := h.trie
  obtain ⟨found, hcover, hsound, hbounded, hmem⟩ := h.store.search stem
  have hs' := h.keep hsound
  have ht : (s.keep (Traversal.start found)).2.traversal s.traversals.size =
      Traversal.start found := s.traversal_keep (Traversal.start found)
  have hrest : (s.keep (Traversal.start found)).2.rest s.traversals.size =
      (Traversal.start found).rest s.trie.store := by
    rw [hs'.rest_eq, ht]
    rfl
  refine ⟨(s.keep (Traversal.start found)).2, ?_, hs', rfl, ⟨_, rfl⟩, ?_, fun key value => ?_⟩
  · rw [Session.openSearch, Trie.search, hcover]
    rfl
  · rw [ht]
    exact hbounded
  · rw [hrest, hmem, hholds.mem_itemsBelow, hholds.lookup_eq, Except.ok.injEq]

theorem setTraversal (h : s.Sound) {t : Traversal} (ht : t.Sound s.trie.store) (id : Nat) :
    (s.setTraversal id t).Sound := by
  refine ⟨h.trie, fun other hother => ?_⟩
  rcases Array.mem_or_eq_of_mem_setIfInBounds hother with hmem | rfl
  · exact h.traversals other hmem
  · exact ht

theorem next_eq (h : s.Sound) (id : Nat) :
    s.next id =
      ((s.rest id).head?, s.setTraversal id ((s.traversal id).nextNode s.trie.store).2) := by
  rw [Session.next, (h.traversal id).next_eq h.store, h.rest_eq]

theorem nextValue_eq (h : s.Sound) (id : Nat) :
    s.nextValue id = ((s.next id).1.map Prod.snd, (s.next id).2) := by
  rw [h.next_eq, Session.nextValue, (h.traversal id).nextValue_eq h.store, h.rest_eq]

theorem next (h : s.Sound) (id : Nat) : (s.next id).2.Sound := by
  rw [h.next_eq]
  exact h.setTraversal ((h.traversal id).nextNode_advances h.store).sound id

end Sound

theorem traversal_of_push {t : Traversal} (h : s'.traversals = s.traversals.push t)
    (hid : id < s.traversals.size) : s'.traversal id = s.traversal id := by
  rw [traversal, traversal, h, Array.getD_eq_getD_getElem?, Array.getD_eq_getD_getElem?,
    Array.getElem?_push_lt hid, Array.getElem?_eq_getElem hid]

theorem Sound.advances_next (h : s.Sound) (hid : id < s.traversals.size) :
    Traversal.Advances s.trie.store (s.traversal id) ((s.traversal id).nextNode s.trie.store).1
      ((s.next id).2.traversal id) := by
  rw [h.next_eq, s.traversal_setTraversal_self hid]
  exact (h.traversal id).nextNode_advances h.store

theorem traversal_next_of_ne (s : Session V) {other : Nat} (hne : other ≠ id) :
    (s.next other).2.traversal id = s.traversal id :=
  s.traversal_setTraversal_of_ne hne _

/-- A traversal goes on by itself, and is left alone when another does. -/
theorem Sound.passes_next (h : s.Sound) (hid : id < s.traversals.size) (other : Nat) :
    Passes s (s.next other).2 id (if other = id then (s.next id).1.toList else []) := by
  by_cases heq : other = id
  · subst heq
    have hout : (s.next other).1 = (s.rest other).head? := by rw [h.next_eq]
    rw [if_pos rfl, hout]
    exact .advanced rfl (h.advances_next hid)
  · rw [if_neg heq]
    exact .kept (.refl _) (s.traversal_next_of_ne heq)

theorem size_traversals_next (s : Session V) (id : Nat) :
    (s.next id).2.traversals.size = s.traversals.size := by
  simp [next, setTraversal]

/-- Every action can be done, and passes each traversal in one of the three ways. -/
theorem Sound.act (h : s.Sound) (a : Action V) :
    ∃ s', s.act a = .ok s' ∧ s'.Sound ∧ ∀ id, id < s.traversals.size →
      id < s'.traversals.size ∧ Passes s s' id (s.yields id a) := by
  have hopened {t : Traversal} {s' : Session V} (heq : s'.traversals = s.traversals.push t)
      (htrie : s'.trie = s.trie) (id : Nat) (hid : id < s.traversals.size) :
      id < s'.traversals.size ∧ Passes s s' id [] := by
    refine ⟨?_, .kept (htrie ▸ .refl _) (traversal_of_push heq hid)⟩
    rw [heq, Array.size_push]
    exact Nat.lt_succ_of_lt hid
  have hnext (other id : Nat) (hid : id < s.traversals.size) :
      id < (s.next other).2.traversals.size ∧
        Passes s (s.next other).2 id (if other = id then (s.next id).1.toList else []) :=
    ⟨(s.size_traversals_next other).symm ▸ hid, h.passes_next hid other⟩
  cases a with
  | insert key value =>
    obtain ⟨replaced, s', hinsert, hs', hsame, hwrote, hheld⟩ := h.insert key value
    refine ⟨s', by rw [Session.act, hinsert]; rfl, hs', fun id hid => ⟨hsame ▸ hid, ?_⟩⟩
    exact .wrote hwrote hheld (by rw [Session.traversal, Session.traversal, hsame])
  | clear => exact ⟨s.clear, rfl, h.clear.1, fun id hid => ⟨hid, .kept h.clear.2 rfl⟩⟩
  | restart sizing entries =>
    obtain ⟨s', hrestart, hs', hsame, hkeeps⟩ := h.restart sizing entries
    refine ⟨s', hrestart, hs', fun id hid => ⟨hsame ▸ hid, .kept hkeeps ?_⟩⟩
    rw [Session.traversal, Session.traversal, hsame]
  | openAll =>
    obtain ⟨s', hopen, hs', htrie, ⟨t, ht⟩, -⟩ := h.openSearch []
    obtain rfl : s' = s.openAll.2 := congrArg Prod.snd (Except.ok.inj hopen.symm)
    exact ⟨_, rfl, hs', hopened ht htrie⟩
  | openSearch stem =>
    obtain ⟨s', hopen, hs', htrie, ⟨t, ht⟩, -⟩ := h.openSearch stem
    exact ⟨s', by rw [Session.act, hopen]; rfl, hs', hopened ht htrie⟩
  | next other => exact ⟨(s.next other).2, rfl, h.next other, hnext other⟩
  | nextValue other =>
    have heq : (s.nextValue other).2 = (s.next other).2 := by rw [h.nextValue_eq]
    exact ⟨(s.next other).2, by rw [Session.act, heq], h.next other, hnext other⟩

/-- What each of several actions keeps, of the session and of all that a traversal
has yielded, the run of them keeps. -/
theorem exists_run_of_act (P : Session V → List (Key × V) → Prop) {actions : List (Action V)}
    (step : ∀ a ∈ actions, ∀ s past, P s past →
      ∃ s', s.act a = .ok s' ∧ P s' (past ++ s.yields id a))
    {past : List (Key × V)} (h : P s past) :
    ∃ s', s.run actions = .ok s' ∧ P s' (past ++ s.given id actions) := by
  induction actions generalizing s past with
  | nil => exact ⟨s, rfl, (List.append_nil past).symm ▸ h⟩
  | cons a rest ih =>
    obtain ⟨hfirst, hrest⟩ := List.forall_mem_cons.mp step
    obtain ⟨s₁, hact, h₁⟩ := hfirst s past h
    obtain ⟨s', hrun, h'⟩ := ih hrest h₁
    refine ⟨s', by rw [Session.run, hact]; exact hrun, ?_⟩
    rw [given, hact, ← List.append_assoc]
    exact h'

theorem Sound.run (h : s.Sound) (actions : List (Action V)) :
    ∃ s', s.run actions = .ok s' ∧ s'.Sound := by
  induction actions generalizing s with
  | nil => exact ⟨s, rfl, h⟩
  | cons a rest ih =>
    obtain ⟨s₁, hact, h₁, -⟩ := h.act a
    obtain ⟨s', hrun, h'⟩ := ih h₁
    exact ⟨s', by rw [Session.run, hact]; exact hrun, h'⟩

/-- Whatever is done, what the root has left behind stays as it is. -/
theorem Sound.act_retires (h : s.Sound) {a : Action V} (hact : s.act a = .ok s') :
    s.trie.store.Retires s'.trie.store := by
  cases a with
  | insert key value =>
    obtain ⟨replaced, s₁, hinsert, -, -, hwrote, -⟩ := h.insert key value
    rw [Session.act, hinsert] at hact
    obtain rfl := Except.ok.inj hact
    exact hwrote.retires h.store
  | clear =>
    obtain rfl := Except.ok.inj hact
    exact .reset _
  | restart sizing entries => exact (Store.Retires.reset _).trans (h.retires_restart hact)
  | openAll | next other | nextValue other =>
    obtain rfl := Except.ok.inj hact
    exact .refl _
  | openSearch stem =>
    obtain ⟨s₁, hopen, -, htrie, -⟩ := h.openSearch stem
    rw [Session.act, hopen] at hact
    obtain rfl := Except.ok.inj hact
    exact htrie ▸ .refl _

theorem Sound.run_retires (h : s.Sound) {actions : List (Action V)}
    (hrun : s.run actions = .ok s') : s.trie.store.Retires s'.trie.store := by
  induction actions generalizing s with
  | nil =>
    obtain rfl := Except.ok.inj hrun
    exact .refl _
  | cons a rest ih =>
    obtain ⟨s₁, hact, h₁, -⟩ := h.act a
    rw [Session.run, hact] at hrun
    exact (h.act_retires hact).trans (ih h₁ hrun)

theorem sound_ofTrie {t : Trie V} {m : Contents V} (h : t.Holds m) : (ofTrie t).Sound :=
  ⟨⟨m, h⟩, fun _ ht => by simp [ofTrie] at ht⟩

end Session

end ByteTrie
