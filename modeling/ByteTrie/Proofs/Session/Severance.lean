import ByteTrie.Proofs.Interleaving
import ByteTrie.Proofs.Session.Operations

/-!
# Traversals of a trie that has been taken away

When a trie is cleared or begun anew, the root leaves behind all nodes and rows
there were, and none of them is written to again. A traversal that was open then
names no others, and comes to no others on its steps. So it yields what it would
have yielded at that moment, whatever is written meanwhile and under whatever
keys.
-/

namespace ByteTrie

variable {V : Type}

/-- The ways to take all entries away. -/
inductive Renewal (V : Type) where
  | clear
  | restart (sizing : Sizing) (entries : List (Key × V))

def Renewal.action : Renewal V → Action V
  | .clear => .clear
  | .restart sizing entries => .restart sizing entries

namespace Session

variable {s s' : Session V} {id : Nat} {base : Store V}

/-- An open traversal goes on in a store that the root has left behind. -/
structure Severed (base : Store V) (s : Session V) (id : Nat) : Prop where
  sound : s.Sound
  isOpen : id < s.traversals.size
  abandons : base.Abandons s.trie.store
  traversal : (s.traversal id).Sound base

theorem Sound.abandons_renewal (h : s.Sound) {renewal : Renewal V}
    (hact : s.act renewal.action = .ok s') :
    s.trie.store.Abandons s'.trie.store ∧ s'.traversals = s.traversals := by
  cases renewal with
  | clear =>
    obtain rfl := Except.ok.inj hact
    exact ⟨.reset _, rfl⟩
  | restart sizing entries =>
    refine ⟨(Store.Abandons.reset _).retires (h.retires_restart hact), ?_⟩
    obtain ⟨s₁, hrestart, -, hsame, -⟩ := h.restart sizing entries
    obtain rfl := Except.ok.inj (hrestart.symm.trans hact)
    exact hsame

namespace Severed

theorem rest_eq (h : Severed base s id) (hbase : base.Sound) :
    s.rest id = (s.traversal id).rest base := by
  rw [h.sound.rest_eq]
  exact h.abandons.rest_eq hbase h.sound.store h.traversal

/-- What a severed traversal comes to was there before, and is not in the trie now. -/
theorem not_live_of_mem_ahead (h : Severed base s id) (hbase : base.Sound) {node : NodeId}
    (hnode : node ∈ (s.traversal id).ahead s.trie.store) :
    base.Has node ∧ ¬s.trie.store.Live node := by
  rw [(h.sound.traversal id).ahead_eq h.sound.store] at hnode
  have hhas := h.abandons.has_of_mem_listing hbase h.sound.store h.traversal hnode
  exact ⟨hhas, h.abandons.live node hhas⟩

/-- On its steps a traversal does not leave the store that it was severed with. -/
theorem traversal_of_passes (h : Severed base s id) (hbase : base.Sound) {out : List (Key × V)}
    (hs' : s'.Sound) (hpasses : Passes s s' id out) : (s'.traversal id).Sound base := by
  rcases hpasses.stays_or_steps h.sound hs' with ⟨-, hsame⟩ | ⟨found, -, hadvances, -⟩
  · exact hsame ▸ h.traversal
  · refine hadvances.stepwise (fun t => t.Sound base) Traversal.sound_done ?_ h.traversal
    intro t node t' ht hvisit
    -- The nodes and rows that the traversal names are the same in both stores.
    rw [h.abandons.visit_eq hbase ht] at hvisit
    exact (ht.of_visit hbase hvisit).1

theorem act (h : Severed base s id) (hbase : base.Sound) (a : Action V) :
    ∃ s', s.act a = .ok s' ∧ Severed base s' id ∧ s.yields id a ++ s'.rest id = s.rest id := by
  obtain ⟨s', hact, hs', hall⟩ := h.sound.act a
  obtain ⟨hopen, hpasses⟩ := hall id h.isOpen
  have hsevered : Severed base s' id := ⟨hs', hopen,
    h.abandons.retires (h.sound.act_retires hact), h.traversal_of_passes hbase hs' hpasses⟩
  refine ⟨s', hact, hsevered, ?_⟩
  rcases hpasses.stays_or_steps h.sound hs' with ⟨hout, hsame⟩ | ⟨found, -, -, hrest⟩
  · rw [hout, List.nil_append, hsevered.rest_eq hbase, hsame, h.rest_eq hbase]
  · exact hrest

/-- Whatever is done, a severed traversal yields what it had to come. -/
theorem run (h : Severed base s id) (hbase : base.Sound) (actions : List (Action V)) :
    ∃ s', s.run actions = .ok s' ∧ Severed base s' id ∧
      s.given id actions ++ s'.rest id = s.rest id := by
  have hstart : Severed base s id ∧ [] ++ s.rest id = s.rest id := ⟨h, rfl⟩
  refine exists_run_of_act (fun s' past => Severed base s' id ∧ past ++ s'.rest id = s.rest id)
    ?_ hstart
  rintro a - s₁ past ⟨h₁, hpast⟩
  obtain ⟨s₂, hact, h₂, hyields⟩ := h₁.act hbase a
  exact ⟨s₂, hact, h₂, by rw [List.append_assoc, hyields, hpast]⟩

end Severed

/-- Once a trie has been cleared or begun anew, all traversals that were open
yield what they would have yielded at that moment, whatever is done meanwhile:
the nodes to come are none of the trie's. -/
theorem run_severed (sizing : Sizing) (entries : List (Key × V)) (before : List (Operation V))
    (renewal : Renewal V) (after : List (Action V)) :
    ∃ start answers s₀ s₁ s, Trie.ofList sizing entries = .ok start ∧
      (ofTrie start).performAll before = .ok (answers, s₀) ∧
      s₀.act renewal.action = .ok s₁ ∧ s₁.run after = .ok s ∧
      s₀.trie.store.Abandons s.trie.store ∧
      ∀ id < s₀.traversals.size,
        s₁.given id after ++ s.rest id = (s₀.drain id).1 ∧
        (∀ node ∈ (s.traversal id).ahead s.trie.store,
          s₀.trie.store.Has node ∧ ¬s.trie.store.Live node) ∧
        s.Undisturbed id := by
  obtain ⟨start, answers, s₀, hstart, hbefore, h₀⟩ := exists_performAll sizing entries before
  obtain ⟨s₁, hact, h₁, -⟩ := h₀.act renewal.action
  obtain ⟨habandons, hsame⟩ := h₀.abandons_renewal hact
  obtain ⟨s, hafter, h⟩ := h₁.run after
  refine ⟨start, answers, s₀, s₁, s, hstart, hbefore, hact, hafter,
    habandons.retires (h₁.run_retires hafter), fun id hid => ?_⟩
  have htraversal : s₁.traversal id = s₀.traversal id := by
    rw [Session.traversal, Session.traversal, hsame]
  have hsevered : Severed s₀.trie.store s₁ id :=
    ⟨h₁, hsame ▸ hid, habandons, htraversal ▸ h₀.traversal id⟩
  obtain ⟨s', hrun, h', hgiven⟩ := hsevered.run h₀.store after
  obtain rfl := Except.ok.inj (hrun.symm.trans hafter)
  refine ⟨?_, fun node => h'.not_live_of_mem_ahead h₀.store, h.undisturbed h'.isOpen⟩
  rw [hgiven, hsevered.rest_eq h₀.store, htraversal, ← h₀.rest_eq]
  rfl

end Session

end ByteTrie
