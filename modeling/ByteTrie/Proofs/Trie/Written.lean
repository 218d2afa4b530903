import ByteTrie.Proofs.Store.Compact
import ByteTrie.Proofs.Trie.Contents

/-!
# Tries that writes have left

`Written` says how a trie has come to be: it was empty, then values were stored
in it one at a time, and now and then it was begun anew. Every run of writes
comes down to these steps, so what holds of an empty trie and is kept by one
insertion holds of all tries. What an insertion does is known from its outcome.
-/

namespace ByteTrie

namespace Trie

variable {V : Type}

/-- A trie as writes have left it, and the map that they have left. -/
inductive Written : Trie V → Contents V → Prop
  | empty (sizing : Sizing) : Written (empty sizing) ∅
  | restart {t : Trie V} {m : Contents V} (before : Written t m) (sizing : Sizing) :
      Written (t.restart sizing) ∅
  | insert {t t' : Trie V} {m : Contents V} {key : Key} {value : V} {replaced : Option V}
      (before : Written t m) (inserted : t.insert key value = .ok (replaced, t')) :
      Written t' (m.insert key value)

/-- An insertion into a sound store ends in one of its ways. -/
theorem outcome_of_insert {t t' : Trie V} {key : Key} {value : V} {replaced : Option V}
    (h : t.store.Sound) (hinsert : t.insert key value = .ok (replaced, t')) :
    t'.store.Sound ∧ t.store.Outcome t.sizing key value t'.store := by
  obtain ⟨s', hs', hsound, houtcome⟩ := h.insert_outcome t.sizing key value
  rw [Trie.insert, hs'] at hinsert
  obtain ⟨-, rfl⟩ := Prod.mk.inj (Except.ok.inj hinsert)
  exact ⟨hsound, houtcome⟩

namespace Written

variable {t : Trie V} {m : Contents V}

theorem holds (h : t.Written m) : t.Holds m := by
  induction h with
  | empty sizing => exact holds_empty sizing
  | restart _ sizing ih => exact ih.restart sizing
  | @insert t t' m key value replaced _ hinsert ih =>
    obtain ⟨t'', hinsert', h', -⟩ := ih.insert key value
    obtain ⟨-, rfl⟩ := Prod.mk.inj (Except.ok.inj (hinsert.symm.trans hinsert'))
    exact h'

theorem sound (h : t.Written m) : t.store.Sound := h.holds.sound

/-- No node of a trie is without need. -/
theorem compact (h : t.Written m) : t.store.Compact := by
  induction h with
  | empty => exact Store.compact_empty
  | restart => exact Store.compact_reset _
  | insert before hinsert ih =>
    obtain ⟨hsound, houtcome⟩ := outcome_of_insert before.sound hinsert
    exact houtcome.compact before.sound hsound ih

/-! ### Runs of writes -/

theorem insertEach (h : t.Written m) (entries : List (Key × V)) :
    ∃ answers t', t.insertEach entries = .ok (answers, t') ∧
      t'.Written (Contents.insertEach m entries).2 := by
  induction entries generalizing t m with
  | nil => exact ⟨[], t, rfl, h⟩
  | cons entry rest ih =>
    obtain ⟨key, value⟩ := entry
    obtain ⟨t₁, hinsert, -⟩ := h.holds.insert key value
    obtain ⟨answers, t', hrest, h'⟩ := ih (h.insert hinsert)
    refine ⟨m.lookup key :: answers, t', ?_, h'⟩
    rw [Trie.insertEach, hinsert]
    simp only [bind, Except.bind, hrest]
    rfl

theorem insertMany (h : t.Written m) (entries : List (Key × V)) :
    ∃ t', t.insertMany entries = .ok t' ∧ t'.Written (Contents.insertEach m entries).2 := by
  obtain ⟨answers, t', hinsert, h'⟩ := h.insertEach entries
  exact ⟨t', by rw [Trie.insertMany, hinsert]; rfl, h'⟩

theorem write (h : t.Written m) (w : Write V) :
    ∃ answers t', t.write w = .ok (answers, t') ∧ t'.Written (Contents.write m w).2 := by
  cases w with
  | insert key value =>
    obtain ⟨t', hinsert, -⟩ := h.holds.insert key value
    exact ⟨_, t', by rw [Trie.write, hinsert]; rfl, h.insert hinsert⟩
  | insertEach entries => exact h.insertEach entries
  | clear => exact ⟨[], t.clear, rfl, h.restart t.sizing⟩
  | restart sizing entries =>
    obtain ⟨t', hinsert, h'⟩ := (h.restart sizing).insertMany entries
    exact ⟨[], t', by rw [Trie.write, hinsert]; rfl, h'⟩

theorem run (h : t.Written m) (writes : List (Write V)) :
    ∃ answers t', t.run writes = .ok (answers, t') ∧ t'.Written (Contents.run m writes).2 := by
  induction writes generalizing t m with
  | nil => exact ⟨[], t, rfl, h⟩
  | cons w rest ih =>
    obtain ⟨answer, t₁, hwrite, h₁⟩ := h.write w
    obtain ⟨later, t', hrest, h'⟩ := ih h₁
    refine ⟨answer :: later, t', ?_, h'⟩
    rw [Trie.run, hwrite]
    simp only [bind, Except.bind, hrest]
    rfl

end Written

/-- Whatever is done to a trie, it is one that writes have left. -/
theorem exists_written (sizing : Sizing) (entries : List (Key × V)) (writes : List (Write V)) :
    ∃ start answers t, Trie.ofList sizing entries = .ok start ∧
      start.run writes = .ok (answers, t) ∧ t.Written ((Contents.ofList entries).run writes).2 := by
  obtain ⟨start, hstart, hwritten⟩ := (Written.empty sizing).insertMany entries
  obtain ⟨answers, t, hrun, h⟩ := hwritten.run writes
  exact ⟨start, answers, t, hstart, hrun, h⟩

theorem written_of_run {start : Trie V} {sizing : Sizing} {entries : List (Key × V)}
    {writes : List (Write V)} {answers : List (List (Option V))}
    (hstart : Trie.ofList sizing entries = .ok start) (hrun : start.run writes = .ok (answers, t)) :
    t.Written ((Contents.ofList entries).run writes).2 := by
  obtain ⟨start', answers', t', hstart', hrun', h⟩ := exists_written sizing entries writes
  cases hstart.symm.trans hstart'
  cases hrun.symm.trans hrun'
  exact h

end Trie

end ByteTrie
