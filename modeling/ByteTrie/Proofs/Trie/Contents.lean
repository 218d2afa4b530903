import ByteTrie.Proofs.Store.Insertion
import ByteTrie.Proofs.Store.Retirement
import ByteTrie.Trie.Writes
import Mathlib.Data.Finmap

/-!
# The contents of a trie

A trie stands for a finite map from keys to values. Every write to the trie is a
step of that map as well, and answers what the map does; after any number of
writes a look-up answers what the map holds. Nothing is assumed of the writes:
they all succeed.
-/

namespace ByteTrie

/-- The finite map that a trie stands for. -/
abbrev Contents (V : Type) := Finmap fun _ : Key => V

variable {V : Type}

namespace Contents

/-- Store several values one after the other, and say what each replaces. -/
def insertEach (m : Contents V) : List (Key × V) → List (Option V) × Contents V
  | [] => ([], m)
  | (key, value) :: rest =>
      let (later, after) := insertEach (m.insert key value) rest
      (m.lookup key :: later, after)

/-- The map of the given entries, in which the last one for a key counts. -/
def ofList (entries : List (Key × V)) : Contents V := (insertEach ∅ entries).2

/-- What a write answers, and the map behind it. -/
def write (m : Contents V) : Write V → List (Option V) × Contents V
  | .insert key value => ([m.lookup key], m.insert key value)
  | .insertEach entries => insertEach m entries
  | .clear => ([], ∅)
  | .restart _ entries => ([], ofList entries)

/-- What the writes of a run answer, and the map behind them. -/
def run (m : Contents V) : List (Write V) → List (List (Option V)) × Contents V
  | [] => ([], m)
  | w :: rest =>
      let (answer, m) := write m w
      let (later, m) := run m rest
      (answer :: later, m)

theorem lookup_insert (m : Contents V) (key : Key) (value : V) (other : Key) :
    (m.insert key value).lookup other = if other = key then some value else m.lookup other := by
  split
  · rename_i heq
    rw [heq, Finmap.lookup_insert]
  · rename_i hne
    exact Finmap.lookup_insert_of_ne m hne

theorem lookup_insertEach (m : Contents V) (entries : List (Key × V)) (key : Key) :
    (insertEach m entries).2.lookup key =
      (entries.reverse.lookup key).or (m.lookup key) := by
  induction entries generalizing m with
  | nil => rfl
  | cons entry rest ih =>
    obtain ⟨other, value⟩ := entry
    have hcons : (insertEach m ((other, value) :: rest)).2 =
        (insertEach (m.insert other value) rest).2 := rfl
    rw [hcons, ih, lookup_insert, List.reverse_cons, List.lookup_append]
    cases hlast : rest.reverse.lookup key with
    | some held => rfl
    | none =>
      by_cases heq : key = other
      · simp [heq]
      · have hbeq : (key == other) = false := beq_false_of_ne heq
        simp [List.lookup_cons, heq, hbeq]

end Contents

namespace Trie

/-- A trie is sound, and what its root lists is what a map holds. -/
structure Holds (t : Trie V) (m : Contents V) : Prop where
  sound : t.store.Sound
  lookup : ∀ key, (t.store.itemsBelow t.store.root).lookup key = m.lookup key

namespace Holds

variable {t : Trie V} {m : Contents V}

theorem lookup_eq (h : t.Holds m) (key : Key) : t.lookup key = .ok (m.lookup key) := by
  rw [Trie.lookup, h.sound.lookup_eq, h.lookup]

theorem contains_eq (h : t.Holds m) (key : Key) : t.contains key = .ok (m.lookup key).isSome := by
  rw [Trie.contains, h.lookup_eq]
  rfl

theorem contains_iff_mem (h : t.Holds m) (key : Key) : t.contains key = .ok true ↔ key ∈ m := by
  rw [h.contains_eq, Except.ok.injEq, Finmap.lookup_isSome]

/-- Tries that answer alike hold the same map. -/
theorem eq_of_lookup_eq (h : t.Holds m) {t' : Trie V} {m' : Contents V} (h' : t'.Holds m')
    (hlookup : ∀ key, t.lookup key = t'.lookup key) : m = m' := by
  refine Finmap.ext_lookup fun key => ?_
  have hkey := hlookup key
  rw [h.lookup_eq, h'.lookup_eq] at hkey
  exact Except.ok.inj hkey

/-- The entries that the root lists are those of the map. -/
theorem mem_itemsBelow (h : t.Holds m) {key : Key} {value : V} :
    (key, value) ∈ t.store.itemsBelow t.store.root ↔ m.lookup key = some value := by
  rw [(h.sound.ascending_itemsBelow h.sound.has_root).mem_iff_lookup_eq_some, h.lookup]

/-- An insertion is a step of the map. -/
theorem insert (h : t.Holds m) (key : Key) (value : V) :
    ∃ t', t.insert key value = .ok (m.lookup key, t') ∧ t'.Holds (m.insert key value) ∧
      Store.Wrote key value t.store t'.store := by
  obtain ⟨s', hinsert, hs', hwrote, hmem⟩ := h.sound.insert t.sizing key value
  refine ⟨⟨s', t.sizing⟩, ?_, ⟨hs', fun other => ?_⟩, hwrote⟩
  · rw [Trie.insert, hinsert, ← h.lookup]
    rfl
  have hbefore := h.sound.ascending_itemsBelow h.sound.has_root
  have htakes := hwrote.takes_root h.sound hs'
  rw [Entries.eq_put hbefore (hs'.ascending_itemsBelow hs'.has_root) hmem htakes.without_eq,
    Entries.lookup_put hbefore, h.lookup, Contents.lookup_insert]

theorem insertEach (h : t.Holds m) (entries : List (Key × V)) :
    ∃ t', t.insertEach entries = .ok ((Contents.insertEach m entries).1, t') ∧
      t'.Holds (Contents.insertEach m entries).2 ∧ t.store.Retires t'.store := by
  induction entries generalizing t m with
  | nil => exact ⟨t, rfl, h, .refl _⟩
  | cons entry rest ih =>
    obtain ⟨key, value⟩ := entry
    obtain ⟨t', hinsert, h', hwrote⟩ := h.insert key value
    obtain ⟨t'', hrest, h'', hretires⟩ := ih h'
    refine ⟨t'', ?_, h'', (hwrote.retires h.sound).trans hretires⟩
    rw [Trie.insertEach, hinsert]
    simp only [bind, Except.bind, hrest]
    rfl

theorem insertMany (h : t.Holds m) (entries : List (Key × V)) :
    ∃ t', t.insertMany entries = .ok t' ∧ t'.Holds (Contents.insertEach m entries).2 ∧
      t.store.Retires t'.store := by
  obtain ⟨t', hinsert, h', hretires⟩ := h.insertEach entries
  exact ⟨t', by rw [Trie.insertMany, hinsert]; rfl, h', hretires⟩

theorem restart (h : t.Holds m) (sizing : Sizing) : (t.restart sizing).Holds ∅ :=
  ⟨h.sound.reset, fun key => by
    rw [Trie.restart, h.sound.itemsBelow_root_reset, Finmap.lookup_empty]
    rfl⟩

/-- Every write is a step of the map. -/
theorem write (h : t.Holds m) (w : Write V) :
    ∃ t', t.write w = .ok ((Contents.write m w).1, t') ∧ t'.Holds (Contents.write m w).2 ∧
      t.store.Retires t'.store := by
  cases w with
  | insert key value =>
    obtain ⟨t', hinsert, h', hwrote⟩ := h.insert key value
    exact ⟨t', by rw [Trie.write, hinsert]; rfl, h', hwrote.retires h.sound⟩
  | insertEach entries => exact h.insertEach entries
  | clear => exact ⟨t.clear, rfl, h.restart t.sizing, .reset t.store⟩
  | restart sizing entries =>
    obtain ⟨t', hinsert, h', hretires⟩ := (h.restart sizing).insertMany entries
    exact ⟨t', by rw [Trie.write, hinsert]; rfl, h', (Store.Retires.reset t.store).trans hretires⟩

/-- Every run of writes is one of the map. -/
theorem run (h : t.Holds m) (writes : List (Write V)) :
    ∃ t', t.run writes = .ok ((Contents.run m writes).1, t') ∧ t'.Holds (Contents.run m writes).2 ∧
      t.store.Retires t'.store := by
  induction writes generalizing t m with
  | nil => exact ⟨t, rfl, h, .refl _⟩
  | cons w rest ih =>
    obtain ⟨t', hwrite, h', hretires⟩ := h.write w
    obtain ⟨t'', hrest, h'', hretires'⟩ := ih h'
    refine ⟨t'', ?_, h'', hretires.trans hretires'⟩
    rw [Trie.run, hwrite]
    simp only [bind, Except.bind, hrest]
    rfl

end Holds

theorem holds_empty (sizing : Sizing) : (Trie.empty sizing : Trie V).Holds ∅ := by
  refine ⟨Store.sound_empty, fun key => ?_⟩
  rw [Finmap.lookup_empty]
  rfl

theorem holds_ofList (sizing : Sizing) (entries : List (Key × V)) :
    ∃ t, Trie.ofList sizing entries = .ok t ∧ t.Holds (Contents.ofList entries) := by
  obtain ⟨t, hinsert, h, -⟩ := (holds_empty sizing).insertMany entries
  exact ⟨t, hinsert, h⟩

/-- A trie is a finite map, whatever is done to it: each insertion answers what
the map held, look-ups answer what it holds, and when several values are stored
under one key the last one counts. -/
theorem run_refines (sizing : Sizing) (entries : List (Key × V)) (writes : List (Write V)) :
    ∃ start answers t m, Trie.ofList sizing entries = .ok start ∧
      start.run writes = .ok (answers, t) ∧
      (Contents.ofList entries).run writes = (answers, m) ∧
      (∀ key, start.lookup key = .ok (entries.reverse.lookup key)) ∧
      (∀ key, t.lookup key = .ok (m.lookup key) ∧ t.contains key = .ok (m.lookup key).isSome) ∧
      ∀ more, ∃ t', t.insertMany more = .ok t' ∧
        ∀ key, t'.lookup key = .ok ((more.reverse.lookup key).or (m.lookup key)) := by
  obtain ⟨start, hstart, hholds⟩ := holds_ofList sizing entries
  obtain ⟨t, hrun, h, -⟩ := hholds.run writes
  refine ⟨start, _, t, _, hstart, hrun, rfl, fun key => ?_, fun key => ?_, fun more => ?_⟩
  · rw [hholds.lookup_eq, Contents.ofList, Contents.lookup_insertEach, Finmap.lookup_empty,
      Option.or_none]
  · exact ⟨h.lookup_eq key, h.contains_eq key⟩
  · obtain ⟨t', hmore, h', -⟩ := h.insertMany more
    exact ⟨t', hmore, fun key => by rw [h'.lookup_eq, Contents.lookup_insertEach]⟩

end Trie

end ByteTrie
