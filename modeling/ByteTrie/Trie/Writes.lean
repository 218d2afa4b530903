import ByteTrie.Trie.Basic

/-!
# Writes to a trie

All that changes a trie is a write: a value is stored, several are, or the trie is
cleared or begun anew. A run of writes answers what each of its insertions replaces.
-/

namespace ByteTrie

/-- What can be done to change a trie. -/
inductive Write (V : Type) where
  | insert (key : Key) (value : V)
  | insertEach (entries : List (Key × V))
  | clear
  | restart (sizing : Sizing) (entries : List (Key × V))

variable {V : Type}

/-- The way of sizing that a write chooses, if it chooses one. -/
def Write.sizing? : Write V → Option Sizing
  | .restart sizing _ => some sizing
  | _ => none

namespace Trie

/-- Change a trie, and say what each insertion replaces. -/
def write (t : Trie V) : Write V → Except Fault (List (Option V) × Trie V)
  | .insert key value => (t.insert key value).map fun (replaced, t) => ([replaced], t)
  | .insertEach entries => t.insertEach entries
  | .clear => .ok ([], t.clear)
  | .restart sizing entries => ((t.restart sizing).insertMany entries).map fun t => ([], t)

/-- Change a trie several times. -/
def run (t : Trie V) : List (Write V) → Except Fault (List (List (Option V)) × Trie V)
  | [] => .ok ([], t)
  | w :: rest => do
      let (answer, t) ← t.write w
      let (later, t) ← t.run rest
      return (answer :: later, t)

variable {t t' : Trie V}

theorem sizing_write {w : Write V} {answers : List (Option V)}
    (h : t.write w = .ok (answers, t')) : t'.sizing = w.sizing?.getD t.sizing := by
  cases w with
  | insert key value =>
    obtain ⟨_, hinsert, hanswer⟩ := exists_of_map_eq_ok h
    cases hanswer
    exact sizing_insert hinsert
  | insertEach entries => exact sizing_insertEach h
  | clear =>
    cases h
    rfl
  | restart sizing entries =>
    obtain ⟨_, hinsert, hanswer⟩ := exists_of_map_eq_ok h
    cases hanswer
    exact sizing_insertMany hinsert

/-- A trie sizes its rows in the way that was chosen last. -/
theorem sizing_run {writes : List (Write V)} {answers : List (List (Option V))}
    (h : t.run writes = .ok (answers, t')) :
    t'.sizing = (writes.filterMap Write.sizing?).getLastD t.sizing := by
  induction writes generalizing t answers with
  | nil =>
    cases h
    rfl
  | cons w rest ih =>
    obtain ⟨⟨answer, t₁⟩, hwrite, h⟩ := exists_of_bind_eq_ok h
    obtain ⟨⟨later, t₂⟩, hrest, h⟩ := exists_of_bind_eq_ok h
    cases h
    rw [ih hrest, sizing_write hwrite, List.filterMap_cons]
    cases w.sizing? with
    | none => rfl
    | some sizing => exact List.getLastD_cons.symm

theorem sizing_run_of_ofList {start : Trie V} {sizing : Sizing} {entries : List (Key × V)}
    {writes : List (Write V)} {answers : List (List (Option V))}
    (hstart : Trie.ofList sizing entries = .ok start) (hrun : start.run writes = .ok (answers, t)) :
    t.sizing = (writes.filterMap Write.sizing?).getLastD sizing := by
  rw [sizing_run hrun, sizing_insertMany hstart]
  rfl

end Trie

end ByteTrie
