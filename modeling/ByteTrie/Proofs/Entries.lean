import ByteTrie.Proofs.Key.Order
import Mathlib.Data.List.Forall2
import Mathlib.Data.List.Sort

/-!
# Entries in the order of their keys

What is stored below a node, and what is to come from a traversal, is a list of
entries in strictly ascending order of their keys. A write under a key may put
an entry into such a list and may not touch any other; `Takes` says so without
speaking of places in the list, so that it can be shown of the pieces of a list
one after the other. For ascending lists it comes down to `put`.
-/

namespace ByteTrie

namespace Entries

variable {V : Type}

/-- The keys of the entries are strictly ascending. -/
def Ascending (entries : List (Key × V)) : Prop := entries.Pairwise fun a b => a.1 < b.1

/-- Entries in ascending order with one more among them, or with a new value for
a key that is there. -/
def put (key : Key) (value : V) : List (Key × V) → List (Key × V)
  | [] => [(key, value)]
  | (other, held) :: rest =>
      if key < other then (key, value) :: (other, held) :: rest
      else if key = other then (key, value) :: rest
      else (other, held) :: put key value rest

/-- The entries under other keys. -/
def without (key : Key) (entries : List (Key × V)) : List (Key × V) :=
  entries.filter fun entry => entry.1 ≠ key

/-- Either nothing has changed, or the entry is there and nothing has changed
under any other key. -/
def Takes (key : Key) (value : V) (before after : List (Key × V)) : Prop :=
  after = before ∨ (key, value) ∈ after ∧ without key after = without key before

/-- The entry has come in somewhere, and nothing else has changed. -/
def Inserts (key : Key) (value : V) (before after : List (Key × V)) : Prop :=
  ∃ front back, before = front ++ back ∧ after = front ++ (key, value) :: back

theorem mem_without {key : Key} {entries : List (Key × V)} {entry : Key × V} :
    entry ∈ without key entries ↔ entry ∈ entries ∧ entry.1 ≠ key := by
  simp [without]

/-- Entries under greater keys are none under the key. -/
theorem without_eq_self {key : Key} {entries : List (Key × V)}
    (h : ∀ entry ∈ entries, key < entry.1) : without key entries = entries := by
  apply List.filter_eq_self.mpr
  intro entry hentry
  have hne : entry.1 ≠ key := fun heq => List.lt_irrefl key (heq ▸ h entry hentry)
  simpa using hne

theorem without_cons_self (key : Key) (value : V) (entries : List (Key × V)) :
    without key ((key, value) :: entries) = without key entries :=
  List.filter_cons_of_neg (by simp)

theorem without_cons_of_ne {key : Key} {entry : Key × V} (h : entry.1 ≠ key)
    (entries : List (Key × V)) : without key (entry :: entries) = entry :: without key entries :=
  List.filter_cons_of_pos (by simpa using h)

theorem without_append (key : Key) (a b : List (Key × V)) :
    without key (a ++ b) = without key a ++ without key b := List.filter_append a b

@[simp] theorem without_singleton (key : Key) (value : V) : without key [(key, value)] = [] := by
  simp [without]

namespace Takes

variable {key : Key} {value : V}

theorem refl (entries : List (Key × V)) : Takes key value entries entries := Or.inl rfl

theorem without_eq {before after : List (Key × V)} (h : Takes key value before after) :
    without key after = without key before := by
  rcases h with rfl | ⟨-, h⟩
  · rfl
  · exact h

theorem trans {a b c : List (Key × V)} (hab : Takes key value a b) (hbc : Takes key value b c) :
    Takes key value a c := by
  rcases hbc with rfl | ⟨hmem, hbc⟩
  · exact hab
  · exact Or.inr ⟨hmem, hbc.trans hab.without_eq⟩

theorem mem {before after : List (Key × V)} (h : Takes key value before after)
    (hmem : (key, value) ∈ before) : (key, value) ∈ after := by
  rcases h with rfl | ⟨h, -⟩
  · exact hmem
  · exact h

theorem append {a a' b b' : List (Key × V)} (ha : Takes key value a a')
    (hb : Takes key value b b') : Takes key value (a ++ b) (a' ++ b') := by
  have hwithout : without key (a' ++ b') = without key (a ++ b) := by
    rw [without_append, without_append, ha.without_eq, hb.without_eq]
  rcases ha with rfl | ⟨hmem, -⟩
  · rcases hb with rfl | ⟨hmem, -⟩
    · exact refl _
    · exact Or.inr ⟨List.mem_append_right _ hmem, hwithout⟩
  · exact Or.inr ⟨List.mem_append_left _ hmem, hwithout⟩

/-- Entries that are gathered piece by piece take what the pieces take. -/
theorem flatMap {α β : Type} {f : α → List (Key × V)} {g : β → List (Key × V)} {as : List α}
    {bs : List β} (h : List.Forall₂ (fun a b => Takes key value (f a) (g b)) as bs) :
    Takes key value (as.flatMap f) (bs.flatMap g) := by
  induction h with
  | nil => exact refl []
  | cons hab _ ih =>
    rw [List.flatMap_cons, List.flatMap_cons]
    exact hab.append ih

/-- Whatever is added is the entry itself. -/
theorem of_forall_eq {α : Type} {f : α → List (Key × V)} {as : List α}
    (h : ∀ a ∈ as, f a = [(key, value)]) : Takes key value [] (as.flatMap f) := by
  induction as with
  | nil => exact refl []
  | cons a as ih =>
    have head : Takes key value [] (f a) := by
      rw [h a List.mem_cons_self]
      exact Or.inr ⟨List.mem_singleton_self _, without_singleton key value⟩
    rw [List.flatMap_cons]
    exact head.append (ih fun b hb => h b (List.mem_cons_of_mem a hb))

end Takes

namespace Inserts

variable {key : Key} {value : V} {before after : List (Key × V)}

theorem mem (h : Inserts key value before after) : (key, value) ∈ after := by
  obtain ⟨front, back, -, rfl⟩ := h
  exact List.mem_append_right _ List.mem_cons_self

theorem takes (h : Inserts key value before after) : Takes key value before after := by
  refine Or.inr ⟨h.mem, ?_⟩
  obtain ⟨front, back, rfl, rfl⟩ := h
  rw [without_append, without_append, without_cons_self]

end Inserts

namespace Ascending

/-- What is below the first key is below all of them. -/
theorem forall_lt {key : Key} {first : Key × V} {rest : List (Key × V)}
    (h : Ascending (first :: rest)) (hlt : key < first.1) :
    ∀ entry ∈ first :: rest, key < entry.1 := by
  intro entry hentry
  rcases List.mem_cons.mp hentry with rfl | hrest
  · exact hlt
  · exact List.lt_trans hlt ((List.pairwise_cons.mp h).1 entry hrest)

theorem eq_of_mem_iff {a b : List (Key × V)} (ha : Ascending a) (hb : Ascending b)
    (h : ∀ entry, entry ∈ a ↔ entry ∈ b) : a = b := by
  have irrefl : Std.Irrefl fun a b : Key × V => a.1 < b.1 := ⟨fun a => List.lt_irrefl a.1⟩
  have antisymm : Std.Antisymm fun a b : Key × V => a.1 < b.1 :=
    ⟨fun _ _ hab hba => absurd hba (List.lt_asymm hab)⟩
  exact List.Pairwise.eq_of_mem_iff ha hb h

/-- No key comes twice. -/
theorem nodup_map_fst {entries : List (Key × V)} (h : Ascending entries) :
    (entries.map Prod.fst).Nodup := by
  refine List.pairwise_map.mpr (h.imp fun {a b} hlt heq => ?_)
  rw [heq] at hlt
  exact List.lt_irrefl _ hlt

theorem value_unique {entries : List (Key × V)} (h : Ascending entries) {key : Key} {v w : V}
    (hv : (key, v) ∈ entries) (hw : (key, w) ∈ entries) : v = w := by
  induction entries with
  | nil => cases hv
  | cons entry rest ih =>
    obtain ⟨below, rest_ascending⟩ := List.pairwise_cons.mp h
    rcases List.mem_cons.mp hv with rfl | later
    · rcases List.mem_cons.mp hw with heq | hw
      · exact (congrArg Prod.snd heq).symm
      · exact (List.lt_irrefl key (below (key, w) hw)).elim
    · rcases List.mem_cons.mp hw with rfl | hw
      · exact (List.lt_irrefl key (below (key, v) later)).elim
      · exact ih rest_ascending later hw

theorem mem_iff_lookup_eq_some {entries : List (Key × V)} (h : Ascending entries) {key : Key}
    {value : V} : (key, value) ∈ entries ↔ entries.lookup key = some value := by
  induction entries with
  | nil => simp
  | cons entry rest ih =>
    obtain ⟨other, held⟩ := entry
    obtain ⟨below, rest_ascending⟩ := List.pairwise_cons.mp h
    rw [List.mem_cons, List.lookup_cons]
    by_cases same : key = other
    · subst same
      have absent : (key, value) ∉ rest := fun hmem => List.lt_irrefl key (below (key, value) hmem)
      simp [absent, eq_comm]
    · have differs : (key == other) = false := by simpa using same
      simp only [differs]
      rw [← ih rest_ascending]
      simp [same]

end Ascending

theorem mem_put {key : Key} {value : V} {entries : List (Key × V)} (h : Ascending entries)
    {entry : Key × V} :
    entry ∈ put key value entries ↔ entry = (key, value) ∨ entry ∈ without key entries := by
  induction entries with
  | nil => simp [put, without]
  | cons first rest ih =>
    obtain ⟨other, held⟩ := first
    obtain ⟨below, rest_ascending⟩ := List.pairwise_cons.mp h
    rw [put]
    split
    · rename_i hlt
      rw [without_eq_self (h.forall_lt hlt), List.mem_cons]
    · split
      · rename_i heq
        subst heq
        rw [without_cons_self, without_eq_self below, List.mem_cons]
      · rename_i hne
        rw [without_cons_of_ne (Ne.symm hne), List.mem_cons, List.mem_cons, ih rest_ascending]
        exact or_left_comm

theorem ascending_put {key : Key} {value : V} {entries : List (Key × V)} (h : Ascending entries) :
    Ascending (put key value entries) := by
  induction entries with
  | nil => exact List.pairwise_singleton _ _
  | cons first rest ih =>
    obtain ⟨other, held⟩ := first
    obtain ⟨below, rest_ascending⟩ := List.pairwise_cons.mp h
    rw [put]
    split
    · rename_i hlt
      exact List.pairwise_cons.mpr ⟨h.forall_lt hlt, h⟩
    · split
      · rename_i heq
        exact List.pairwise_cons.mpr ⟨fun e he => heq ▸ below e he, rest_ascending⟩
      · rename_i hnlt hne
        refine List.pairwise_cons.mpr ⟨?_, ih rest_ascending⟩
        intro e he
        rcases (mem_put rest_ascending).mp he with rfl | he
        · rcases List.le_iff_lt_or_eq.mp (List.not_lt.mp hnlt) with hlt | heq
          · exact hlt
          · exact absurd heq.symm hne
        · exact below e (mem_without.mp he).1

theorem eq_put {key : Key} {value : V} {before after : List (Key × V)} (hb : Ascending before)
    (ha : Ascending after) (hmem : (key, value) ∈ after)
    (hwithout : without key after = without key before) : after = put key value before := by
  refine ha.eq_of_mem_iff (ascending_put hb) ?_
  rintro ⟨other, held⟩
  rw [mem_put hb, ← hwithout, mem_without]
  constructor
  · intro h
    by_cases heq : other = key
    · subst heq
      exact Or.inl (by rw [ha.value_unique h hmem])
    · exact Or.inr ⟨h, heq⟩
  · rintro (heq | h)
    · exact heq ▸ hmem
    · exact h.1

theorem Takes.eq_or_eq_put {key : Key} {value : V} {before after : List (Key × V)}
    (h : Takes key value before after) (hb : Ascending before) (ha : Ascending after) :
    after = before ∨ after = put key value before := by
  rcases h with h | ⟨hmem, hwithout⟩
  · exact Or.inl h
  · exact Or.inr (eq_put hb ha hmem hwithout)

theorem lookup_put {key : Key} {value : V} {entries : List (Key × V)} (h : Ascending entries)
    (other : Key) :
    (put key value entries).lookup other =
      if other = key then some value else entries.lookup other := by
  apply Option.ext
  intro held
  rw [← (ascending_put h).mem_iff_lookup_eq_some, mem_put h, mem_without]
  by_cases heq : other = key
  · simp [heq, eq_comm]
  · simp [heq, h.mem_iff_lookup_eq_some]

end Entries

end ByteTrie
