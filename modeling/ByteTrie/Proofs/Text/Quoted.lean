import ByteTrie.Text.Quoted
import Mathlib.Data.List.Basic

/-!
# Reading back escaped text

What stands for a character in quotes tells which character it is and where it ends: a
letter behind a backslash, a number in braces behind a backslash and a `u`, or the
character itself, which then is no backslash. Which characters are escaped by their
number is of no importance, so two texts are equal when they are the same in quotes, even
if other characters were escaped in the one than in the other. Bytes in brackets are
read back two digits at a time.
-/

namespace ByteTrie

namespace Hex

theorem digitChar_inj {m n : Nat} (hm : m < 16) (hn : n < 16)
    (h : Nat.digitChar m = Nat.digitChar n) : m = n := by
  have hall : ∀ i j : Fin 16, Nat.digitChar i = Nat.digitChar j → i = j := by decide
  exact congrArg Fin.val (hall ⟨m, hm⟩ ⟨n, hn⟩ h)

theorem number_eq (n : Nat) :
    number n = if n < 16 then [Nat.digitChar n] else number (n / 16) ++ [Nat.digitChar (n % 16)] :=
  Nat.toDigits_eq_if (by decide)

theorem number_ne_nil (n : Nat) : number n ≠ [] := Nat.toDigits_ne_nil

/-- Digits tell their number: the last one the remainder, those before it the quotient. -/
theorem number_inj {m n : Nat} (h : number m = number n) : m = n := by
  induction m using Nat.strongRecOn generalizing n with
  | ind m ih =>
    rw [number_eq m, number_eq n] at h
    split_ifs at h with hm hn hn
    · exact digitChar_inj hm hn (List.cons.inj h).1
    · exact absurd (List.append_eq_singleton_iff.1 h.symm) (by simp [number_ne_nil])
    · exact absurd (List.append_eq_singleton_iff.1 h) (by simp [number_ne_nil])
    · obtain ⟨hdiv, hmod⟩ := List.append_inj' h rfl
      have := ih (m / 16) (by omega) hdiv
      have := digitChar_inj (m.mod_lt (by decide)) (n.mod_lt (by decide)) (List.cons.inj hmod).1
      omega

/-- A closing brace is no digit. -/
theorem brace_notMem_number (n : Nat) : '\x7d' ∉ number n := by
  induction n using Nat.strongRecOn with
  | ind n ih =>
    rw [number_eq]
    split_ifs with h
    · simp
    · simpa using ih _ (by omega)

theorem byte_inj {b c : UInt8} (h : byte b = byte c) : b = c := by
  obtain ⟨hdiv, hmod, -⟩ : Nat.digitChar (b.toNat / 16) = Nat.digitChar (c.toNat / 16) ∧
      Nat.digitChar (b.toNat % 16) = Nat.digitChar (c.toNat % 16) ∧ True := by
    simpa [byte] using h
  have := digitChar_inj (by have := b.toNat_lt; omega) (by have := c.toNat_lt; omega) hdiv
  have := digitChar_inj (b.toNat.mod_lt (by decide)) (c.toNat.mod_lt (by decide)) hmod
  exact UInt8.toNat_inj.1 (by omega)

theorem intercalate_byte_cons (b c : UInt8) (bs : List UInt8) :
    [' '].intercalate ((b :: c :: bs).map byte) =
      byte b ++ ' ' :: [' '].intercalate ((c :: bs).map byte) := by
  simp [List.intercalate]

theorem length_intercalate_byte :
    ∀ bs : List UInt8, ([' '].intercalate (bs.map byte)).length = 3 * bs.length - 1
  | [] => rfl
  | [_] => rfl
  | b :: c :: bs => by
    rw [intercalate_byte_cons, List.length_append, List.length_cons, length_byte,
      length_intercalate_byte (c :: bs)]
    simp only [List.length_cons]
    omega

theorem intercalate_byte_inj {bs cs : List UInt8}
    (h : [' '].intercalate (bs.map byte) = [' '].intercalate (cs.map byte)) : bs = cs := by
  have hlength := congrArg List.length h
  rw [length_intercalate_byte, length_intercalate_byte] at hlength
  induction bs generalizing cs with
  | nil => exact (List.length_eq_zero_iff.1 (by rw [List.length_nil] at hlength; omega)).symm
  | cons b bs ih =>
    match bs, cs with
    | _, [] =>
      rw [List.length_cons, List.length_nil] at hlength
      omega
    | [], [c] => rw [byte_inj h]
    | [], c :: d :: cs =>
      simp only [List.length_cons, List.length_nil] at hlength
      omega
    | b' :: bs, [c] =>
      simp only [List.length_cons, List.length_nil] at hlength
      omega
    | b' :: bs, c :: d :: cs =>
      rw [intercalate_byte_cons, intercalate_byte_cons] at h
      obtain ⟨hbyte, hrest⟩ := List.append_inj h rfl
      simp only [List.length_cons] at hlength ih
      rw [byte_inj hbyte, ih (List.cons.inj hrest).2 (by simp only [List.length_cons]; omega)]

/-- Bytes in brackets are read back. -/
theorem bracketed_inj {bs cs : List UInt8} (h : bracketed bs = bracketed cs) : bs = cs :=
  intercalate_byte_inj (List.append_cancel_right (List.cons.inj h).2)

end Hex

namespace Quoted

/-- What may stand in quotes for a character. -/
inductive Stands : Char → List Char → Prop
  | letter {c letter : Char} (h : shortEscape? c = some letter) : Stands c ['\\', letter]
  | number {c : Char} (h : shortEscape? c = none) :
      Stands c ('\\' :: 'u' :: '\x7b' :: (Hex.number c.toNat ++ ['\x7d']))
  | plain {c : Char} (h : shortEscape? c = none) : Stands c [c]

theorem stands_escape (hidden : Char → Bool) (c : Char) : Stands c (escape hidden c) := by
  unfold escape
  split
  next letter h => exact .letter h
  next h =>
    split
    · exact .number h
    · exact .plain h

/-- The character that a letter behind a backslash stands for. -/
def ofLetter : Char → Char
  | '0' => '\x00'
  | 't' => '\t'
  | 'n' => '\n'
  | 'r' => '\r'
  | letter => letter

theorem ofLetter_eq {c letter : Char} (h : shortEscape? c = some letter) : ofLetter letter = c := by
  unfold shortEscape? at h
  split_ifs at h with hc hc hc hc hc hc
  all_goals
    obtain rfl := Option.some.inj h
    rw [hc]
    rfl

theorem shortEscape?_inj {c d letter : Char} (hc : shortEscape? c = some letter)
    (hd : shortEscape? d = some letter) : c = d :=
  (ofLetter_eq hc).symm.trans (ofLetter_eq hd)

/-- No letter for a character is the one that announces a number. -/
theorem shortEscape?_ne_u (c : Char) : shortEscape? c ≠ some 'u' := by
  unfold shortEscape?
  split_ifs <;> simp

theorem ne_of_shortEscape?_eq_none {c : Char} (h : shortEscape? c = none) :
    c ≠ '"' ∧ c ≠ '\\' := by
  unfold shortEscape? at h
  split_ifs at h
  exact ⟨‹_›, ‹_›⟩

/-- Two lists that end with the same element for the first time end at the same place. -/
theorem append_cons_inj {α : Type} {a : α} {x y r s : List α} (hx : a ∉ x) (hy : a ∉ y)
    (h : x ++ a :: r = y ++ a :: s) : x = y ∧ r = s := by
  rcases List.append_eq_append_iff.1 h with ⟨more, rfl, hmore⟩ | ⟨more, rfl, hmore⟩
  all_goals
    cases more with
    | nil => exact ⟨by simp, by simpa [eq_comm] using hmore⟩
    | cons b more =>
      obtain ⟨rfl, -⟩ := List.cons.inj hmore
      simp at hx hy

/-- What stands for a character tells the character and where the next one begins. -/
theorem Stands.inj {c d : Char} {x y r s : List Char} (hc : Stands c x) (hd : Stands d y)
    (h : x ++ r = y ++ s) : c = d ∧ r = s := by
  cases hc with
  | letter hc =>
    cases hd with
    | letter hd =>
      simp only [List.cons_append, List.nil_append, List.cons.injEq, true_and] at h
      obtain ⟨rfl, rfl⟩ := h
      exact ⟨shortEscape?_inj hc hd, rfl⟩
    | number hd =>
      simp only [List.cons_append, List.nil_append, List.cons.injEq, true_and] at h
      obtain ⟨rfl, -⟩ := h
      exact absurd hc (shortEscape?_ne_u c)
    | plain hd => exact absurd (List.cons.inj h).1.symm (ne_of_shortEscape?_eq_none hd).2
  | number hc =>
    cases hd with
    | letter hd =>
      simp only [List.cons_append, List.nil_append, List.cons.injEq, true_and] at h
      obtain ⟨rfl, -⟩ := h
      exact absurd hd (shortEscape?_ne_u d)
    | number hd =>
      simp only [List.cons_append, List.append_assoc, List.cons.injEq, true_and,
        List.nil_append] at h
      obtain ⟨hnumber, rfl⟩ := append_cons_inj (Hex.brace_notMem_number _) (Hex.brace_notMem_number _) h
      exact ⟨Char.toNat_inj.1 (Hex.number_inj hnumber), rfl⟩
    | plain hd => exact absurd (List.cons.inj h).1.symm (ne_of_shortEscape?_eq_none hd).2
  | plain hc =>
    cases hd with
    | letter hd => exact absurd (List.cons.inj h).1 (ne_of_shortEscape?_eq_none hc).2
    | number hd => exact absurd (List.cons.inj h).1 (ne_of_shortEscape?_eq_none hc).2
    | plain hd => exact List.cons.inj h

/-- What stands for a character does not begin with a quote. -/
theorem Stands.ne_quote {c : Char} {x r s : List Char} (hc : Stands c x) :
    x ++ r ≠ '"' :: s := by
  intro h
  cases hc with
  | letter hc => simp at h
  | number hc => simp at h
  | plain hc => exact (ne_of_shortEscape?_eq_none hc).1 (List.cons.inj h).1

/-- A text in quotes is read back, whichever characters were escaped. -/
theorem quote_inj {hidden hidden' : Char → Bool} {text text' : List Char}
    (h : quote hidden text = quote hidden' text') : text = text' := by
  replace h : text.flatMap (escape hidden) ++ ['"'] = text'.flatMap (escape hidden') ++ ['"'] :=
    (List.cons.inj h).2
  induction text generalizing text' with
  | nil =>
    cases text' with
    | nil => rfl
    | cons d text' =>
      rw [List.flatMap_cons, List.append_assoc] at h
      exact absurd h.symm (stands_escape hidden' d).ne_quote
  | cons c text ih =>
    cases text' with
    | nil =>
      rw [List.flatMap_cons, List.append_assoc] at h
      exact absurd h (stands_escape hidden c).ne_quote
    | cons d text' =>
      rw [List.flatMap_cons, List.flatMap_cons, List.append_assoc, List.append_assoc] at h
      obtain ⟨rfl, hrest⟩ := (stands_escape hidden c).inj (stands_escape hidden' d) h
      rw [ih hrest]

end Quoted

end ByteTrie
