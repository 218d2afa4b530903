import ByteTrie.Key.Text
import ByteTrie.Proofs.Text.Quoted
import ByteTrie.Proofs.Text.Reading

/-!
# The text views of a key

A key is compared with text, read strictly, read leniently and written for a reader. The
first three draw the same boundaries in it, whatever its bytes are, and the last one
can be read back.
-/

namespace ByteTrie

namespace Key

variable {key : Key}

/-- The first `n` bytes of a key are a text, and no more of them are. -/
structure LongestText (key : Key) (n : Nat) (content : List Char) : Prop where
  le_length : n ≤ key.length
  take_eq : key.take n = Utf8.encode content
  longest : ∀ m other, m ≤ key.length → key.take m = Utf8.encode other → m ≤ n

theorem equalsText_iff {content : List Char} :
    key.equalsText content = true ↔ key = Utf8.encode content := beq_iff_eq

theorem longestText_append {content : List Char} {tail : List UInt8}
    (htail : ∀ c, ¬ String.utf8EncodeChar c <+: tail) :
    LongestText (Utf8.encode content ++ tail) (Utf8.encode content).length content where
  le_length := by simp
  take_eq := List.take_left
  longest m other hm h := by
    have hlength : m = (Utf8.encode other).length := by
      rw [← h, List.length_take, Nat.min_eq_left hm]
    have hsplit : Utf8.encode content ++ tail =
        Utf8.encode other ++ (Utf8.encode content ++ tail).drop m := by
      rw [← h, List.take_append_drop]
    rw [hlength]
    exact Utf8.length_encode_le htail hsplit

/-- A key that is no text is one up to some place, and then ill-formed or cut off. -/
theorem exists_longestText {m : Utf8.Malformed} (h : Utf8.decode key = .error m) :
    ∃ content, LongestText key m.validUpTo content ∧
      Utf8.decodeLossy key = content ++ Utf8.decodeLossy (key.drop m.validUpTo) ∧
      ((∃ n, m.length = some n ∧ Utf8.IllFormed (key.drop m.validUpTo) n ∧
          Utf8.decodeLossy (key.drop m.validUpTo) =
            Utf8.replacement :: Utf8.decodeLossy (key.drop (m.validUpTo + n))) ∨
        (m.length = none ∧ Utf8.Begins (key.drop m.validUpTo) ∧
          Utf8.decodeLossy (key.drop m.validUpTo) = [Utf8.replacement])) := by
  obtain ⟨content, tail, rfl, htail⟩ := Utf8.exists_encode_append key
  have hne : tail ≠ [] := by
    rintro rfl
    rw [List.append_nil, Utf8.decode_encode] at h
    cases h
  have hdrop : (Utf8.encode content ++ tail).drop (Utf8.encode content).length = tail :=
    List.drop_left
  refine ⟨content, ?_⟩
  rcases Utf8.decode_eq_error content hne htail with
    ⟨n, hill, herror, hlossy⟩ | ⟨hbegins, herror, hlossy⟩
  all_goals
    obtain rfl := Except.error.inj (herror.symm.trans h)
    refine ⟨longestText_append htail, ?_⟩
    simp only [hdrop, ← List.drop_drop]
    refine ⟨Utf8.decodeLossy_encode_append content tail, ?_⟩
  · exact .inl ⟨n, rfl, hill, hlossy⟩
  · exact .inr ⟨trivial, hbegins, hlossy⟩

/-- The views of a key as text agree. The strict reading gives a text exactly when the key
is its bytes, which is exactly when the key equals it, and then the lenient reading gives
the same text. Where the strict reading stops, the key is the longest text up to there; an
ill-formed part that it reports is what the lenient reading puts one replacement for
before it goes on behind it, and where it reports none the key ends within a character,
for which the lenient reading puts one replacement and ends. -/
theorem views_agree (key : Key) :
    (∀ content, (Utf8.decode key = .ok content ↔ key = Utf8.encode content) ∧
      (key.equalsText content = true ↔ key = Utf8.encode content) ∧
      (Utf8.decode key = .ok content → Utf8.decodeLossy key = content)) ∧
    (∀ v n, Utf8.decode key = .error ⟨v, some n⟩ → ∃ content, LongestText key v content ∧
      1 ≤ n ∧ n ≤ 3 ∧ Utf8.IllFormed (key.drop v) n ∧
      Utf8.decodeLossy key =
        content ++ Utf8.replacement :: Utf8.decodeLossy (key.drop (v + n))) ∧
    ∀ v, Utf8.decode key = .error ⟨v, none⟩ → ∃ content, LongestText key v content ∧
      Utf8.Begins (key.drop v) ∧ Utf8.decodeLossy key = content ++ [Utf8.replacement] := by
  refine ⟨fun content => ⟨Utf8.decode_eq_ok_iff, equalsText_iff, fun h => ?_⟩,
    fun v n h => ?_, fun v h => ?_⟩
  · rw [Utf8.decode_eq_ok_iff.1 h, Utf8.decodeLossy_encode]
  · obtain ⟨content, hlongest, hlossy, ⟨n', hn, hill, htail⟩ | ⟨hn, -⟩⟩ := exists_longestText h
    · obtain rfl := Option.some.inj hn
      exact ⟨content, hlongest, hill.one_le, hill.le_three, hill, hlossy.trans (by rw [htail])⟩
    · cases hn
  · obtain ⟨content, hlongest, hlossy, ⟨n', hn, -⟩ | ⟨-, hbegins, htail⟩⟩ := exists_longestText h
    · cases hn
    · exact ⟨content, hlongest, hbegins, hlossy.trans (by rw [htail])⟩

example : Utf8.decode [0x61, 0xE2, 0x82, 0x62] = .error ⟨1, some 2⟩ ∧
    Utf8.decodeLossy [0x61, 0xE2, 0x82, 0x62] = ['a', Utf8.replacement, 'b'] := by decide

/-! ### The debug text -/

theorem text_of_decode {hidden : Char → Bool} {content : List Char}
    (h : Utf8.decode key = .ok content) :
    text hidden key = 'K' :: 'e' :: 'y' :: '(' :: (Quoted.quote hidden content ++ [')']) := by
  rw [text, h]
  rfl

theorem text_of_error {hidden : Char → Bool} {m : Utf8.Malformed}
    (h : Utf8.decode key = .error m) :
    text hidden key = 'K' :: 'e' :: 'y' :: Hex.bracketed key := by
  rw [text, h]
  rfl

theorem text_inj {hidden hidden' : Char → Bool} {a b : Key}
    (h : text hidden a = text hidden' b) : a = b := by
  cases ha : Utf8.decode a with
  | ok content =>
    cases hb : Utf8.decode b with
    | ok content' =>
      rw [text_of_decode ha, text_of_decode hb] at h
      simp only [List.cons.injEq, true_and] at h
      obtain rfl := Quoted.quote_inj (List.append_cancel_right h)
      rw [Utf8.decode_eq_ok_iff.1 ha, Utf8.decode_eq_ok_iff.1 hb]
    | error m =>
      rw [text_of_decode ha, text_of_error hb] at h
      simp [Hex.bracketed] at h
  | error m =>
    cases hb : Utf8.decode b with
    | ok content' =>
      rw [text_of_error ha, text_of_decode hb] at h
      simp [Hex.bracketed] at h
    | error m' =>
      rw [text_of_error ha, text_of_error hb] at h
      simp only [List.cons.injEq, true_and] at h
      exact Hex.bracketed_inj h

/-- Keys with the same debug text are equal, in whichever of the two forms it is written
and whichever characters are escaped by their number, be it others in the one text than
in the other. -/
theorem debug_identifies :
    (∀ (hidden hidden' : Char → Bool) (a b : Key), text hidden a = text hidden' b → a = b) ∧
      ∀ a b : Key, debug a = debug b → a = b :=
  ⟨fun _ _ _ _ h => text_inj h, fun _ _ h => text_inj (String.ofList_injective h)⟩

example : debug [0x61, 0x22, 0xC2, 0xAD] = "Key(\"a\\\"\\u\x7bad\x7d\")" ∧
    debug [0x61, 0xFF, 0x0A] = "Key[61 ff 0a]" := by decide

end Key

end ByteTrie
