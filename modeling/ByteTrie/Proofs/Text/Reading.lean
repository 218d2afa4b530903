import ByteTrie.Proofs.Text.Utf8

/-!
# Reading bytes as text

Any bytes begin with a piece, which is a character, an ill-formed part or a character
cut off by the end, and the bytes behind the piece are read as bytes of their own. From
this one step follows what both readings give: they pass over the same text, which is as
long as any text that the bytes begin with, and the strict one stops where the lenient
one puts its first replacement.
-/

namespace ByteTrie.Utf8

/-- Bytes begin a character and do not end it. -/
def Begins (part : List UInt8) : Prop :=
  part ≠ [] ∧ ∃ c more, more ≠ [] ∧ String.utf8EncodeChar c = part ++ more

/-- As many leading bytes as a character could begin with, or one byte that begins none,
and the next byte does not carry them on. -/
structure IllFormed (bytes : List UInt8) (n : Nat) : Prop where
  le_length : n ≤ bytes.length
  begins : n = 1 ∨ Begins (bytes.take n)
  stops : ∀ c, ¬ bytes.take (n + 1) <+: String.utf8EncodeChar c

/-- The first piece of bytes, and the bytes behind it. -/
inductive First : List UInt8 → Piece → List UInt8 → Prop
  | char (c : Char) (rest : List UInt8) : First (String.utf8EncodeChar c ++ rest) (.char c) rest
  | malformed {bytes : List UInt8} {n : Nat} (h : IllFormed bytes n) :
      First bytes (.malformed n) (bytes.drop n)
  | truncated {bytes : List UInt8} (h : Begins bytes) : First bytes .truncated []

/-- A beginning of a character has at most three bytes. -/
theorem Begins.length_le {part : List UInt8} (h : Begins part) : part.length ≤ 3 := by
  obtain ⟨-, c, more, hmore, hc⟩ := h
  have hlen := congrArg List.length hc
  have := c.utf8Size_le_four
  have := List.length_pos_iff.2 hmore
  rw [String.length_utf8EncodeChar, List.length_append] at hlen
  omega

/-- The beginning of a character, with a byte behind it that does not carry it on. -/
theorem illFormed_append {part : List UInt8} {stop : UInt8} (rest : List UInt8)
    (hbegins : Begins part) (hstop : ∀ c, ¬ part ++ [stop] <+: String.utf8EncodeChar c) :
    IllFormed (part ++ stop :: rest) part.length where
  le_length := by simp
  begins := .inr (by rwa [List.take_left])
  stops c := by
    rw [List.append_cons, List.take_left' (by simp)]
    exact hstop c

theorem IllFormed.one_le {bytes : List UInt8} {n : Nat} (h : IllFormed bytes n) : 1 ≤ n := by
  obtain rfl | ⟨hne, -⟩ := h.begins
  · exact Nat.le_refl 1
  · rw [Nat.one_le_iff_ne_zero]
    rintro rfl
    simp at hne

theorem IllFormed.le_three {bytes : List UInt8} {n : Nat} (h : IllFormed bytes n) : n ≤ 3 := by
  obtain rfl | hbegins := h.begins
  · decide
  · have := hbegins.length_le
    rwa [List.length_take, Nat.min_eq_left h.le_length] at this

section

variable {read code : Nat} {range next : ByteRange} {later : List ByteRange} {b : UInt8}
  {rest : List UInt8}

theorem piecesFrom_cons_last (h : range.has b = true) :
    piecesFrom (some ⟨read, code, range, []⟩) (b :: rest) =
      .char (Char.ofNat (number code [b])) :: pieces rest := by
  simp [piecesFrom, Utf8.read, h, number, pieces]

theorem piecesFrom_cons_next (h : range.has b = true) :
    piecesFrom (some ⟨read, code, range, next :: later⟩) (b :: rest) =
      piecesFrom (some ⟨read + 1, number code [b], next, later⟩) rest := by
  simp [piecesFrom, Utf8.read, h, number]

/-- A byte that does not carry an open character on is read anew. -/
theorem piecesFrom_cons_of_not_has (h : range.has b = false) :
    piecesFrom (some ⟨read, code, range, later⟩) (b :: rest) =
      .malformed read :: pieces (b :: rest) := by
  simp [piecesFrom, Utf8.read, h, pieces]

end

/-- Bytes behind a leading byte make its character. -/
theorem piecesFrom_append_of_fits {bytes : List UInt8} (read code : Nat) {range : ByteRange}
    {later : List ByteRange} (hfits : Fits (range :: later) bytes) (rest : List UInt8) :
    piecesFrom (some ⟨read, code, range, later⟩) (bytes ++ rest) =
      .char (Char.ofNat (number code bytes)) :: pieces rest := by
  induction later generalizing read code range bytes with
  | nil =>
    obtain ⟨b, _, hb, hnil, rfl⟩ := fits_cons.1 hfits
    obtain rfl := fits_nil.1 hnil
    rw [List.singleton_append, piecesFrom_cons_last hb]
  | cons next later ih =>
    obtain ⟨b, tail, hb, htail, rfl⟩ := fits_cons.1 hfits
    rw [List.cons_append, piecesFrom_cons_next hb, ih _ _ htail, ← number_cons]

/-- Bytes in the first of the ranges leave the character open. -/
theorem piecesFrom_append_of_fits_left {matched : List ByteRange} {bytes : List UInt8}
    (hfits : Fits matched bytes) (read code : Nat) {first range : ByteRange}
    {behind later : List ByteRange} (hranges : first :: behind = matched ++ range :: later)
    (rest : List UInt8) :
    piecesFrom (some ⟨read, code, first, behind⟩) (bytes ++ rest) =
      piecesFrom (some ⟨read + bytes.length, number code bytes, range, later⟩) rest := by
  induction matched generalizing read code first behind bytes with
  | nil =>
    obtain rfl := fits_nil.1 hfits
    obtain ⟨rfl, rfl⟩ := List.cons.inj hranges
    rfl
  | cons head matched ih =>
    obtain ⟨b, tail, hb, htail, rfl⟩ := fits_cons.1 hfits
    obtain ⟨rfl, hbehind⟩ := List.cons.inj hranges
    cases behind with
    | nil => simp at hbehind
    | cons second behind =>
      rw [List.cons_append, piecesFrom_cons_next hb, ih htail _ _ hbehind, ← number_cons,
        List.length_cons, Nat.add_assoc, Nat.add_comm 1]

section

variable {b : UInt8} {code : Nat} {matched : List ByteRange} {range : ByteRange}
  {later : List ByteRange} {fit : List UInt8}

/-- A leading byte begins a character, and so do the bytes behind it as long as they fit. -/
theorem begins_of_fits (hlead : lead? b = some (code, matched ++ range :: later))
    (hfit : Fits matched fit) : Begins (b :: fit) := by
  have hfull := hfit.append (fits_map_fst fun r hr =>
    has_of_mem_ranges hlead r (List.mem_append_right matched hr))
  exact ⟨by simp, _, _, by simp, encode_of_fits hlead hfull⟩

/-- No character goes on with a byte that is not in the range. -/
theorem not_prefix_encode (hlead : lead? b = some (code, matched ++ range :: later))
    (hfit : Fits matched fit) {stop : UInt8} (hstop : range.has stop = false) (c : Char) :
    ¬ b :: fit ++ [stop] <+: String.utf8EncodeChar c := by
  rintro ⟨more, hc⟩
  have hfits : Fits (matched ++ range :: later) (fit ++ (stop :: more)) :=
    fits_of_encode hlead (by simpa using hc.symm)
  have hdrop := List.forall₂_drop_append _ _ _ hfits
  rw [← hfit.length_eq, List.drop_left] at hdrop
  simp [(fits_cons_cons.1 hdrop).1] at hstop

end

theorem not_prefix_encode_of_lead?_eq_none {b : UInt8} (hlead : lead? b = none)
    (bytes : List UInt8) (c : Char) : ¬ b :: bytes <+: String.utf8EncodeChar c := by
  rintro ⟨more, hc⟩
  obtain ⟨b', code, ranges, bytes', hlead', -, hc', -⟩ := exists_lead c
  obtain ⟨rfl, -⟩ := List.cons.inj (hc.trans hc')
  cases hlead.symm.trans hlead'

theorem pieces_cons_of_lead? {b : UInt8} {code : Nat} {range : ByteRange} {later : List ByteRange}
    (hlead : lead? b = some (code, range :: later)) (rest : List UInt8) :
    pieces (b :: rest) = piecesFrom (some ⟨1, code, range, later⟩) rest := by
  simp [pieces, piecesFrom, read, start, hlead]

/-- A leading byte and bytes in its ranges are read as one character. -/
theorem pieces_append_of_fits {b : UInt8} {code : Nat} {ranges : List ByteRange}
    {fit : List UInt8} (hlead : lead? b = some (code, ranges)) (hfit : Fits ranges fit)
    (rest : List UInt8) :
    pieces (b :: (fit ++ rest)) = .char (Char.ofNat (number code fit)) :: pieces rest := by
  cases ranges with
  | nil =>
    obtain rfl := fits_nil.1 hfit
    simp [pieces, piecesFrom, read, start, hlead, number]
  | cons range later => rw [pieces_cons_of_lead? hlead, piecesFrom_append_of_fits _ _ hfit]

/-- Bytes begin with a piece, and the bytes behind it are read by themselves. -/
theorem exists_first {bytes : List UInt8} (h : bytes ≠ []) :
    ∃ piece rest, First bytes piece rest ∧ pieces bytes = piece :: pieces rest := by
  obtain ⟨b, bytes, rfl⟩ := List.exists_cons_of_ne_nil h
  cases hlead : lead? b with
  | none =>
    refine ⟨.malformed 1, bytes, .malformed ⟨by simp, .inl rfl, fun c => ?_⟩,
      by simp [pieces, piecesFrom, read, start, hlead]⟩
    exact not_prefix_encode_of_lead?_eq_none hlead _ c
  | some found =>
    obtain ⟨code, ranges⟩ := found
    obtain ⟨fit, rest, hfit, rfl⟩ | ⟨matched, range, later, fit, rest, rfl, hfit, rfl, hstop⟩ :=
      fits_cases ranges bytes
    · refine ⟨.char (Char.ofNat (number code fit)), rest, ?_, pieces_append_of_fits hlead hfit rest⟩
      have := First.char (Char.ofNat (number code fit)) rest
      rwa [encode_of_fits hlead hfit] at this
    have hpieces : pieces (b :: (fit ++ rest)) =
        piecesFrom (some ⟨1 + fit.length, number code fit, range, later⟩) rest := by
      obtain ⟨first, behind, hranges⟩ : ∃ first behind, matched ++ range :: later = first :: behind :=
        List.exists_cons_of_ne_nil (by simp)
      rw [pieces_cons_of_lead? (hranges ▸ hlead), piecesFrom_append_of_fits_left hfit _ _ hranges.symm]
    have hbegins := begins_of_fits hlead hfit
    rw [hpieces]
    cases rest with
    | nil => exact ⟨.truncated, [], by simpa using First.truncated hbegins, rfl⟩
    | cons stop rest =>
      have hstop : range.has stop = false := hstop stop rfl
      rw [piecesFrom_cons_of_not_has hstop, Nat.add_comm]
      refine ⟨_, _, ?_, rfl⟩
      have := First.malformed (illFormed_append rest hbegins (not_prefix_encode hlead hfit hstop))
      rwa [List.drop_left] at this

/-! ### Texts -/

@[simp] theorem pieces_nil : pieces [] = [] := rfl

theorem pieces_encodeChar_append (c : Char) (rest : List UInt8) :
    pieces (String.utf8EncodeChar c ++ rest) = .char c :: pieces rest := by
  obtain ⟨b, code, ranges, bytes, hlead, hfits, hc, hnumber⟩ := exists_lead c
  rw [hc, List.cons_append, pieces_append_of_fits hlead hfits, hnumber]

theorem pieces_encode_append (text : List Char) (rest : List UInt8) :
    pieces (encode text ++ rest) = text.map .char ++ pieces rest := by
  induction text with
  | nil => rfl
  | cons c text ih =>
    rw [encode_cons, List.append_assoc, pieces_encodeChar_append, ih]
    rfl

/-- Bytes are text up to where no character stands. -/
theorem exists_encode_append (bytes : List UInt8) :
    ∃ text tail, bytes = encode text ++ tail ∧ ∀ c, ¬ String.utf8EncodeChar c <+: tail := by
  induction hn : bytes.length using Nat.strongRecOn generalizing bytes with
  | ind n ih =>
    by_cases h : ∃ c, String.utf8EncodeChar c <+: bytes
    · obtain ⟨c, rest, rfl⟩ := h
      have hlt : rest.length < n := by
        have := c.utf8Size_pos
        rw [← hn, List.length_append, String.length_utf8EncodeChar]
        omega
      obtain ⟨text, tail, rfl, htail⟩ := ih _ hlt rest rfl
      exact ⟨c :: text, tail, by rw [encode_cons, List.append_assoc], htail⟩
    · exact ⟨[], bytes, rfl, fun c hc => h ⟨c, hc⟩⟩

theorem textFrom_append (index : Nat) (text : List Char) (rest : List Piece) :
    textFrom index (text.map .char ++ rest) =
      (textFrom (index + (encode text).length) rest).map (text ++ ·) := by
  induction text generalizing index with
  | nil => cases h : textFrom index rest <;> simp [h, Except.map]
  | cons c text ih =>
    simp only [List.map_cons, List.cons_append, textFrom, ih, encode_cons, List.length_append,
      String.length_utf8EncodeChar, ← Nat.add_assoc]
    cases textFrom (index + c.utf8Size + (encode text).length) rest <;> rfl

theorem decode_encode_append (text : List Char) (tail : List UInt8) :
    decode (encode text ++ tail) =
      (textFrom (encode text).length (pieces tail)).map (text ++ ·) := by
  rw [decode, pieces_encode_append, textFrom_append, Nat.zero_add]

theorem decodeLossy_encode_append (text : List Char) (tail : List UInt8) :
    decodeLossy (encode text ++ tail) = text ++ decodeLossy tail := by
  simp only [decodeLossy, pieces_encode_append, List.map_append, List.map_map]
  congr 1
  exact List.map_id text

theorem decode_encode (text : List Char) : decode (encode text) = .ok text := by
  have := decode_encode_append text []
  simpa [textFrom, Except.map] using this

theorem decodeLossy_encode (text : List Char) : decodeLossy (encode text) = text := by
  simpa [decodeLossy] using decodeLossy_encode_append text []

/-- How bytes stop being text behind a text. -/
theorem decode_eq_error (text : List Char) {tail : List UInt8} (hne : tail ≠ [])
    (htail : ∀ c, ¬ String.utf8EncodeChar c <+: tail) :
    (∃ n, IllFormed tail n ∧
      decode (encode text ++ tail) = .error ⟨(encode text).length, some n⟩ ∧
      decodeLossy tail = replacement :: decodeLossy (tail.drop n)) ∨
    (Begins tail ∧ decode (encode text ++ tail) = .error ⟨(encode text).length, none⟩ ∧
      decodeLossy tail = [replacement]) := by
  obtain ⟨piece, rest, hfirst, hpieces⟩ := exists_first hne
  rw [decode_encode_append, decodeLossy, hpieces]
  cases hfirst with
  | char c => exact absurd (List.prefix_append ..) (htail c)
  | malformed h => exact .inl ⟨_, h, rfl, rfl⟩
  | truncated h => exact .inr ⟨h, rfl, rfl⟩

/-- Bytes are read as a text exactly when they are its bytes. -/
theorem decode_eq_ok_iff {bytes : List UInt8} {text : List Char} :
    decode bytes = .ok text ↔ bytes = encode text := by
  refine ⟨fun h => ?_, fun h => h ▸ decode_encode text⟩
  obtain ⟨start, tail, rfl, htail⟩ := exists_encode_append bytes
  rcases eq_or_ne tail [] with rfl | hne
  · rw [List.append_nil, decode_encode] at h
    rw [List.append_nil, Except.ok.inj h]
  · rcases decode_eq_error start hne htail with ⟨n, -, herror, -⟩ | ⟨-, herror, -⟩ <;>
      cases herror.symm.trans h

/-- No text is longer than one behind which no character stands. -/
theorem length_encode_le {start text : List Char} {tail rest : List UInt8}
    (htail : ∀ c, ¬ String.utf8EncodeChar c <+: tail)
    (h : encode start ++ tail = encode text ++ rest) :
    (encode text).length ≤ (encode start).length := by
  induction text generalizing start with
  | nil => simp
  | cons c text ih =>
    cases start with
    | nil =>
      rw [encode_cons, List.append_assoc] at h
      exact absurd ⟨_, h.symm⟩ (htail c)
    | cons d start =>
      simp only [encode_cons, List.append_assoc] at h
      have hpieces := congrArg pieces h
      rw [pieces_encodeChar_append, pieces_encodeChar_append] at hpieces
      obtain rfl : d = c := by simpa using (List.cons.inj hpieces).1
      have := ih (List.append_cancel_left h)
      simp only [encode_cons, List.length_append]
      omega

end ByteTrie.Utf8
