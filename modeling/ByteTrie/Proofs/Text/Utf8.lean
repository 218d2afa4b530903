import ByteTrie.Text.Utf8
import Mathlib.Data.List.Forall2

/-!
# The bytes of a character

A leading byte and bytes in the ranges that it names are the bytes of a character, the
one whose number they make, and the bytes of every character are of this kind. So the
table of leading bytes holds no spelling too many and none too few: no overlong one, no
surrogate and no number that is no character.
-/

namespace ByteTrie.Utf8

/-- Bytes lie in ranges, one in each. -/
def Fits (ranges : List ByteRange) (bytes : List UInt8) : Prop :=
  List.Forall₂ (fun range b => range.has b = true) ranges bytes

/-- The number that a leading byte's part and the bytes behind it make. -/
def number (code : Nat) (bytes : List UInt8) : Nat :=
  bytes.foldl (fun code b => code * 64 + (b.toNat - 0x80)) code

theorem number_cons (code : Nat) (b : UInt8) (bytes : List UInt8) :
    number code (b :: bytes) = number (number code [b]) bytes := by
  simp only [number, List.foldl_cons, List.foldl_nil]

theorem has_iff (low high b : UInt8) :
    ByteRange.has (low, high) b = true ↔ low.toNat ≤ b.toNat ∧ b.toNat ≤ high.toNat := by
  simp [ByteRange.has, UInt8.le_iff_toNat_le]

@[simp] theorem fits_nil {bytes : List UInt8} : Fits [] bytes ↔ bytes = [] := by
  simp [Fits]

theorem fits_cons {range : ByteRange} {ranges : List ByteRange} {bytes : List UInt8} :
    Fits (range :: ranges) bytes ↔
      ∃ b rest, range.has b = true ∧ Fits ranges rest ∧ bytes = b :: rest := by
  simp only [Fits, List.forall₂_cons_left_iff]

@[simp] theorem fits_cons_cons {range : ByteRange} {ranges : List ByteRange} {b : UInt8}
    {rest : List UInt8} :
    Fits (range :: ranges) (b :: rest) ↔ range.has b = true ∧ Fits ranges rest := by
  simp [Fits]

theorem Fits.append {r₁ r₂ : List ByteRange} {bs₁ bs₂ : List UInt8} (h₁ : Fits r₁ bs₁)
    (h₂ : Fits r₂ bs₂) : Fits (r₁ ++ r₂) (bs₁ ++ bs₂) := List.rel_append h₁ h₂

theorem Fits.length_eq {ranges : List ByteRange} {bytes : List UInt8} (h : Fits ranges bytes) :
    ranges.length = bytes.length := List.Forall₂.length_eq h

/-- Ranges that all have a byte can be filled. -/
theorem fits_map_fst {ranges : List ByteRange} (h : ∀ range ∈ ranges, range.has range.1 = true) :
    Fits ranges (ranges.map Prod.fst) := by
  induction ranges with
  | nil => exact fits_nil.2 rfl
  | cons range ranges ih =>
    exact fits_cons_cons.2 ⟨h range (by simp), ih fun r hr => h r (by simp [hr])⟩

/-- How far bytes go on in ranges: through all of them, or up to the end or a byte that
lies outside. -/
theorem fits_cases (ranges : List ByteRange) (bytes : List UInt8) :
    (∃ fit rest, Fits ranges fit ∧ bytes = fit ++ rest) ∨
    ∃ matched range later fit rest, ranges = matched ++ range :: later ∧ Fits matched fit ∧
      bytes = fit ++ rest ∧ ∀ b ∈ rest.head?, range.has b = false := by
  induction ranges generalizing bytes with
  | nil => exact .inl ⟨[], bytes, fits_nil.2 rfl, rfl⟩
  | cons range ranges ih =>
    cases bytes with
    | nil => exact .inr ⟨[], range, ranges, [], [], rfl, fits_nil.2 rfl, rfl, by simp⟩
    | cons b bytes =>
      cases hb : range.has b with
      | false => exact .inr ⟨[], range, ranges, [], b :: bytes, rfl, fits_nil.2 rfl, rfl, by simpa⟩
      | true =>
        obtain ⟨fit, rest, hfit, rfl⟩ | ⟨matched, next, later, fit, rest, rfl, hfit, rfl, hstop⟩ :=
          ih bytes
        · exact .inl ⟨b :: fit, rest, fits_cons_cons.2 ⟨hb, hfit⟩, rfl⟩
        · exact .inr ⟨range :: matched, next, later, b :: fit, rest, rfl,
            fits_cons_cons.2 ⟨hb, hfit⟩, rfl, hstop⟩

/-! ### Numbers -/

theorem toNat_val_ofNat {n : Nat} (h : n.isValidChar) : (Char.ofNat n).val.toNat = n := by
  rw [Char.ofNat, dif_pos h]
  rfl

theorem ofNat_eq {n : Nat} {b : UInt8} (h : n = b.toNat) : UInt8.ofNat n = b := by
  rw [h, UInt8.ofNat_toNat]

theorem exists_toNat_eq {n : Nat} (h : n < 256) : ∃ b : UInt8, b.toNat = n :=
  ⟨UInt8.ofNat n, by rw [UInt8.toNat_ofNat']; omega⟩

/-- The table of leading bytes by their numbers. -/
theorem lead?_eq (b : UInt8) : lead? b =
    if b.toNat ≤ 0x7F then some (b.toNat, [])
    else if b.toNat < 0xC2 then none
    else if b.toNat ≤ 0xDF then some (b.toNat - 0xC0, [continuation])
    else if b.toNat = 0xE0 then some (0x0, [(0xA0, 0xBF), continuation])
    else if b.toNat = 0xED then some (0xD, [(0x80, 0x9F), continuation])
    else if b.toNat ≤ 0xEF then some (b.toNat - 0xE0, [continuation, continuation])
    else if b.toNat = 0xF0 then some (0, [(0x90, 0xBF), continuation, continuation])
    else if b.toNat ≤ 0xF3 then
      some (b.toNat - 0xF0, [continuation, continuation, continuation])
    else if b.toNat = 0xF4 then some (4, [(0x80, 0x8F), continuation, continuation])
    else none := by
  simp only [lead?, UInt8.le_iff_toNat_le, UInt8.lt_iff_toNat_lt, ← UInt8.toNat_inj]
  rfl

/-- The leading bytes line by line: what each contributes, and the ranges behind it. Where
a byte could begin a number too small, a surrogate or a number too great, the range next
to it is a narrower one. -/
inductive Leading (b : UInt8) : Nat → List ByteRange → Prop
  | one (high : b.toNat ≤ 0x7F) : Leading b b.toNat []
  | two (low : 0xC2 ≤ b.toNat) (high : b.toNat ≤ 0xDF) : Leading b (b.toNat - 0xC0) [continuation]
  | threeLow (eq : b.toNat = 0xE0) : Leading b 0x0 [(0xA0, 0xBF), continuation]
  | threeSurrogate (eq : b.toNat = 0xED) : Leading b 0xD [(0x80, 0x9F), continuation]
  | three (low : 0xE1 ≤ b.toNat) (high : b.toNat ≤ 0xEF) (ne : b.toNat ≠ 0xED) :
      Leading b (b.toNat - 0xE0) [continuation, continuation]
  | fourLow (eq : b.toNat = 0xF0) : Leading b 0 [(0x90, 0xBF), continuation, continuation]
  | four (low : 0xF1 ≤ b.toNat) (high : b.toNat ≤ 0xF3) :
      Leading b (b.toNat - 0xF0) [continuation, continuation, continuation]
  | fourHigh (eq : b.toNat = 0xF4) : Leading b 4 [(0x80, 0x8F), continuation, continuation]

theorem leading_of_lead? {b : UInt8} {code : Nat} {ranges : List ByteRange}
    (hlead : lead? b = some (code, ranges)) : Leading b code ranges := by
  rw [lead?_eq] at hlead
  obtain ⟨h1, hlead⟩ | ⟨h1, hlead⟩ := ite_eq_iff.1 hlead
  · obtain ⟨rfl, rfl⟩ := Prod.mk.inj (Option.some.inj hlead)
    exact .one h1
  obtain ⟨h2, hlead⟩ | ⟨h2, hlead⟩ := ite_eq_iff.1 hlead
  · cases hlead
  obtain ⟨h3, hlead⟩ | ⟨h3, hlead⟩ := ite_eq_iff.1 hlead
  · obtain ⟨rfl, rfl⟩ := Prod.mk.inj (Option.some.inj hlead)
    exact .two (by omega) h3
  obtain ⟨h4, hlead⟩ | ⟨h4, hlead⟩ := ite_eq_iff.1 hlead
  · obtain ⟨rfl, rfl⟩ := Prod.mk.inj (Option.some.inj hlead)
    exact .threeLow h4
  obtain ⟨h5, hlead⟩ | ⟨h5, hlead⟩ := ite_eq_iff.1 hlead
  · obtain ⟨rfl, rfl⟩ := Prod.mk.inj (Option.some.inj hlead)
    exact .threeSurrogate h5
  obtain ⟨h6, hlead⟩ | ⟨h6, hlead⟩ := ite_eq_iff.1 hlead
  · obtain ⟨rfl, rfl⟩ := Prod.mk.inj (Option.some.inj hlead)
    exact .three (by omega) h6 h5
  obtain ⟨h7, hlead⟩ | ⟨h7, hlead⟩ := ite_eq_iff.1 hlead
  · obtain ⟨rfl, rfl⟩ := Prod.mk.inj (Option.some.inj hlead)
    exact .fourLow h7
  obtain ⟨h8, hlead⟩ | ⟨h8, hlead⟩ := ite_eq_iff.1 hlead
  · obtain ⟨rfl, rfl⟩ := Prod.mk.inj (Option.some.inj hlead)
    exact .four (by omega) h8
  obtain ⟨h9, hlead⟩ | ⟨h9, hlead⟩ := ite_eq_iff.1 hlead
  · obtain ⟨rfl, rfl⟩ := Prod.mk.inj (Option.some.inj hlead)
    exact .fourHigh h9
  cases hlead

/-! ### From the bytes to the character -/

section

variable {n : Nat} {a b c d : UInt8}

theorem encode_one (hn : n ≤ 0x7F) (ha : n = a.toNat) :
    String.utf8EncodeChar (Char.ofNat n) = [a] := by
  have hvalid : n.isValidChar := Or.inl (by omega)
  simp only [String.utf8EncodeChar, toNat_val_ofNat hvalid]
  rw [if_pos hn, ofNat_eq ha]

theorem encode_two (hlow : 0x80 ≤ n) (hhigh : n ≤ 0x7FF) (ha : n / 64 + 0xC0 = a.toNat)
    (hb : n % 64 + 0x80 = b.toNat) : String.utf8EncodeChar (Char.ofNat n) = [a, b] := by
  have hvalid : n.isValidChar := Or.inl (by omega)
  simp only [String.utf8EncodeChar, toNat_val_ofNat hvalid]
  rw [if_neg (by omega), if_pos hhigh, ofNat_eq hb, ofNat_eq (b := a) (by omega)]

theorem encode_three (hlow : 0x800 ≤ n) (hhigh : n ≤ 0xFFFF) (hvalid : n.isValidChar)
    (ha : n / 4096 + 0xE0 = a.toNat) (hb : n / 64 % 64 + 0x80 = b.toNat)
    (hc : n % 64 + 0x80 = c.toNat) : String.utf8EncodeChar (Char.ofNat n) = [a, b, c] := by
  simp only [String.utf8EncodeChar, toNat_val_ofNat hvalid]
  rw [if_neg (by omega), if_neg (by omega), if_pos hhigh, ofNat_eq hb, ofNat_eq hc,
    ofNat_eq (b := a) (by omega)]

theorem encode_four (hlow : 0x10000 ≤ n) (hhigh : n < 0x110000)
    (ha : n / 262144 + 0xF0 = a.toNat) (hb : n / 4096 % 64 + 0x80 = b.toNat)
    (hc : n / 64 % 64 + 0x80 = c.toNat) (hd : n % 64 + 0x80 = d.toNat) :
    String.utf8EncodeChar (Char.ofNat n) = [a, b, c, d] := by
  have hvalid : n.isValidChar := Or.inr ⟨by omega, hhigh⟩
  simp only [String.utf8EncodeChar, toNat_val_ofNat hvalid]
  rw [if_neg (by omega), if_neg (by omega), if_neg (by omega), ofNat_eq hb, ofNat_eq hc,
    ofNat_eq hd, ofNat_eq (b := a) (by omega)]

end

/-- A leading byte with bytes in its ranges is a character. -/
theorem encode_of_fits {b : UInt8} {code : Nat} {ranges : List ByteRange} {bytes : List UInt8}
    (hlead : lead? b = some (code, ranges)) (hfits : Fits ranges bytes) :
    String.utf8EncodeChar (Char.ofNat (number code bytes)) = b :: bytes := by
  have hleading := leading_of_lead? hlead
  cases hleading
  all_goals simp only [fits_cons, fits_nil, continuation, has_iff, UInt8.reduceToNat] at hfits
  case one =>
    subst hfits
    exact encode_one (by simpa [number]) rfl
  case two =>
    obtain ⟨c, _, hc, rfl, rfl⟩ := hfits
    apply encode_two <;> simp only [number, List.foldl] <;> omega
  case threeLow | threeSurrogate | three =>
    obtain ⟨c, _, hc, ⟨d, _, hd, rfl, rfl⟩, rfl⟩ := hfits
    apply encode_three <;> simp only [number, List.foldl, Nat.isValidChar] <;> omega
  case fourLow | four | fourHigh =>
    obtain ⟨c, _, hc, ⟨d, _, hd, ⟨e, _, he, rfl, rfl⟩, rfl⟩, rfl⟩ := hfits
    apply encode_four <;> simp only [number, List.foldl] <;> omega

/-! ### From the character to the bytes -/

/-- A number is spelled by a leading byte and bytes in its ranges. -/
def Spelled (n : Nat) : Prop :=
  ∃ b code ranges bytes, lead? b = some (code, ranges) ∧ Fits ranges bytes ∧
    number code bytes = n

section

variable {n : Nat}

theorem spelled_two (hlow : 0x80 ≤ n) (hhigh : n ≤ 0x7FF) : Spelled n := by
  obtain ⟨a, ha⟩ := exists_toNat_eq (n := n / 64 + 0xC0) (by omega)
  obtain ⟨b, hb⟩ := exists_toNat_eq (n := n % 64 + 0x80) (by omega)
  refine ⟨a, a.toNat - 0xC0, [continuation], [b], ?_, ?_, ?_⟩
  · rw [lead?_eq, if_neg (by omega), if_neg (by omega), if_pos (by omega)]
  · simp only [fits_cons_cons, fits_nil, continuation, has_iff, UInt8.reduceToNat, and_true]
    omega
  · simp only [number, List.foldl]
    omega

theorem spelled_three (hlow : 0x800 ≤ n) (hhigh : n ≤ 0xFFFF) (hvalid : n.isValidChar) :
    Spelled n := by
  obtain ⟨a, ha⟩ := exists_toNat_eq (n := n / 4096 + 0xE0) (by omega)
  obtain ⟨b, hb⟩ := exists_toNat_eq (n := n / 64 % 64 + 0x80) (by omega)
  obtain ⟨c, hc⟩ := exists_toNat_eq (n := n % 64 + 0x80) (by omega)
  obtain ⟨range, hlead, hrange⟩ : ∃ range, lead? a = some (a.toNat - 0xE0, [range, continuation]) ∧
      range.has b = true := by
    rw [lead?_eq, if_neg (by omega), if_neg (by omega), if_neg (by omega)]
    simp only [Nat.isValidChar] at hvalid
    split_ifs with hE0 hED hEF
    · exact ⟨(0xA0, 0xBF), by rw [hE0], (has_iff ..).2 (by simp only [UInt8.reduceToNat]; omega)⟩
    · exact ⟨(0x80, 0x9F), by rw [hED], (has_iff ..).2 (by simp only [UInt8.reduceToNat]; omega)⟩
    · exact ⟨continuation, rfl, (has_iff ..).2 (by simp only [UInt8.reduceToNat]; omega)⟩
    all_goals omega
  refine ⟨a, a.toNat - 0xE0, [range, continuation], [b, c], hlead, ?_, ?_⟩
  · simp only [fits_cons_cons, fits_nil, hrange, continuation, has_iff, UInt8.reduceToNat,
      true_and, and_true]
    omega
  · simp only [number, List.foldl]
    omega

theorem spelled_four (hlow : 0x10000 ≤ n) (hhigh : n < 0x110000) : Spelled n := by
  obtain ⟨a, ha⟩ := exists_toNat_eq (n := n / 262144 + 0xF0) (by omega)
  obtain ⟨b, hb⟩ := exists_toNat_eq (n := n / 4096 % 64 + 0x80) (by omega)
  obtain ⟨c, hc⟩ := exists_toNat_eq (n := n / 64 % 64 + 0x80) (by omega)
  obtain ⟨d, hd⟩ := exists_toNat_eq (n := n % 64 + 0x80) (by omega)
  obtain ⟨range, hlead, hrange⟩ : ∃ range,
      lead? a = some (a.toNat - 0xF0, [range, continuation, continuation]) ∧
        range.has b = true := by
    rw [lead?_eq, if_neg (by omega), if_neg (by omega), if_neg (by omega), if_neg (by omega),
      if_neg (by omega), if_neg (by omega)]
    split_ifs with hF0 hF3 hF4
    · exact ⟨(0x90, 0xBF), by rw [hF0], (has_iff ..).2 (by simp only [UInt8.reduceToNat]; omega)⟩
    · exact ⟨continuation, rfl, (has_iff ..).2 (by simp only [UInt8.reduceToNat]; omega)⟩
    · exact ⟨(0x80, 0x8F), by rw [hF4], (has_iff ..).2 (by simp only [UInt8.reduceToNat]; omega)⟩
    all_goals omega
  refine ⟨a, a.toNat - 0xF0, [range, continuation, continuation], [b, c, d], hlead, ?_, ?_⟩
  · simp only [fits_cons_cons, fits_nil, hrange, continuation, has_iff, UInt8.reduceToNat,
      true_and, and_true]
    omega
  · simp only [number, List.foldl]
    omega

end

/-- The number of every character is spelled. -/
theorem spelled (c : Char) : Spelled c.toNat := by
  have hvalid : c.toNat.isValidChar := c.valid
  rcases Nat.lt_or_ge c.toNat 0x80 with h1 | h1
  · obtain ⟨a, ha⟩ := exists_toNat_eq (n := c.toNat) (by omega)
    exact ⟨a, a.toNat, [], [], by rw [lead?_eq, if_pos (by omega)], fits_nil.2 rfl, ha⟩
  rcases Nat.lt_or_ge c.toNat 0x800 with h2 | h2
  · exact spelled_two h1 (by omega)
  rcases Nat.lt_or_ge c.toNat 0x10000 with h3 | h3
  · exact spelled_three h2 (by omega) hvalid
  · exact spelled_four h3 (by rcases hvalid with h | ⟨-, h⟩ <;> omega)

/-- Every character is a leading byte with bytes in its ranges. -/
theorem exists_lead (c : Char) : ∃ b code ranges bytes, lead? b = some (code, ranges) ∧
    Fits ranges bytes ∧ String.utf8EncodeChar c = b :: bytes ∧
      Char.ofNat (number code bytes) = c := by
  obtain ⟨b, code, ranges, bytes, hlead, hfits, hnumber⟩ := spelled c
  have hc : Char.ofNat (number code bytes) = c := by rw [hnumber, Char.ofNat_toNat]
  exact ⟨b, code, ranges, bytes, hlead, hfits, hc ▸ encode_of_fits hlead hfits, hc⟩

/-- Every range of a leading byte has a byte. -/
theorem has_of_mem_ranges {b : UInt8} {code : Nat} {ranges : List ByteRange}
    (hlead : lead? b = some (code, ranges)) : ∀ range ∈ ranges, range.has range.1 = true := by
  cases leading_of_lead? hlead <;> simp [ByteRange.has, continuation]

/-- The bytes behind a leading byte of a character lie in its ranges. -/
theorem fits_of_encode {b : UInt8} {code : Nat} {ranges : List ByteRange} {bytes : List UInt8}
    {c : Char} (hlead : lead? b = some (code, ranges))
    (hc : String.utf8EncodeChar c = b :: bytes) : Fits ranges bytes := by
  obtain ⟨b', code', ranges', bytes', hlead', hfits, hc', -⟩ := exists_lead c
  obtain ⟨rfl, rfl⟩ := List.cons.inj (hc.symm.trans hc')
  obtain ⟨-, rfl⟩ := Prod.mk.inj (Option.some.inj (hlead.symm.trans hlead'))
  exact hfits

end ByteTrie.Utf8
