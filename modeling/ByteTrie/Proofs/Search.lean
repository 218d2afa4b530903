import ByteTrie.Search
import Mathlib.Data.List.Sort

/-!
# What a search among bytes finds

A search answers by the bytes that it has looked at. `Suits` says what they tell
about the answer: a byte that was found is there, and the place for one that was
not stands behind a lesser byte and before a greater one. This needs no order
among the bytes, and no more bytes than were read: `Reads` allows for a read
past the end of the array, which only a count above its size can bring about.

When the bytes are strictly ascending there is one such answer for each needle,
and it tells where the needle is among all of them.
-/

namespace ByteTrie

namespace Search

/-- The result has a property, unless a position among the `count` was read that
is past the end of the array. -/
def Reads {α : Type} (keys : Array UInt8) (count : Nat) (P : α → Prop) : Except Fault α → Prop
  | .ok result => P result
  | .error fault =>
      ∃ index, fault = .indexOutOfBounds keys.size index ∧ keys.size ≤ index ∧ index < count

/-- A place at the beginning, or behind a byte below the needle. -/
def Above (keys : Array UInt8) (needle : UInt8) (place : Nat) : Prop :=
  place = 0 ∨ ∃ byte, keys[place - 1]? = some byte ∧ byte < needle

/-- A place at the end, or at a byte above the needle. -/
def Below (keys : Array UInt8) (count : Nat) (needle : UInt8) (place : Nat) : Prop :=
  place = count ∨ ∃ byte, keys[place]? = some byte ∧ needle < byte

/-- The bytes beside the answer bear it out. -/
def Suits (keys : Array UInt8) (count : Nat) (needle : UInt8) : Position → Prop
  | .found index => index < count ∧ keys[index]? = some needle
  | .absent place => place ≤ count ∧ Above keys needle place ∧ Below keys count needle place

variable {keys : Array UInt8} {count : Nat} {needle : UInt8}

theorem reads_bind {α β : Type} {P : α → Prop} {Q : β → Prop} {result : Except Fault α}
    {next : α → Except Fault β} (h : Reads keys count P result)
    (hnext : ∀ a, P a → Reads keys count Q (next a)) :
    Reads keys count Q (result >>= next) := by
  cases result with
  | error fault => exact h
  | ok a => exact hnext a h

theorem reads_probe {index : Nat} (h : index < count) :
    Reads keys count (fun byte => keys[index]? = some byte) (probe keys index) := by
  unfold probe
  cases hbyte : keys[index]? with
  | none => exact ⟨index, rfl, Array.getElem?_eq_none_iff.mp hbyte, h⟩
  | some byte => exact rfl

theorem reads_scan {index more : Nat} (hc : index + more ≤ count) (ha : Above keys needle index)
    (hb : Below keys count needle (index + more)) :
    Reads keys count (Suits keys count needle) (scan keys needle index more) := by
  induction more generalizing index with
  | zero => exact ⟨hc, ha, hb⟩
  | succ more ih =>
    rw [scan]
    refine reads_bind (reads_probe (by omega)) ?_
    intro byte hbyte
    cases hcmp : compare needle byte with
    | lt => exact ⟨by omega, ha, Or.inr ⟨byte, hbyte, Std.compare_eq_lt.mp hcmp⟩⟩
    | eq =>
      rw [Std.LawfulEqCmp.compare_eq_iff_eq] at hcmp
      exact ⟨by omega, hcmp ▸ hbyte⟩
    | gt =>
      have hnext : index + 1 + more = index + (more + 1) := by omega
      exact ih (hnext ▸ hc) (Or.inr ⟨byte, hbyte, Std.compare_eq_gt.mp hcmp⟩) (hnext ▸ hb)

/-- Of three bytes the middle one says on which side to look on. -/
theorem reads_outward : Reads keys 3 (Suits keys 3 needle) (outward keys needle) := by
  refine reads_bind (reads_probe (by decide)) ?_
  intro byte hbyte
  cases hcmp : compare needle byte with
  | lt =>
    have below : Below keys 3 needle 1 := Or.inr ⟨byte, hbyte, Std.compare_eq_lt.mp hcmp⟩
    exact reads_scan (by decide) (Or.inl rfl) below
  | eq =>
    rw [Std.LawfulEqCmp.compare_eq_iff_eq] at hcmp
    exact ⟨by decide, hcmp ▸ hbyte⟩
  | gt =>
    have above : Above keys needle 2 := Or.inr ⟨byte, hbyte, Std.compare_eq_gt.mp hcmp⟩
    exact reads_scan (by decide) above (Or.inl rfl)

/-- Bisection keeps a lesser byte before the left end and a greater one at the
right end. -/
theorem reads_bisectBetween (limit : 2 * count ≤ sizeLimit) {left right : Nat} (hlr : left ≤ right)
    (hr : right ≤ count) (ha : Above keys needle left) (hb : Below keys count needle right) :
    Reads keys count (Suits keys count needle) (bisectBetween keys needle left right) := by
  induction hsize : right - left using Nat.strongRecOn generalizing left right with
  | _ size ih =>
    rw [bisectBetween]
    split
    · rename_i hlt
      rw [if_pos (by omega)]
      refine reads_bind (reads_probe (by omega)) ?_
      intro byte hbyte
      cases hcmp : compare byte needle with
      | lt =>
        have above : Above keys needle ((left + right) / 2 + 1) :=
          Or.inr ⟨byte, hbyte, Std.compare_eq_lt.mp hcmp⟩
        exact ih _ (by omega) (by omega) hr above hb rfl
      | eq =>
        rw [Std.LawfulEqCmp.compare_eq_iff_eq] at hcmp
        exact ⟨by omega, hcmp ▸ hbyte⟩
      | gt =>
        have below : Below keys count needle ((left + right) / 2) :=
          Or.inr ⟨byte, hbyte, Std.compare_eq_gt.mp hcmp⟩
        exact ih _ (by omega) (by omega) (by omega) ha below rfl
    · have heq : left = right := by omega
      exact ⟨by omega, ha, heq ▸ hb⟩

theorem reads_bisect (limit : 2 * count ≤ sizeLimit) :
    Reads keys count (Suits keys count needle) (bisect keys count needle) :=
  reads_bisectBetween limit (Nat.zero_le count) (Nat.le_refl count) (Or.inl rfl) (Or.inl rfl)

/-- A window begins at a byte not above the needle and ends at one that is above
it, or one place behind: at an odd size the lower part keeps the position that
was refused. -/
theorem reads_window {base size stop : Nat} (hstop : base < stop) (hle : stop ≤ base + size)
    (hge : base + size ≤ stop + 1) (hc : base + size ≤ count)
    (hlow : base = 0 ∨ ∃ byte, keys[base]? = some byte ∧ byte ≤ needle)
    (hb : Below keys count needle stop) :
    Reads keys count
      (fun index => index < count ∧ Below keys count needle (index + 1) ∧
        (index = 0 ∨ ∃ byte, keys[index]? = some byte ∧ byte ≤ needle))
      (window keys needle base size) := by
  induction size using Nat.strongRecOn generalizing base stop with
  | _ size ih =>
    rw [window]
    split
    · rename_i hsize
      refine reads_bind (reads_probe (by omega)) ?_
      intro byte hbyte
      by_cases hle' : byte ≤ needle
      · -- A window of two may look at the refused position again, but not accept it.
        have hne : base + size / 2 ≠ stop := by
          rintro rfl
          rcases hb with rfl | ⟨other, hother, hlt⟩
          · omega
          · rw [hbyte, Option.some.injEq] at hother
            exact absurd hle' (UInt8.not_le.mpr (hother ▸ hlt))
        simp only [if_pos hle']
        exact ih _ (by omega) (by omega) (by omega) (by omega) (by omega)
          (Or.inr ⟨byte, hbyte, hle'⟩) hb
      · simp only [if_neg hle']
        exact ih _ (by omega) (by omega) (by omega) (by omega) (by omega) hlow
          (Or.inr ⟨byte, hbyte, UInt8.not_le.mp hle'⟩)
    · have heq : stop = base + 1 := by omega
      exact ⟨by omega, heq ▸ hb, hlow⟩

theorem reads_halve (h : 0 < count) :
    Reads keys count (Suits keys count needle) (halve keys needle count) := by
  have hwindow : Reads keys count _ (window keys needle 0 count) :=
    reads_window h (by omega) (by omega) (by omega) (Or.inl rfl) (Or.inl rfl)
  refine reads_bind hwindow ?_
  rintro index ⟨hindex, hbelow, hlow⟩
  refine reads_bind (reads_probe hindex) ?_
  intro byte hbyte
  cases hcmp : compare byte needle with
  | lt => exact ⟨hindex, Or.inr ⟨byte, hbyte, Std.compare_eq_lt.mp hcmp⟩, hbelow⟩
  | eq =>
    rw [Std.LawfulEqCmp.compare_eq_iff_eq] at hcmp
    exact ⟨hindex, hcmp ▸ hbyte⟩
  | gt =>
    have hlt := Std.compare_eq_gt.mp hcmp
    refine ⟨Nat.le_of_lt hindex, ?_, Or.inr ⟨byte, hbyte, hlt⟩⟩
    rcases hlow with rfl | ⟨other, hother, hle⟩
    · exact Or.inl rfl
    · rw [hbyte, Option.some.injEq] at hother
      exact absurd hle (UInt8.not_le.mpr (hother ▸ hlt))

/-- Whatever method the count chooses, the bytes beside the answer bear it out. -/
theorem reads_locate (hbisect : Reads keys count (Suits keys count needle)
    (bisect keys count needle)) (hne : count ≠ 256) :
    Reads keys count (Suits keys count needle) (locate keys count needle) := by
  unfold locate
  rw [if_neg hne]
  split
  · exact reads_scan (by omega) (Or.inl rfl) (Or.inl (Nat.zero_add count))
  · split
    · rename_i hthree
      exact hthree ▸ reads_outward
    · split
      · exact reads_halve (by omega)
      · exact hbisect

/-! ### Strictly ascending bytes -/

/-- Where a byte is among bytes, or between which of them it would stand. -/
def Locates (bytes : List UInt8) (needle : UInt8) : Position → Prop
  | .found index => bytes[index]? = some needle
  | .absent place =>
      place ≤ bytes.length ∧ (∀ byte ∈ bytes.take place, byte < needle) ∧
        ∀ byte ∈ bytes.drop place, needle < byte

theorem length_le_of_pairwise {bytes : List UInt8} (sorted : bytes.Pairwise (· < ·))
    (low high : Nat) (h : ∀ byte ∈ bytes, low ≤ byte.toNat ∧ byte.toNat < high) :
    bytes.length ≤ high - low := by
  induction bytes generalizing low with
  | nil => exact Nat.zero_le _
  | cons first rest ih =>
    obtain ⟨below, rest_sorted⟩ := List.pairwise_cons.mp sorted
    have hfirst := h first List.mem_cons_self
    have hrest := ih rest_sorted (first.toNat + 1) fun byte hbyte =>
      ⟨UInt8.lt_iff_toNat_lt.mp (below byte hbyte), (h byte (List.mem_cons_of_mem _ hbyte)).2⟩
    rw [List.length_cons]
    omega

theorem length_le_of_ascending {bytes : List UInt8} (sorted : bytes.Pairwise (· < ·)) :
    bytes.length ≤ 256 :=
  length_le_of_pairwise sorted 0 256 fun byte _ => ⟨Nat.zero_le _, byte.toNat_lt⟩

/-- When every byte value is there, each stands at its own number. -/
theorem getElem?_of_length_eq {bytes : List UInt8} (sorted : bytes.Pairwise (· < ·))
    (h : bytes.length = 256) (needle : UInt8) : bytes[needle.toNat]? = some needle := by
  have hlt : needle.toNat < bytes.length := h ▸ needle.toNat_lt
  have hsplit : bytes =
      bytes.take needle.toNat ++ bytes[needle.toNat] :: bytes.drop (needle.toNat + 1) := by
    rw [← List.drop_eq_getElem_cons hlt, List.take_append_drop]
  obtain ⟨take_sorted, drop_sorted, cross⟩ := List.pairwise_append.mp (hsplit ▸ sorted)
  obtain ⟨below, rest_sorted⟩ := List.pairwise_cons.mp drop_sorted
  have hlow := length_le_of_pairwise take_sorted 0 bytes[needle.toNat].toNat fun byte hbyte =>
    ⟨Nat.zero_le _, UInt8.lt_iff_toNat_lt.mp (cross byte hbyte _ List.mem_cons_self)⟩
  have hhigh := length_le_of_pairwise rest_sorted (bytes[needle.toNat].toNat + 1) 256
    fun byte hbyte => ⟨UInt8.lt_iff_toNat_lt.mp (below byte hbyte), byte.toNat_lt⟩
  rw [List.length_take] at hlow
  rw [List.length_drop] at hhigh
  rw [List.getElem?_eq_getElem hlt, Option.some.injEq, ← UInt8.toNat_inj]
  have := bytes[needle.toNat].toNat_lt
  omega

theorem le_of_ascending {bytes : List UInt8} (sorted : bytes.Pairwise (· < ·)) {i j : Nat}
    (h : i ≤ j) {a b : UInt8} (ha : bytes[i]? = some a) (hb : bytes[j]? = some b) : a ≤ b := by
  obtain ⟨hi, rfl⟩ := List.getElem?_eq_some_iff.mp ha
  obtain ⟨hj, rfl⟩ := List.getElem?_eq_some_iff.mp hb
  rcases Nat.lt_or_eq_of_le h with hlt | rfl
  · exact UInt8.le_of_lt (List.pairwise_iff_getElem.mp sorted i j hi hj hlt)
  · exact UInt8.le_refl _

theorem length_take_of_le (hsize : count ≤ keys.size) :
    (keys.toList.take count).length = count := by
  simp [hsize]

/-- Among ascending bytes the two beside the answer stand for all others. -/
theorem locates_of_suits (hsize : count ≤ keys.size)
    (sorted : (keys.toList.take count).Pairwise (· < ·)) {position : Position}
    (h : Suits keys count needle position) : Locates (keys.toList.take count) needle position := by
  have hget (index : Nat) (hindex : index < count) :
      (keys.toList.take count)[index]? = keys[index]? := by
    rw [List.getElem?_take_of_lt hindex, Array.getElem?_toList]
  cases position with
  | found index => exact (hget index h.1).trans h.2
  | absent place =>
    obtain ⟨hplace, habove, hbelow⟩ := h
    have hlength := length_take_of_le hsize
    refine ⟨by omega, ?_, ?_⟩
    · intro byte hbyte
      obtain ⟨index, hindex, rfl⟩ := List.mem_take_iff_getElem.mp hbyte
      rcases habove with rfl | ⟨last, hlast, hlt⟩
      · omega
      · rw [← hget _ (by omega)] at hlast
        have hle := le_of_ascending sorted (show index ≤ place - 1 by omega)
          (List.getElem?_eq_getElem (by omega)) hlast
        exact UInt8.lt_of_le_of_lt hle hlt
    · intro byte hbyte
      obtain ⟨index, hindex, rfl⟩ := List.mem_drop_iff_getElem.mp hbyte
      rcases hbelow with rfl | ⟨next, hnext, hlt⟩
      · omega
      · rw [← hget _ (by omega)] at hnext
        have hle := le_of_ascending sorted (Nat.le_add_right place index) hnext
          (List.getElem?_eq_getElem (by omega))
        exact UInt8.lt_of_lt_of_le hlt hle

/-- A search that reads within the array and goes by what it has read finds the place. -/
theorem exists_locates_of_reads (hsize : count ≤ keys.size)
    (sorted : (keys.toList.take count).Pairwise (· < ·)) {result : Except Fault Position}
    (h : Reads keys count (Suits keys count needle) result) :
    ∃ position, result = .ok position ∧ Locates (keys.toList.take count) needle position := by
  cases result with
  | error fault =>
    obtain ⟨index, -, hpast, hlt⟩ := h
    omega
  | ok position => exact ⟨position, rfl, locates_of_suits hsize sorted h⟩

/-- Positions among so few bytes add up to a size. -/
theorem two_mul_le_sizeLimit (hsize : count ≤ keys.size)
    (sorted : (keys.toList.take count).Pairwise (· < ·)) : 2 * count ≤ sizeLimit := by
  have hcount := length_le_of_ascending sorted
  rw [length_take_of_le hsize] at hcount
  exact Nat.le_trans (Nat.mul_le_mul_left 2 hcount) (by decide)

theorem bisect_of_ascending (hsize : count ≤ keys.size)
    (sorted : (keys.toList.take count).Pairwise (· < ·)) (needle : UInt8) :
    ∃ position, bisect keys count needle = .ok position ∧
      Locates (keys.toList.take count) needle position :=
  exists_locates_of_reads hsize sorted (reads_bisect (two_mul_le_sizeLimit hsize sorted))

theorem locate_of_ascending (hsize : count ≤ keys.size)
    (sorted : (keys.toList.take count).Pairwise (· < ·)) (needle : UInt8) :
    ∃ position, locate keys count needle = .ok position ∧
      Locates (keys.toList.take count) needle position := by
  by_cases heq : count = 256
  · subst heq
    exact ⟨.found needle.toNat, rfl,
      getElem?_of_length_eq sorted (length_take_of_le hsize) needle⟩
  · exact exists_locates_of_reads hsize sorted
      (reads_locate (reads_bisect (two_mul_le_sizeLimit hsize sorted)) heq)

/-! ### One answer -/

/-- Where the bytes below the needle end, there are as many of them as places before. -/
theorem countP_lt_eq {bytes : List UInt8} {place : Nat} (hplace : place ≤ bytes.length)
    (hbelow : ∀ byte ∈ bytes.take place, byte < needle)
    (habove : ∀ byte ∈ bytes.drop place, needle ≤ byte) :
    bytes.countP (· < needle) = place := by
  have htake : (bytes.take place).countP (· < needle) = (bytes.take place).length :=
    List.countP_eq_length.mpr fun byte hbyte => decide_eq_true (hbelow byte hbyte)
  have hdrop : (bytes.drop place).countP (· < needle) = 0 := by
    refine List.countP_eq_zero.mpr fun byte hbyte hlt => ?_
    exact UInt8.not_lt.mpr (habove byte hbyte) (of_decide_eq_true hlt)
  calc bytes.countP (· < needle)
      = (bytes.take place ++ bytes.drop place).countP (· < needle) := by
        rw [List.take_append_drop]
    _ = (bytes.take place).length := by rw [List.countP_append, htake, hdrop, Nat.add_zero]
    _ = place := List.length_take_of_le hplace

/-- Ascending bytes have one place for a byte, behind all those below it. -/
theorem Locates.eq {bytes : List UInt8} (sorted : bytes.Pairwise (· < ·)) {position : Position}
    (h : Locates bytes needle position) :
    position = if needle ∈ bytes then .found (bytes.countP (· < needle))
      else .absent (bytes.countP (· < needle)) := by
  cases position with
  | found index =>
    obtain ⟨hlt, hget⟩ := List.getElem?_eq_some_iff.mp h
    have hsplit : bytes = bytes.take index ++ needle :: bytes.drop (index + 1) := by
      rw [← hget, ← List.drop_eq_getElem_cons hlt, List.take_append_drop]
    obtain ⟨-, hdrop, hcross⟩ := List.pairwise_append.mp (hsplit ▸ sorted)
    have habove : ∀ byte ∈ bytes.drop index, needle ≤ byte := by
      rw [List.drop_eq_getElem_cons hlt, hget]
      intro byte hbyte
      rcases List.mem_cons.mp hbyte with rfl | hlater
      · exact UInt8.le_refl _
      · exact UInt8.le_of_lt ((List.pairwise_cons.mp hdrop).1 byte hlater)
    have hbelow (byte : UInt8) (hbyte : byte ∈ bytes.take index) : byte < needle :=
      hcross byte hbyte needle List.mem_cons_self
    rw [if_pos (List.mem_of_getElem? h), countP_lt_eq (Nat.le_of_lt hlt) hbelow habove]
  | absent place =>
    obtain ⟨hplace, hbelow, habove⟩ := h
    have hmiss : needle ∉ bytes := by
      rw [← List.take_append_drop place bytes, List.mem_append]
      rintro (hmem | hmem)
      · exact UInt8.lt_irrefl needle (hbelow needle hmem)
      · exact UInt8.lt_irrefl needle (habove needle hmem)
    have habove' (byte : UInt8) (hbyte : byte ∈ bytes.drop place) : needle ≤ byte :=
      UInt8.le_of_lt (habove byte hbyte)
    rw [if_neg hmiss, countP_lt_eq hplace hbelow habove']

/-- On strictly ascending bytes the method that suits the count answers what bisection does:
the index of the needle, or the complement of the number of bytes below it. -/
theorem locate_eq_bisect (hsize : count ≤ keys.size)
    (sorted : (keys.toList.take count).Pairwise (· < ·)) (needle : UInt8) :
    locate keys count needle = bisect keys count needle ∧
      (needle ∈ keys.toList.take count → ∃ index, index < count ∧ keys[index]? = some needle ∧
        (locate keys count needle).map Position.code = .ok index) ∧
      (needle ∉ keys.toList.take count → (locate keys count needle).map Position.code =
        .ok (~~~((keys.toList.take count).countP (· < needle) : Int))) := by
  obtain ⟨position, hlocate, hplace⟩ := locate_of_ascending hsize sorted needle
  obtain ⟨other, hbisect, hother⟩ := bisect_of_ascending hsize sorted needle
  have heq := hplace.eq sorted
  refine ⟨by rw [hlocate, hbisect, heq, hother.eq sorted], fun hmem => ?_, fun hmiss => ?_⟩
  · rw [if_pos hmem] at heq
    subst heq
    have hget : (keys.toList.take count)[_]? = some needle := hplace
    obtain ⟨hlt, -⟩ := List.getElem?_eq_some_iff.mp hget
    rw [length_take_of_le hsize] at hlt
    rw [List.getElem?_take_of_lt hlt, Array.getElem?_toList] at hget
    exact ⟨_, hlt, hget, by rw [hlocate]; rfl⟩
  · rw [if_neg hmiss] at heq
    rw [hlocate, heq]
    rfl

/-- The decimal digits are searched by halving; what stands behind them is not looked at. -/
theorem locate_eq_bisect_digits : ∃ keys : Array UInt8,
    keys = #[48, 49, 50, 51, 52, 53, 54, 55, 56, 57, 0, 7] ∧ 10 ≤ keys.size ∧
      (keys.toList.take 10).Pairwise (· < ·) ∧ locate keys 10 55 = bisect keys 10 55 ∧
      (locate keys 10 7).map Position.code = .ok (~~~0) := by
  refine ⟨_, rfl, by decide, by decide, ?_, ?_⟩
  · exact (locate_eq_bisect (by decide) (by decide) 55).1
  · exact (locate_eq_bisect (by decide) (by decide) 7).2.2 (by decide)

end Search

end ByteTrie
