import ByteTrie.Fault

/-!
# Searching sorted key bytes

`Search.locate keys count needle` looks for a byte among the first `count` of an
array of bytes. The count chooses the method: a scan for two bytes at most, the
middle byte and then an outer one for three, a halving window for the sizes of
common alphabets, the byte itself once every value is present, and bisection for
all other counts. On strictly ascending bytes the methods agree; on other bytes,
or when the count exceeds the array, each still reads only where its own steps
lead, and a read past the end is a fault.
-/

namespace ByteTrie

/-- Where a byte is among sorted bytes, or where it would go. -/
inductive Position where
  | found (index : Nat)
  | absent (insertAt : Nat)
  deriving DecidableEq, Repr

namespace Position

/-- A single number for a position: the index of a byte that was found, and the
bitwise complement of the place of one that was not. -/
def code : Position → Int
  | found index => index
  | absent insertAt => Int.negSucc insertAt

@[simp] theorem code_found (index : Nat) : (found index).code = index := rfl

@[simp] theorem code_absent (insertAt : Nat) :
    (absent insertAt).code = -(insertAt : Int) - 1 := by
  simp [code, Int.negSucc_eq]
  omega

end Position

namespace Search

/-- The byte at a position that must lie within the array. -/
def probe (keys : Array UInt8) (index : Nat) : Except Fault UInt8 :=
  match keys[index]? with
  | some byte => .ok byte
  | none => .error (.indexOutOfBounds keys.size index)

/-- Look at `more` bytes from `index` on, one after the other, up to the first
that is not below the needle. -/
def scan (keys : Array UInt8) (needle : UInt8) (index : Nat) :
    Nat → Except Fault Position
  | 0 => .ok (.absent index)
  | more + 1 => do
      match compare needle (← probe keys index) with
      | .lt => .ok (.absent index)
      | .eq => .ok (.found index)
      | .gt => scan keys needle (index + 1) more

/-- Look at the middle one of three bytes, then at the outer one on the needle's
side of it. -/
def outward (keys : Array UInt8) (needle : UInt8) : Except Fault Position := do
  match compare needle (← probe keys 1) with
  | .lt => scan keys needle 0 1
  | .eq => .ok (.found 1)
  | .gt => scan keys needle 2 1

/-- Bisect the positions from `left` up to `right`. -/
def bisectBetween (keys : Array UInt8) (needle : UInt8) (left right : Nat) :
    Except Fault Position :=
  if left < right then
    if left + right < sizeLimit then do
      let middle := (left + right) / 2
      match compare (← probe keys middle) needle with
      | .lt => bisectBetween keys needle (middle + 1) right
      | .eq => .ok (.found middle)
      | .gt => bisectBetween keys needle left middle
    else .error .sumTooLarge
  else .ok (.absent left)
termination_by right - left

/-- Bisect the first `count` bytes. -/
def bisect (keys : Array UInt8) (count : Nat) (needle : UInt8) : Except Fault Position :=
  bisectBetween keys needle 0 count

/-- Halve a window of `size` positions until one is left. The window moves to
its upper part when the byte there is not above the needle; at an odd size the
lower part keeps one position that was already refused. -/
def window (keys : Array UInt8) (needle : UInt8) (base size : Nat) :
    Except Fault Nat :=
  if 1 < size then do
    let middle := base + size / 2
    let base := if (← probe keys middle) ≤ needle then middle else base
    window keys needle base (size - size / 2)
  else .ok base
termination_by size

/-- Search `size` positions by halving, then look at the one left over. -/
def halve (keys : Array UInt8) (needle : UInt8) (size : Nat) :
    Except Fault Position := do
  let index ← window keys needle 0 size
  match compare (← probe keys index) needle with
  | .lt => .ok (.absent (index + 1))
  | .eq => .ok (.found index)
  | .gt => .ok (.absent index)

/-- The counts that are searched by halving: decimal digits, hexadecimal
digits, letters, base 64 with its padding, and printable characters. -/
def alphabetCounts : List Nat := [10, 16, 32, 65, 95]

/-- The place of a byte among the first `count` bytes, by the method that suits
the count. -/
def locate (keys : Array UInt8) (count : Nat) (needle : UInt8) : Except Fault Position :=
  if count ≤ 2 then scan keys needle 0 count
  else if count = 3 then outward keys needle
  else if count = 256 then .ok (.found needle.toNat)
  else if count ∈ alphabetCounts then halve keys needle count
  else bisect keys count needle

end Search

end ByteTrie
