/-!
# Lower-case hexadecimal text

Numbers are written without zeros in front unless a width is given, bytes always
with two digits.
-/

namespace ByteTrie.Hex

/-- The two digits of a byte. -/
def byte (b : UInt8) : List Char :=
  [Nat.digitChar (b.toNat / 16), Nat.digitChar (b.toNat % 16)]

/-- The digits of a number, the leading one not zero unless the number is. -/
def number (n : Nat) : List Char := Nat.toDigits 16 n

/-- The digits of a number, with zeros in front up to a width. -/
def padded (width n : Nat) : List Char :=
  List.replicate (width - (number n).length) '0' ++ number n

/-- The digits of the bytes one after the other. -/
def bytes (bs : List UInt8) : List Char := bs.flatMap byte

/-- The bytes in brackets, a blank between two. -/
def bracketed (bs : List UInt8) : List Char :=
  '[' :: [' '].intercalate (bs.map byte) ++ [']']

@[simp] theorem length_byte (b : UInt8) : (byte b).length = 2 := rfl

@[simp] theorem bytes_nil : bytes [] = [] := rfl

end ByteTrie.Hex
