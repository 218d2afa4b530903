/-!
# Reading bytes as text

Bytes are read one at a time. A leading byte says how many bytes follow and in
which range each of them lies; the ranges rule out spellings that are too long,
surrogates, and numbers that are no character. `pieces` cuts any byte string
into characters and ill-formed parts, an ill-formed part being as long as it
agrees with some well-formed character. A strict reading (`decode`) accepts
characters only, a lenient one (`decodeLossy`) puts a replacement character for
each ill-formed part.
-/

namespace ByteTrie.Utf8

/-- An inclusive range of bytes. -/
abbrev ByteRange := UInt8 × UInt8

/-- A byte lies in a range. -/
def ByteRange.has (range : ByteRange) (b : UInt8) : Bool := range.1 ≤ b && b ≤ range.2

/-- The bytes that carry on a character. -/
def continuation : ByteRange := (0x80, 0xBF)

/-- What a leading byte contributes to its character, and the ranges of the
bytes that must follow it. -/
def lead? (b : UInt8) : Option (Nat × List ByteRange) :=
  if b ≤ 0x7F then some (b.toNat, [])
  else if b < 0xC2 then none
  else if b ≤ 0xDF then some (b.toNat - 0xC0, [continuation])
  else if b = 0xE0 then some (0x0, [(0xA0, 0xBF), continuation])
  else if b = 0xED then some (0xD, [(0x80, 0x9F), continuation])
  else if b ≤ 0xEF then some (b.toNat - 0xE0, [continuation, continuation])
  else if b = 0xF0 then some (0, [(0x90, 0xBF), continuation, continuation])
  else if b ≤ 0xF3 then some (b.toNat - 0xF0, [continuation, continuation, continuation])
  else if b = 0xF4 then some (4, [(0x80, 0x8F), continuation, continuation])
  else none

/-- A part of a byte string. -/
inductive Piece where
  | char (c : Char)
  /-- Bytes that cannot begin a character, or begin one that does not go on. -/
  | malformed (length : Nat)
  /-- The beginning of a character where the bytes end. -/
  | truncated
  deriving DecidableEq, Repr

/-- A character that has begun: how many of its bytes were read, the number they
make, and the ranges of the next byte and of the bytes after it. -/
structure Unfinished where
  read : Nat
  code : Nat
  next : ByteRange
  later : List ByteRange
  deriving DecidableEq, Repr

/-- Read a byte where a character may begin. -/
def start (b : UInt8) : List Piece × Option Unfinished :=
  match lead? b with
  | none => ([.malformed 1], none)
  | some (code, []) => ([.char (Char.ofNat code)], none)
  | some (code, next :: later) => ([], some ⟨1, code, next, later⟩)

/-- Read a byte: the pieces that it completes, and the character that is open. -/
def read (state : Option Unfinished) (b : UInt8) : List Piece × Option Unfinished :=
  match state with
  | none => start b
  | some ⟨read, code, next, later⟩ =>
      if next.has b then
        let code := code * 64 + (b.toNat - 0x80)
        match later with
        | [] => ([.char (Char.ofNat code)], none)
        | next :: later => ([], some ⟨read + 1, code, next, later⟩)
      else
        let (completed, state) := start b
        (.malformed read :: completed, state)

/-- The pieces of the bytes that follow while a character may be open. -/
def piecesFrom (state : Option Unfinished) : List UInt8 → List Piece
  | [] => if state.isSome then [.truncated] else []
  | b :: rest =>
      let (completed, state) := read state b
      completed ++ piecesFrom state rest

/-- The pieces of a byte string. -/
def pieces (bytes : List UInt8) : List Piece := piecesFrom none bytes

/-- The bytes of a text. -/
def encode (text : List Char) : List UInt8 := text.flatMap String.utf8EncodeChar

/-- Where bytes stop being text: how many bytes are text, and how many cannot be
read on, if it is not just the end that is missing. -/
structure Malformed where
  validUpTo : Nat
  length : Option Nat
  deriving DecidableEq, Repr

/-- The wording of ill-formed text. -/
def Malformed.message (m : Malformed) : String :=
  match m.length with
  | some length => s!"invalid utf-8 sequence of {length} bytes from index {m.validUpTo}"
  | none => s!"incomplete utf-8 byte sequence from index {m.validUpTo}"

/-- The text of pieces that start at a byte, if all of them are characters. -/
def textFrom (index : Nat) : List Piece → Except Malformed (List Char)
  | [] => .ok []
  | .char c :: rest => (textFrom (index + c.utf8Size) rest).map (c :: ·)
  | .malformed length :: _ => .error ⟨index, some length⟩
  | .truncated :: _ => .error ⟨index, none⟩

/-- The text that bytes spell, or where they stop being text. -/
def decode (bytes : List UInt8) : Except Malformed (List Char) := textFrom 0 (pieces bytes)

/-- The character that stands for what is no text. -/
def replacement : Char := '\uFFFD'

/-- The character of a piece. -/
def Piece.lossy : Piece → Char
  | .char c => c
  | .malformed _ => replacement
  | .truncated => replacement

/-- The text that bytes spell, each ill-formed part replaced. -/
def decodeLossy (bytes : List UInt8) : List Char := (pieces bytes).map Piece.lossy

@[simp] theorem decode_nil : decode [] = .ok [] := rfl

@[simp] theorem encode_nil : encode [] = [] := rfl

theorem encode_cons (c : Char) (text : List Char) :
    encode (c :: text) = String.utf8EncodeChar c ++ encode text := rfl

end ByteTrie.Utf8
