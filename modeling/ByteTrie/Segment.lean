import ByteTrie.Fault
import ByteTrie.Key.Basic
import ByteTrie.Text.Hex

/-!
# Segments of a key

A segment is the stretch of a key that one node of the trie stands for. It is
kept as an offset and a length into a buffer that holds a whole key, so the key
that ends with the segment is the buffer up to the segment's end, and cutting a
segment in two copies nothing.

`Segment.bytes` and `Segment.key` are the two views through which the
operations are described.
-/

namespace ByteTrie

/-- The bytes of one key under a number that tells equal keys apart. -/
structure Buffer where
  id : Nat
  bytes : Array UInt8
  deriving DecidableEq, Repr

/-- `length` bytes of a buffer from `offset` on. -/
structure Segment where
  buffer : Buffer
  offset : Nat
  length : Nat
  deriving Repr

namespace Segment

/-- The position after the last byte. -/
def stop (s : Segment) : Nat := s.offset + s.length

/-- The bytes of the segment. -/
def bytes (s : Segment) : Key := (s.buffer.bytes.extract s.offset s.stop).toList

/-- The key that ends with the segment: the buffer up to its end. -/
def key (s : Segment) : Key := (s.buffer.bytes.extract 0 s.stop).toList

/-- The segment lies within its buffer. -/
def Within (s : Segment) : Prop := s.stop ≤ s.buffer.bytes.size

/-- No bytes, of a buffer without bytes. -/
def empty (id : Nat) : Segment := ⟨⟨id, #[]⟩, 0, 0⟩

/-- A stretch of a buffer, refused when it runs past the end. -/
def ofRange (buffer : Buffer) (offset length : Nat) : Except Fault Segment :=
  if sizeLimit ≤ offset + length then .error .sumTooLarge
  else if offset + length ≤ buffer.bytes.size then .ok ⟨buffer, offset, length⟩
  else .error .segmentPastBuffer

/-- All of a buffer from `offset` on. -/
def ofOffset (buffer : Buffer) (offset : Nat) : Except Fault Segment :=
  if offset ≤ buffer.bytes.size then .ok ⟨buffer, offset, buffer.bytes.size - offset⟩
  else .error .differenceNegative

/-- The first `n` bytes. -/
def take (s : Segment) (n : Nat) : Except Fault Segment :=
  if n ≤ s.length then .ok { s with length := n } else .error .takePastSegment

/-- All but the first `n` bytes. -/
def drop (s : Segment) (n : Nat) : Except Fault Segment :=
  if n ≤ s.length then .ok { s with offset := s.offset + n, length := s.length - n }
  else .error .dropPastSegment

/-- The byte at a position, if the segment has one there. -/
def get? (s : Segment) (index : Nat) : Option UInt8 :=
  if index < s.length then s.buffer.bytes[s.offset + index]? else none

/-- The byte at a position that must lie within the segment. -/
def get (s : Segment) (index : Nat) : Except Fault UInt8 :=
  match s.get? index with
  | some byte => .ok byte
  | none => .error .bytePastSegment

/-- Two segments of the same buffer. -/
def shares (s t : Segment) : Bool := s.buffer.id == t.buffer.id

/-- Segments are equal when their bytes are; the same stretch of a shared buffer
is not compared byte by byte. -/
instance : BEq Segment where
  beq s t := s.shares t && s.offset == t.offset && s.length == t.length || s.bytes == t.bytes

/-- The offsets of the segment, then its bytes in hexadecimal digits. -/
def debug (s : Segment) : List Char :=
  "KeySegment[".toList ++ Nat.toDigits 10 s.offset ++ "..".toList ++ Nat.toDigits 10 s.stop ++
    "]".toList ++ Hex.bracketed s.bytes

theorem bytes_eq (s : Segment) :
    s.bytes = (s.buffer.bytes.toList.drop s.offset).take s.length := by
  simp [bytes, stop, List.extract_eq_take_drop]

theorem key_eq (s : Segment) : s.key = s.buffer.bytes.toList.take s.stop := by
  simp [key, List.extract_eq_take_drop]

@[simp] theorem bytes_empty (id : Nat) : (empty id).bytes = [] := rfl

@[simp] theorem key_empty (id : Nat) : (empty id).key = [] := rfl

theorem within_empty (id : Nat) : (empty id).Within := Nat.le_refl 0

theorem length_bytes {s : Segment} (h : s.Within) : s.bytes.length = s.length := by
  simp only [Within, stop] at h
  simp [bytes_eq]
  omega

theorem within_of_ofRange {buffer : Buffer} {offset length : Nat} {s : Segment}
    (h : ofRange buffer offset length = .ok s) : s.Within := by
  unfold ofRange at h
  split at h
  · cases h
  · split at h
    · cases h
      assumption
    · cases h

theorem within_of_ofOffset {buffer : Buffer} {offset : Nat} {s : Segment}
    (h : ofOffset buffer offset = .ok s) : s.Within := by
  unfold ofOffset at h
  split at h
  · cases h
    simp only [Within, stop]
    omega
  · cases h

theorem get?_eq (s : Segment) (index : Nat) : s.get? index = s.bytes[index]? := by
  simp only [get?, bytes_eq, List.getElem?_take, List.getElem?_drop, Array.getElem?_toList]

end Segment

end ByteTrie
