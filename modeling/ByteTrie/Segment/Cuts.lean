import ByteTrie.Segment

/-!
# Segments in use

Segments are cut from buffers and from one another, buffers and segments being known
by number in the order of their making. Every buffer is told apart from all others, the
one of an empty segment too, which nothing else is cut from. A call that is answered with
a fault leaves all as it was, and later calls go on from there.
-/

namespace ByteTrie

/-- Buffers, and the segments cut from them. -/
structure Cuts where
  buffers : Array Buffer
  segments : Array Segment
  /-- How many buffers there are, those of empty segments among them. -/
  made : Nat

namespace Cuts

/-- What can be done with buffers and segments. -/
inductive Call where
  | buffer (bytes : Key)
  | empty
  | ofRange (buffer offset length : Nat)
  | ofOffset (buffer offset : Nat)
  | take (segment n : Nat)
  | drop (segment n : Nat)
  | clone (segment : Nat)
  | get (segment index : Nat)

/-- What a call is answered with. -/
inductive Answer where
  /-- Nothing has the number. -/
  | absent
  /-- The number of a new buffer. -/
  | buffer (number : Nat)
  /-- The number of a new segment. -/
  | segment (number : Nat)
  | byte (b : UInt8)
  deriving DecidableEq

/-- No buffers and no segments. -/
def blank : Cuts := ⟨#[], #[], 0⟩

/-- Put a new segment behind the others. -/
def add (s : Cuts) (t : Segment) : Answer × Cuts :=
  (.segment s.segments.size, { s with segments := s.segments.push t })

/-- Go on with what was found under a number, if anything was. -/
def withFound {α : Type} (s : Cuts) (found : Option α)
    (go : α → Except Fault (Answer × Cuts)) : Except Fault (Answer × Cuts) :=
  match found with
  | some a => go a
  | none => .ok (.absent, s)

/-- Answer a call, unless it is at fault. -/
def call (s : Cuts) : Call → Except Fault (Answer × Cuts)
  | .buffer bytes =>
      .ok (.buffer s.buffers.size,
        { s with buffers := s.buffers.push ⟨s.made, bytes.toArray⟩, made := s.made + 1 })
  | .empty => .ok ({ s with made := s.made + 1 }.add (Segment.empty s.made))
  | .ofRange buffer offset length =>
      s.withFound s.buffers[buffer]? fun b => (Segment.ofRange b offset length).map s.add
  | .ofOffset buffer offset =>
      s.withFound s.buffers[buffer]? fun b => (Segment.ofOffset b offset).map s.add
  | .take segment n => s.withFound s.segments[segment]? fun t => (t.take n).map s.add
  | .drop segment n => s.withFound s.segments[segment]? fun t => (t.drop n).map s.add
  | .clone segment => s.withFound s.segments[segment]? fun t => .ok (s.add t)
  | .get segment index =>
      s.withFound s.segments[segment]? fun t => (t.get index).map fun b => (.byte b, s)

/-- Answer a call; one at fault changes nothing. -/
def perform (s : Cuts) (c : Call) : Except Fault Answer × Cuts :=
  match s.call c with
  | .ok (answer, s) => (.ok answer, s)
  | .error fault => (.error fault, s)

/-- Answer several calls one after the other. -/
def performAll (s : Cuts) : List Call → List (Except Fault Answer) × Cuts
  | [] => ([], s)
  | c :: rest =>
      let (answer, s) := s.perform c
      let (later, s) := s.performAll rest
      (answer :: later, s)

end Cuts

end ByteTrie
