import ByteTrie.Proofs.Segment.Slices
import ByteTrie.Segment.Cuts

/-!
# Segments whatever is cut

A call makes a buffer, a segment or nothing. A new buffer has a number of its own, and a
new segment lies within a buffer that was there, or within the one made for it. So after
any calls, those at fault among them, every segment lies within its buffer and no two
buffers share a number, and all that is said of one cut holds of any chain of cuts. Buffers
and empty segments can be made at any time, so there is something to cut.
-/

namespace ByteTrie

namespace Cuts

variable {s s' : Cuts} {c : Call} {number : Nat} {b : Buffer} {t u : Segment}

/-- A buffer that can still be reached. -/
def InUse (s : Cuts) (b : Buffer) : Prop := b ∈ s.buffers ∨ ∃ t ∈ s.segments, t.buffer = b

/-- A buffer is told apart by its number from all that can be reached. -/
def Fresh (s : Cuts) (b : Buffer) : Prop := ∀ b', s.InUse b' → b'.id ≠ b.id

/-- Segments lie within their buffers, and buffers are told apart by their numbers. -/
structure Sound (s : Cuts) : Prop where
  within : ∀ t ∈ s.segments, t.Within
  id_lt : ∀ b, s.InUse b → b.id < s.made
  eq_of_id_eq : ∀ b b', s.InUse b → s.InUse b' → b.id = b'.id → b = b'

/-- What a call may have done. -/
inductive Changed (s : Cuts) (s' : Cuts) : Prop
  | same (h : s' = s)
  | buffered (bytes : Array UInt8) (buffers : s'.buffers = s.buffers.push ⟨s.made, bytes⟩)
      (segments : s'.segments = s.segments) (made : s'.made = s.made + 1)
  | emptied (buffers : s'.buffers = s.buffers)
      (segments : s'.segments = s.segments.push (Segment.empty s.made))
      (made : s'.made = s.made + 1)
  | cut {t : Segment} (within : t.Within) (inUse : s.InUse t.buffer)
      (buffers : s'.buffers = s.buffers) (segments : s'.segments = s.segments.push t)
      (made : s'.made = s.made)

theorem changed_of_map {x : Except Fault Segment} {answer : Answer}
    (h : x.map s.add = .ok (answer, s')) (hx : ∀ t, x = .ok t → t.Within ∧ s.InUse t.buffer) :
    s.Changed s' := by
  obtain ⟨t, ht, hadd⟩ := exists_of_map_eq_ok h
  cases hadd
  obtain ⟨hwithin, hinUse⟩ := hx t ht
  exact .cut hwithin hinUse rfl rfl rfl

theorem changed_of_withFound {α : Type} {found : Option α} {go : α → Except Fault (Answer × Cuts)}
    {answer : Answer} (h : s.withFound found go = .ok (answer, s'))
    (hgo : ∀ a, found = some a → go a = .ok (answer, s') → s.Changed s') : s.Changed s' := by
  cases found with
  | none =>
    cases h
    exact .same rfl
  | some a => exact hgo a rfl h

theorem inUse_buffer (h : s.segments[number]? = some t) : s.InUse t.buffer :=
  .inr ⟨t, Array.mem_of_getElem? h, rfl⟩

theorem Sound.changed_of_call (hs : s.Sound) {answer : Answer} (h : s.call c = .ok (answer, s')) :
    s.Changed s' := by
  cases c with
  | buffer bytes =>
    cases h
    exact .buffered _ rfl rfl rfl
  | empty =>
    cases h
    exact .emptied rfl rfl rfl
  | ofRange buffer offset length =>
    refine changed_of_withFound h fun b hb hmap => changed_of_map hmap fun t ht => ?_
    obtain ⟨-, rfl⟩ := Segment.ofRange_eq_ok_iff.1 ht
    exact ⟨Segment.within_of_ofRange ht, .inl (Array.mem_of_getElem? hb)⟩
  | ofOffset buffer offset =>
    refine changed_of_withFound h fun b hb hmap => changed_of_map hmap fun t ht => ?_
    obtain ⟨-, rfl⟩ := Segment.ofOffset_eq_ok_iff.1 ht
    exact ⟨Segment.within_of_ofOffset ht, .inl (Array.mem_of_getElem? hb)⟩
  | take segment n =>
    refine changed_of_withFound h fun u hu hmap => changed_of_map hmap fun t ht => ?_
    have hwithin := (hs.within u (Array.mem_of_getElem? hu)).take ht
    obtain ⟨-, rfl⟩ := Segment.take_eq_ok_iff.1 ht
    exact ⟨hwithin, (inUse_buffer hu : s.InUse u.buffer)⟩
  | drop segment n =>
    refine changed_of_withFound h fun u hu hmap => changed_of_map hmap fun t ht => ?_
    have hwithin := (hs.within u (Array.mem_of_getElem? hu)).drop ht
    obtain ⟨-, rfl⟩ := Segment.drop_eq_ok_iff.1 ht
    exact ⟨hwithin, (inUse_buffer hu : s.InUse u.buffer)⟩
  | clone segment =>
    refine changed_of_withFound h fun u hu hadd => ?_
    cases hadd
    exact .cut (hs.within u (Array.mem_of_getElem? hu)) (inUse_buffer hu) rfl rfl rfl
  | get segment index =>
    refine changed_of_withFound h fun u hu hmap => ?_
    obtain ⟨byte, -, hanswer⟩ := exists_of_map_eq_ok hmap
    cases hanswer
    exact .same rfl

/-- A buffer that can be reached behind a call could be reached before, or is the one that
the call made under the next number. -/
theorem Changed.inUse (h : s.Changed s') :
    ∃ new : Buffer, new.id = s.made ∧
      ∀ b, s'.InUse b → s.InUse b ∨ (b = new ∧ s.made < s'.made) := by
  cases h with
  | same h => exact ⟨⟨s.made, #[]⟩, rfl, fun b hb => .inl (h ▸ hb)⟩
  | buffered bytes hbuffers hsegments hmade =>
    refine ⟨⟨s.made, bytes⟩, rfl, fun b hb => ?_⟩
    rw [InUse, hbuffers, hsegments, Array.mem_push] at hb
    obtain (hold | hnew) | hsegment := hb
    · exact .inl (.inl hold)
    · exact .inr ⟨hnew, by omega⟩
    · exact .inl (.inr hsegment)
  | emptied hbuffers hsegments hmade =>
    refine ⟨⟨s.made, #[]⟩, rfl, fun b hb => ?_⟩
    simp only [InUse, hbuffers, hsegments, Array.mem_push] at hb
    obtain hbuffer | ⟨t, hold | rfl, rfl⟩ := hb
    · exact .inl (.inl hbuffer)
    · exact .inl (.inr ⟨t, hold, rfl⟩)
    · exact .inr ⟨rfl, by omega⟩
  | @cut new _ hinUse hbuffers hsegments hmade =>
    refine ⟨⟨s.made, #[]⟩, rfl, fun b hb => .inl ?_⟩
    simp only [InUse, hbuffers, hsegments, Array.mem_push] at hb
    obtain hbuffer | ⟨t, hold | rfl, rfl⟩ := hb
    · exact .inl hbuffer
    · exact .inr ⟨t, hold, rfl⟩
    · exact hinUse

theorem Changed.made_le (h : s.Changed s') : s.made ≤ s'.made := by
  cases h with
  | same h => exact h ▸ Nat.le_refl _
  | buffered _ _ _ hmade => omega
  | emptied _ _ hmade => omega
  | cut _ _ _ _ hmade => omega

theorem Changed.within (h : s.Changed s') (hs : s.Sound) : ∀ t ∈ s'.segments, t.Within := by
  intro t ht
  cases h with
  | same h => exact hs.within t (h ▸ ht)
  | buffered _ _ hsegments _ => exact hs.within t (hsegments ▸ ht)
  | emptied _ hsegments _ =>
    rw [hsegments, Array.mem_push] at ht
    obtain hold | rfl := ht
    · exact hs.within t hold
    · exact Segment.within_empty _
  | cut hwithin _ _ hsegments _ =>
    rw [hsegments, Array.mem_push] at ht
    obtain hold | rfl := ht
    · exact hs.within t hold
    · exact hwithin

theorem Changed.sound (h : s.Changed s') (hs : s.Sound) : s'.Sound := by
  obtain ⟨new, hnew, hinUse⟩ := h.inUse
  have hmade := h.made_le
  refine ⟨h.within hs, fun b hb => ?_, fun b b' hb hb' hid => ?_⟩
  · obtain hold | ⟨rfl, hlt⟩ := hinUse b hb
    · have := hs.id_lt b hold
      omega
    · omega
  · obtain hold | ⟨rfl, -⟩ := hinUse b hb <;> obtain hold' | ⟨rfl, -⟩ := hinUse b' hb'
    · exact hs.eq_of_id_eq b b' hold hold' hid
    · have := hs.id_lt b hold
      omega
    · have := hs.id_lt b' hold'
      omega
    · rfl

theorem Sound.perform (hs : s.Sound) (c : Call) : (s.perform c).2.Sound := by
  rw [Cuts.perform]
  split
  next hcall => exact (hs.changed_of_call hcall).sound hs
  next => exact hs

theorem Sound.performAll (hs : s.Sound) (calls : List Call) : (s.performAll calls).2.Sound := by
  induction calls generalizing s with
  | nil => exact hs
  | cons c rest ih => exact ih (hs.perform c)

theorem Sound.fresh (hs : s.Sound) (bytes : Array UInt8) : s.Fresh ⟨s.made, bytes⟩ :=
  fun b hb => Nat.ne_of_lt (hs.id_lt b hb)

end Cuts

end ByteTrie
