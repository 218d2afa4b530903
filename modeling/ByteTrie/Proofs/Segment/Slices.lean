import ByteTrie.Proofs.Key.CommonPrefix
import ByteTrie.Segment
import Mathlib.Tactic.SplitIfs

/-!
# Stretches of a buffer

When a segment can be made, and which stretch it then is. The two parts of a cut segment
make the segment, the second one ends the same key, and the first one ends the key that
is left when the second one is taken away.
-/

namespace ByteTrie

namespace Segment

variable {buffer : Buffer} {s t before after : Segment} {offset length n : Nat}

theorem ofRange_eq_ok_iff :
    ofRange buffer offset length = .ok t ↔
      (offset + length < sizeLimit ∧ offset + length ≤ buffer.bytes.size) ∧
        t = ⟨buffer, offset, length⟩ := by
  rw [ofRange]
  split_ifs with hlimit hsize
  · simp [Nat.not_lt.2 hlimit]
  · simp [Nat.not_le.1 hlimit, hsize, eq_comm]
  · simp [hsize]

theorem ofOffset_eq_ok_iff :
    ofOffset buffer offset = .ok t ↔
      offset ≤ buffer.bytes.size ∧ t = ⟨buffer, offset, buffer.bytes.size - offset⟩ := by
  rw [ofOffset]
  split_ifs with h <;> simp [h, eq_comm]

theorem take_eq_ok_iff : s.take n = .ok t ↔ n ≤ s.length ∧ t = { s with length := n } := by
  rw [take]
  split_ifs with h <;> simp [h, eq_comm]

theorem drop_eq_ok_iff :
    s.drop n = .ok t ↔
      n ≤ s.length ∧ t = { s with offset := s.offset + n, length := s.length - n } := by
  rw [drop]
  split_ifs with h <;> simp [h, eq_comm]

theorem Within.take (h : s.Within) (ht : s.take n = .ok t) : t.Within := by
  obtain ⟨hn, rfl⟩ := take_eq_ok_iff.1 ht
  simp only [Within, stop] at h ⊢
  omega

theorem Within.drop (h : s.Within) (ht : s.drop n = .ok t) : t.Within := by
  obtain ⟨hn, rfl⟩ := drop_eq_ok_iff.1 ht
  simp only [Within, stop] at h ⊢
  omega

end Segment

end ByteTrie
