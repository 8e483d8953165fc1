import Mathlib.Data.List.Infix

/-!
# Reading through a window

A reader of a sequence keeps a part of it in a buffer: what was read in one go. It takes items
from the buffer, moves what is left to the front and fills up when the buffer does not hold
enough, and goes to another place of the sequence inside the buffer or outside of it.
-/
namespace Window

variable {α : Type}

/-- The buffer shows the sequence from `start` on, the reader is at `offset` in it, and the buffer
will be filled up from `next`. -/
structure Shows (xs : List α) (start offset : Nat) (buffer : List α) (next : Nat) : Prop where
  shown : buffer <+: xs.drop start
  filled : next = start + buffer.length
  inside : offset ≤ buffer.length
  within : next ≤ xs.length

variable {xs buffer : List α} {start offset next : Nat}

theorem Shows.init (xs : List α) : Shows xs 0 0 [] 0 := ⟨List.nil_prefix, rfl, Nat.le_refl _, Nat.zero_le _⟩

/-- What is left in the buffer is what comes next in the sequence. -/
theorem Shows.ahead (h : Shows xs start offset buffer next) : buffer.drop offset <+: xs.drop (start + offset) := by
  have hdrop := h.shown.drop offset
  rwa [List.drop_drop] at hdrop

/-- Taking items from the buffer is taking them from the sequence. -/
theorem Shows.take (h : Shows xs start offset buffer next) {n : Nat} (hn : offset + n ≤ buffer.length) :
    (buffer.drop offset).take n = (xs.drop (start + offset)).take n ∧ Shows xs start (offset + n) buffer next := by
  have hlen : n ≤ (buffer.drop offset).length := by
    rw [List.length_drop]
    omega
  refine ⟨?_, h.shown, h.filled, hn, h.within⟩
  obtain ⟨more, hmore⟩ := h.ahead
  rw [← hmore, List.take_append_of_le_length hlen]

/-- Moving what is left to the front and filling up changes nothing for the reader. -/
theorem Shows.refill (h : Shows xs start offset buffer next) (n : Nat) :
    Shows xs (start + offset) 0 (buffer.drop offset ++ (xs.drop next).take n)
      (next + ((xs.drop next).take n).length) := by
  have hnext := h.filled
  have hinside := h.inside
  have hwithin := h.within
  have hleft : start + offset + (buffer.drop offset).length = next := by
    rw [List.length_drop]
    omega
  obtain ⟨more, hmore⟩ := h.ahead
  have hrest : more = xs.drop next := by
    rw [← hleft, ← List.drop_drop, ← hmore, List.drop_left]
  refine ⟨?_, ?_, Nat.zero_le _, ?_⟩
  · rw [← hmore, hrest]
    exact List.prefix_append_right_inj _ |>.mpr (List.take_prefix _ _)
  · rw [List.length_append]
    omega
  · simp only [List.length_take, List.length_drop]
    omega

/-- Going to a place inside the buffer. -/
theorem Shows.seek (h : Shows xs start offset buffer next) {n : Nat} (hn : n ≤ buffer.length) :
    Shows xs start n buffer next := ⟨h.shown, h.filled, hn, h.within⟩

/-- Going to a place with an empty buffer. -/
theorem Shows.jump {n : Nat} (hn : n ≤ xs.length) : Shows xs n 0 [] n :=
  ⟨List.nil_prefix, rfl, Nat.le_refl _, hn⟩

end Window
