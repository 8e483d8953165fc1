import Mathlib

/-!
# Greedy coverage

A family of finite sets is covered by taking, again and again, a set that has the most elements
beyond what the sets before have. Gains fall in such a run, and what it leaves uncovered shrinks by
the factor that the size of any cover gives.
-/
namespace Greedy

variable {ι α : Type} [DecidableEq α]

/-- What a run of choices covers. -/
def covered (s : ι → Finset α) : List ι → Finset α
  | [] => ∅
  | i :: run => s i ∪ covered s run

/-- The elements that one more set adds. -/
def gain (s : ι → Finset α) (seen : Finset α) (i : ι) : Nat := (s i \ seen).card

/-- Every choice has the greatest gain of all sets at that time. -/
inductive Run (s : ι → Finset α) (family : Finset ι) : Finset α → List ι → Prop where
  | nil (seen : Finset α) : Run s family seen []
  | cons {seen : Finset α} {i : ι} {rest : List ι} (mem : i ∈ family)
      (greatest : ∀ j ∈ family, gain s seen j ≤ gain s seen i)
      (next : Run s family (seen ∪ s i) rest) : Run s family seen (i :: rest)

variable {s : ι → Finset α} {family : Finset ι}

theorem mem_covered {run : List ι} {a : α} : a ∈ covered s run ↔ ∃ i ∈ run, a ∈ s i := by
  induction run with
  | nil => simp [covered]
  | cons i run ih => simp [covered, ih]

/-- A set that was seen more of gains less. -/
theorem gain_anti {seen seen' : Finset α} (h : seen ⊆ seen') (i : ι) : gain s seen' i ≤ gain s seen i :=
  Finset.card_le_card (Finset.sdiff_subset_sdiff (Finset.Subset.refl _) h)

theorem card_union_gain (seen : Finset α) (i : ι) : (seen ∪ s i).card = seen.card + gain s seen i := by
  rw [← Finset.union_sdiff_self_eq_union, Finset.card_union_of_disjoint Finset.disjoint_sdiff, gain]

namespace Run

theorem take {seen : Finset α} {run : List ι} (h : Run s family seen run) (k : Nat) : Run s family seen (run.take k) := by
  induction h generalizing k with
  | nil => simpa using .nil _
  | cons mem greatest next ih =>
    cases k with
    | zero => exact .nil _
    | succ k => exact .cons mem greatest (ih k)

/-- One choice, against a cover of `cover.card` sets: what is left is at most what was left, less
its share. -/
theorem step_bound {seen : Finset α} {i : ι} {cover : Finset ι} (hcover : cover ⊆ family)
    (hall : family.biUnion s ⊆ cover.biUnion s) (hmem : i ∈ family)
    (hgreatest : ∀ j ∈ family, gain s seen j ≤ gain s seen i) :
    cover.card * (family.biUnion s \ (seen ∪ s i)).card ≤ (cover.card - 1) * (family.biUnion s \ seen).card := by
  have hshare : (family.biUnion s \ seen).card ≤ cover.card * gain s seen i := by
    calc (family.biUnion s \ seen).card
        ≤ (cover.biUnion fun j => s j \ seen).card := by
          refine Finset.card_le_card fun a ha => ?_
          obtain ⟨hmem, hseen⟩ := Finset.mem_sdiff.mp ha
          obtain ⟨j, hj, haj⟩ := Finset.mem_biUnion.mp (hall hmem)
          exact Finset.mem_biUnion.mpr ⟨j, hj, Finset.mem_sdiff.mpr ⟨haj, hseen⟩⟩
      _ ≤ ∑ j ∈ cover, gain s seen j := Finset.card_biUnion_le
      _ ≤ cover.card * gain s seen i := by
          rw [← smul_eq_mul]
          exact Finset.sum_le_card_nsmul _ _ _ fun j hj => hgreatest j (hcover hj)
  have hleft : (family.biUnion s \ (seen ∪ s i)).card + gain s seen i = (family.biUnion s \ seen).card := by
    have hsub : s i \ seen ⊆ family.biUnion s \ seen :=
      Finset.sdiff_subset_sdiff (Finset.subset_biUnion_of_mem s hmem) (Finset.Subset.refl _)
    have hrest : family.biUnion s \ (seen ∪ s i) = (family.biUnion s \ seen) \ (s i \ seen) := by
      ext a
      simp only [Finset.mem_sdiff, Finset.mem_union]
      tauto
    rw [hrest, gain, Finset.card_sdiff_add_card_eq_card hsub]
  rcases Nat.eq_zero_or_pos cover.card with hzero | hpos
  · simp [hzero]
  · obtain ⟨m, hm⟩ : ∃ m, cover.card = m + 1 := ⟨cover.card - 1, by omega⟩
    rw [hm] at hshare ⊢
    rw [Nat.add_sub_cancel]
    nlinarith

/-- After a run of any length, what is left is bounded by any cover of the family. -/
theorem bound {seen : Finset α} {run : List ι} (h : Run s family seen run) {cover : Finset ι} (hcover : cover ⊆ family)
    (hall : family.biUnion s ⊆ cover.biUnion s) :
    cover.card ^ run.length * (family.biUnion s \ (seen ∪ covered s run)).card ≤
      (cover.card - 1) ^ run.length * (family.biUnion s \ seen).card := by
  induction h with
  | nil seen => simp [covered]
  | @cons seen i rest mem greatest next ih =>
    have hstep := step_bound hcover hall mem greatest
    rw [covered, ← Finset.union_assoc, List.length_cons]
    calc cover.card ^ (rest.length + 1) * (family.biUnion s \ (seen ∪ s i ∪ covered s rest)).card
        = cover.card * (cover.card ^ rest.length * (family.biUnion s \ (seen ∪ s i ∪ covered s rest)).card) := by ring
      _ ≤ cover.card * ((cover.card - 1) ^ rest.length * (family.biUnion s \ (seen ∪ s i)).card) :=
          Nat.mul_le_mul_left _ ih
      _ = (cover.card - 1) ^ rest.length * (cover.card * (family.biUnion s \ (seen ∪ s i)).card) := by ring
      _ ≤ (cover.card - 1) ^ rest.length * ((cover.card - 1) * (family.biUnion s \ seen).card) :=
          Nat.mul_le_mul_left _ hstep
      _ = (cover.card - 1) ^ (rest.length + 1) * (family.biUnion s \ seen).card := by ring

end Run

end Greedy
