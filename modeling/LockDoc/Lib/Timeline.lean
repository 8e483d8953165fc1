import Mathlib

/-!
# Words along a timeline

A list whose elements carry increasing times, some of them with a letter. A word can be
picked from it in temporal order if it is a sublist of its letters; the rules take such a
word apart from the front, and say when its letters alone determine it.
-/
namespace Timeline

variable {α β : Type} {time : α → Nat} {f : α → Option β}

/-- A word is picked by picking its first letter and, later, the rest. -/
theorem cons_sublist_iff {xs : List α} (hx : xs.Pairwise (fun x y => time x < time y)) {b : β} {bs : List β} :
    (b :: bs).Sublist (xs.filterMap f) ↔
      ∃ x ∈ xs, f x = some b ∧ bs.Sublist ((xs.filter (fun y => time x < time y)).filterMap f) := by
  induction xs with
  | nil => simp
  | cons x xs ih =>
    obtain ⟨hlt, hx⟩ := List.pairwise_cons.mp hx
    have hself : (x :: xs).filter (fun y => time x < time y) = xs := by
      rw [List.filter_cons_of_neg (by simp), List.filter_eq_self]
      simpa using hlt
    have hlater : ∀ y ∈ xs, (x :: xs).filter (fun z => time y < time z) = xs.filter (fun z => time y < time z) := by
      intro y hy
      have := hlt y hy
      rw [List.filter_cons_of_neg (by simp; omega)]
    have hrest : (∃ y ∈ xs, f y = some b ∧ bs.Sublist (((x :: xs).filter (fun z => time y < time z)).filterMap f)) ↔
        (b :: bs).Sublist (xs.filterMap f) := by
      rw [ih hx]
      refine exists_congr fun y => and_congr_right fun hy => ?_
      rw [hlater y hy]
    simp only [List.exists_mem_cons_iff, hself, hrest]
    cases hf : f x with
    | none => simp [List.filterMap_cons_none hf]
    | some c =>
      rw [List.filterMap_cons_some hf, List.cons_sublist_cons']
      simp only [Option.some.injEq]
      rw [or_comm, eq_comm]

/-- No two different letters occur in both orders. -/
def OneOrder (l : List β) : Prop := ∀ a b, a ≠ b → [a, b].Sublist l → ¬[b, a].Sublist l

/-- Words of the same letters are equal if no two letters occur in both orders. -/
theorem OneOrder.eq_of_perm {l g h : List β} (hl : OneOrder l) (hg : g.Sublist l) (hh : h.Sublist l)
    (hp : g.Perm h) : g = h := by
  have hpair : ∀ {k : List β}, k.Sublist l → k.Pairwise (fun a b => [a, b].Sublist l) := by
    intro k hk
    rw [List.pairwise_iff_forall_sublist]
    exact fun hab => hab.trans hk
  refine hp.eq_of_pairwise ?_ (hpair hg) (hpair hh)
  intro a b _ _ hab hba
  by_contra hne
  exact hl a b hne hab hba

end Timeline
