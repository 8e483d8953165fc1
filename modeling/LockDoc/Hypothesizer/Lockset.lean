import LockDoc.Hypothesizer.Antimonotone

/-!
# The lockset strategy

The callback follows the hypotheses that every access supports in one and the same lock
order. All parts of such a hypothesis are supported in the same way, so each of them is
reached through its parts, one lock after the other, and the longest ones are left in the
conflict list. The quotients of the source are doubles, which tell full support from less as
long as the accesses of the member fit into the 53 bits of a double.
-/
namespace LockDoc.Hypothesizer

open Worklist

/-- The fully supported hypotheses are expanded, and the longest of them are listed. -/
structure AllHeld (member₀ member : Member) (maxHypoLen : Nat) (seen expanded : List (List MyId)) (s : Search) :
    Prop where
  full : ∀ x, x ∈ expanded ↔ x ∈ seen ∧ member.orderedSupport x = 1
  enumerated : ∀ x ∈ seen, Enumerated member₀ maxHypoLen x
  found : s.winnerFound = true
  longest : ListsLongest member s ([] :: expanded)

section

variable {member₀ member : Member} {maxHypoLen : Nat}
  (hb : Built member₀ member (Enumerated member₀ maxHypoLen)) (ho : member₀.Observed)

include hb ho

/-- One hypothesis that is at least as long as all before it. -/
theorem AllHeld.step {seen expanded : List (List MyId)} {s : Search} {x : List MyId}
    (h : AllHeld member₀ member maxHypoLen seen expanded s) (hx : Enumerated member₀ maxHypoLen x)
    (hle : ∀ e ∈ seen, e.length ≤ x.length) :
    ∃ t, (evaluateHypothesisLockset member s x (member.bestOrder x) (member.orderedSupport x) =
          (t, member.graph.children x) ∧ AllHeld member₀ member maxHypoLen (seen ++ [x]) (expanded ++ [x]) t) ∨
      (evaluateHypothesisLockset member s x (member.bestOrder x) (member.orderedSupport x) = (t, []) ∧
        AllHeld member₀ member maxHypoLen (seen ++ [x]) expanded t) := by
  have henum : ∀ e ∈ seen ++ [x], Enumerated member₀ maxHypoLen e := forall_mem_concat.mpr ⟨h.enumerated, hx⟩
  unfold evaluateHypothesisLockset
  by_cases hlt : member.orderedSupport x < 1
  · rw [if_pos hlt]
    refine ⟨s, .inr ⟨rfl, ?_, henum, h.found, h.longest⟩⟩
    intro e
    rw [h.full, List.mem_append, List.mem_singleton]
    constructor
    · rintro ⟨he, hs⟩
      exact ⟨.inl he, hs⟩
    · rintro ⟨he | rfl, hs⟩
      · exact ⟨he, hs⟩
      · exact absurd hs (ne_of_lt hlt)
  · rw [if_neg hlt]
    have hone : member.orderedSupport x = 1 := le_antisymm (hb.orderedSupport_le_one ho hx) (not_lt.mp hlt)
    have hfull : ∀ e, e ∈ expanded ++ [x] ↔ e ∈ seen ++ [x] ∧ member.orderedSupport e = 1 := by
      intro e
      rw [List.mem_append, List.mem_append, h.full, List.mem_singleton, or_and_right]
      refine or_congr_right ⟨fun he => ⟨he, he ▸ hone⟩, And.left⟩
    -- The candidates are no longer than the hypothesis.
    have hcand : ∀ c ∈ [] :: expanded, Enumerated member₀ maxHypoLen c ∧ c.length ≤ x.length := by
      intro c hc
      rcases List.mem_cons.mp hc with rfl | hc
      · exact ⟨ho.enumerated_nil, Nat.zero_le _⟩
      · have := ((h.full c).mp hc).1
        exact ⟨h.enumerated c this, hle c this⟩
    obtain ⟨c, hc, hsize, hmax⟩ := h.longest.frontSize
    have hcx := (hcand c hc).2
    by_cases hequal : s.frontSize = x.length
    · rw [if_pos hequal]
      refine ⟨_, .inl ⟨rfl, hfull, henum, ?_, ?_⟩⟩
      · rw [Search.save_found]
        exact h.found
      · exact h.longest.save hequal fun d hd => hb.bestOrder_inj ho (hcand d hd).1 hx
    · rw [if_neg hequal, if_pos (by omega)]
      refine ⟨_, .inl ⟨rfl, hfull, henum, rfl, ?_⟩⟩
      refine @listsLongest_replace member s ([] :: expanded) x fun d hd => ?_
      have := hmax d hd
      omega

/-- Every fully supported hypothesis is seen: it is a child of one with a lock less. -/
theorem AllHeld.complete {seen expanded : List (List MyId)} {s : Search}
    (h : AllHeld member₀ member maxHypoLen seen expanded s)
    (hsearch : Searched member.graph.children (member.graph.children Member.rootNode) seen expanded) {x : List MyId}
    (hx : Enumerated member₀ maxHypoLen x) (hone : member.orderedSupport x = 1) : x = [] ∨ x ∈ expanded := by
  induction hn : x.length generalizing x with
  | zero => exact .inl (List.length_eq_zero_iff.mp hn)
  | succ n ih =>
    have hne : x ≠ [] := List.ne_nil_of_length_eq_add_one hn
    have hsub : x.dropLast.Sublist x := List.dropLast_sublist x
    have hpart := hx.sublist hsub
    have hpone : member.orderedSupport x.dropLast = 1 := by
      refine le_antisymm (hb.orderedSupport_le_one ho hpart) ?_
      rw [← hone]
      exact hb.orderedSupport_le hx hsub
    have hchild := hb.mem_children_dropLast hx hne
    refine .inr ((h.full x).mpr ⟨?_, hone⟩)
    rcases ih hpart hpone (by rw [List.length_dropLast, hn]; rfl) with hroot | hexp
    · rw [hroot] at hchild
      exact hsearch.start x hchild
    · exact hsearch.below _ hexp x hchild

end

section

variable {member₀ member : Member} {maxHypoLen : Nat}
  (hb : Built member₀ member (Enumerated member₀ maxHypoLen)) (ho : member₀.Observed)
  (hsmall : member₀.occurrences ≤ 2 ^ 53)

include hb ho hsmall

end

end LockDoc.Hypothesizer
