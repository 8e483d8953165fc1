import LockDoc.Hypothesizer.Search

/-!
# The sharpen strategy

The winner of the moment is replaced by a longer hypothesis whose support is not too much
smaller, or by an equally long one with more support. Hypotheses are looked at in the order
of their length, so the children of the last winner come after it, and none of them is
acceptable.
-/
namespace LockDoc.Hypothesizer

open Worklist

/-- The hypothesis in front, with what its support has to be and what its children, as far
as they have been seen, are not. -/
structure Sharpest (member₀ member : Member) (maxHypoLen : Nat) (factor : ℚ) (seen expanded : List (List MyId))
    (s : Search) (w : List MyId) : Prop where
  front : ∃ rest, s.conflictList = (w, member.bestOrder w) :: rest
  found : s.winnerFound = true
  source : w = [] ∨ w ∈ expanded
  enumerated : Enumerated member₀ maxHypoLen w
  support : member.orderedSupport w = s.relSupportWinner
  bound : (1 - factor) ^ w.length ≤ s.relSupportWinner
  children : ∀ x ∈ seen, x ∈ member.graph.children w → member.orderedSupport x < (1 - factor) * s.relSupportWinner

section

variable {member₀ member : Member} {maxHypoLen : Nat} {factor : ℚ}
  (hb : Built member₀ member (Enumerated member₀ maxHypoLen)) (ho : member₀.Observed)

include hb ho

omit ho in
/-- A hypothesis that takes the front has no children among those before it. -/
theorem sharpest_replace {seen expanded : List (List MyId)} {s : Search} {x : List MyId}
    (hx : Enumerated member₀ maxHypoLen x) (hle : ∀ e ∈ seen, e.length ≤ x.length)
    (hbound : (1 - factor) ^ x.length ≤ member.orderedSupport x) :
    Sharpest member₀ member maxHypoLen factor (seen ++ [x]) (expanded ++ [x])
      { s.replace x (member.bestOrder x) with relSupportWinner := member.orderedSupport x } x where
  front := ⟨[], rfl⟩
  found := rfl
  source := .inr (by simp)
  enumerated := hx
  support := rfl
  bound := hbound
  children := by
    have hlong : ∀ e, e ∈ member.graph.children x → x.length < e.length := by
      intro e hc
      have := ((hb.graph x e).mp hc).2.length
      omega
    refine forall_mem_concat.mpr ⟨fun e he hc => ?_, fun hc => absurd (hlong x hc) (Nat.lt_irrefl _)⟩
    exact absurd (hle e he) (Nat.not_le.mpr (hlong e hc))

/-- One hypothesis that is at least as long as all before it. -/
theorem Sharpest.step (hf₀ : 0 ≤ factor) (hf₁ : factor ≤ 1) {seen expanded : List (List MyId)} {s : Search}
    {w x : List MyId} (h : Sharpest member₀ member maxHypoLen factor seen expanded s w)
    (hsub : ∀ p ∈ expanded, p ∈ seen) (hx : Enumerated member₀ maxHypoLen x) (hle : ∀ e ∈ seen, e.length ≤ x.length) :
    ∃ t, (evaluateHypothesisSharpen factor member s x (member.bestOrder x) (member.orderedSupport x) =
          (t, member.graph.children x) ∧
        ∃ w', Sharpest member₀ member maxHypoLen factor (seen ++ [x]) (expanded ++ [x]) t w') ∨
      (evaluateHypothesisSharpen factor member s x (member.bestOrder x) (member.orderedSupport x) = (t, []) ∧
        ∃ w', Sharpest member₀ member maxHypoLen factor (seen ++ [x]) expanded t w') := by
  obtain ⟨rest, hfront⟩ := h.front
  have hsize : s.frontSize = w.length := by simp [Search.frontSize, hfront]
  have hw : w.length ≤ x.length := by
    rcases h.source with rfl | hm
    · exact Nat.zero_le _
    · exact hle w (hsub w hm)
  have hpos : 0 < s.relSupportWinner := by
    rw [← h.support]
    exact hb.orderedSupport_pos ho h.enumerated
  have hq₀ : 0 ≤ 1 - factor := by linarith
  have hq₁ : 1 - factor ≤ 1 := by linarith
  have hdelta : 1 - member.orderedSupport x / s.relSupportWinner ≤ factor ↔
      (1 - factor) * s.relSupportWinner ≤ member.orderedSupport x := by
    rw [sub_le_comm, le_div_iff₀ hpos]
  unfold evaluateHypothesisSharpen
  simp only [hdelta, hsize]
  by_cases hequal : w.length = x.length ∧ member.orderedSupport x = s.relSupportWinner
  · rw [if_pos hequal]
    obtain ⟨rest', hfront'⟩ := @Search.save_front s w _ x (member.bestOrder x) rest hfront
    refine ⟨_, .inl ⟨rfl, w, ⟨rest', hfront'⟩, ?_, ?_, h.enumerated, ?_, ?_, ?_⟩⟩
    · rw [Search.save_found]
      exact h.found
    · exact h.source.imp_right (List.mem_append_left _)
    · rw [Search.save_support]
      exact h.support
    · rw [Search.save_support]
      exact h.bound
    · rw [Search.save_support]
      refine forall_mem_concat.mpr ⟨h.children, fun hc => ?_⟩
      have hlen := ((hb.graph w x).mp hc).2.length
      omega
  · rw [if_neg hequal]
    by_cases hbetter : (w.length = x.length ∧ s.relSupportWinner < member.orderedSupport x) ∨
        (w.length < x.length ∧ (member.orderedSupport x = s.relSupportWinner ∨
          (1 - factor) * s.relSupportWinner ≤ member.orderedSupport x))
    · rw [if_pos hbetter]
      refine ⟨_, .inl ⟨rfl, x, sharpest_replace hb hx hle ?_⟩⟩
      rcases hbetter with ⟨hlen, hmore⟩ | ⟨hlen, hsupp⟩
      · rw [← hlen]
        exact le_trans h.bound (le_of_lt hmore)
      · have hkeep : (1 - factor) * s.relSupportWinner ≤ member.orderedSupport x := by
          rcases hsupp with heq | hsupp
          · rw [heq]
            exact mul_le_of_le_one_left (le_of_lt hpos) hq₁
          · exact hsupp
        calc (1 - factor) ^ x.length ≤ (1 - factor) ^ (w.length + 1) := pow_le_pow_of_le_one hq₀ hq₁ hlen
          _ = (1 - factor) * (1 - factor) ^ w.length := pow_succ' _ _
          _ ≤ (1 - factor) * s.relSupportWinner := mul_le_mul_of_nonneg_left h.bound hq₀
          _ ≤ member.orderedSupport x := hkeep
    · rw [if_neg hbetter]
      refine ⟨s, .inr ⟨rfl, w, h.front, h.found, h.source, h.enumerated, h.support, h.bound, ?_⟩⟩
      refine forall_mem_concat.mpr ⟨h.children, fun hc => ?_⟩
      -- A child that is looked at is longer, and was turned down for its support.
      have hlen := ((hb.graph w x).mp hc).2.length
      by_contra hge
      exact hbetter (.inr ⟨by omega, .inr (not_lt.mp hge)⟩)

end

/-- The winner of the sharpen strategy loses at most the reduction factor for each of its
locks, and none of its children in the graph is acceptable. -/
theorem sharpen_guarantees (member : Member) (maxHypoLen : Nat) (factor : ℚ) (ho : member.Observed)
    (hf₀ : 0 ≤ factor) (hf₁ : factor ≤ 1) :
    ∃ found winner w, Yields (fun n => findHypotheses n member maxHypoLen) found ∧
      Yields (fun n => selectWinner n (.sharpen factor) found) winner ∧ winner.winnerFound = true ∧
      (∃ rest, winner.conflictList = (w, winner.winningHypothesis) :: rest) ∧ w ∈ found.hypotheses ∧
      (found.hypotheses.getD w {}).IsMostFrequent winner.winningHypothesis ∧
      (1 - factor) ^ w.length ≤ found.orderedSupport w ∧
      ∀ child ∈ found.graph.children w, ¬(1 - factor) * found.orderedSupport w ≤ found.orderedSupport child := by
  obtain ⟨-, found, hy, -, -, hb⟩ := findHypotheses_yields ho.fresh maxHypoLen
  have hfirst : Sharpest member found maxHypoLen factor [] [] Search.first [] := by
    refine ⟨⟨[], ?_⟩, rfl, .inl rfl, ho.enumerated_nil, hb.orderedSupport_nil ho, ?_, by simp⟩
    · simp [Search.first, Member.rootNode, hb.bestOrder_nil ho]
    · simp [Search.first]
  obtain ⟨seen, expanded, t, hrun, hsearch, w, hI⟩ := hb.search_yields
    (I := fun seen expanded s => ∃ w, Sharpest member found maxHypoLen factor seen expanded s w)
    (fun seen expanded s x hI hsub hx hle => by
      obtain ⟨w, hI⟩ := hI
      exact hI.step hb ho hf₀ hf₁ hsub hx hle)
    (fun x hx => hb.children_root hx) ⟨[], hfirst⟩
  obtain ⟨rest, hfront⟩ := hI.front
  have hwin : (found.decided t).winningHypothesis = found.bestOrder w := by
    simp [Member.decided, hI.found, hfront]
  refine ⟨found, _, w, hy, determine_yields hrun, hI.found, ⟨rest, ?_⟩, (hb.keys w).mpr hI.enumerated, ?_, ?_, ?_⟩
  · rw [hwin]
    exact hfront
  · rw [hwin]
    exact hb.bestOrder_mostFrequent ho hI.enumerated
  · rw [hI.support]
    exact hI.bound
  · intro child hchild
    have hseen : child ∈ seen := by
      rcases hI.source with rfl | hexp
      · exact hsearch.start child hchild
      · exact hsearch.below w hexp child hchild
    rw [hI.support]
    exact not_le.mpr (hI.children child hseen hchild)

theorem oneLock_sharpen : ∃ found winner w, Yields (fun n => findHypotheses n oneLock 0) found ∧
    Yields (fun n => selectWinner n (.sharpen (1 / 10)) found) winner ∧ winner.winnerFound = true ∧
    (∃ rest, winner.conflictList = (w, winner.winningHypothesis) :: rest) ∧
    (1 - 1 / 10 : ℚ) ^ w.length ≤ found.orderedSupport w ∧
    ∀ child ∈ found.graph.children w, ¬(1 - 1 / 10 : ℚ) * found.orderedSupport w ≤ found.orderedSupport child := by
  obtain ⟨found, winner, w, hf, hw, hfound, hfront, -, -, hbound, hchild⟩ :=
    sharpen_guarantees oneLock 0 (1 / 10) oneLock_observed (by norm_num) (by norm_num)
  exact ⟨found, winner, w, hf, hw, hfound, hfront, hbound, hchild⟩

end LockDoc.Hypothesizer
