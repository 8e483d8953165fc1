import LockDoc.Hypothesizer.Graph

/-!
# Which hypotheses are enumerated

`find_hypotheses_rek` calls `evaluate_hypothesis` on a list of hypotheses that depends on
the combination only, with repetitions where the combination has them. One depth after
the other, the calls run through all subsets of the combinations, and no depth adds
nothing below a depth that would add something.
-/
namespace LockDoc.Hypothesizer

open Worklist

/-- The hypotheses that `find_hypotheses_rek` evaluates, in order. -/
def calls : List MyId → List MyId → Nat → List (List MyId)
  | _, cur, 0 => [cur]
  | [], _, _ + 1 => []
  | lock :: locks, cur, depth + 1 =>
    (if lock ∈ cur then [] else calls locks (cur ++ [lock]) depth) ++ calls locks cur (depth + 1)

/-- The calls of one depth. -/
def callsAt (combinations : List LockCombination) (depth : Nat) : List (List MyId) :=
  combinations.flatMap (fun lc => calls lc.locksHeldSorted [] depth)

/-- The calls of all depths below a bound. -/
def callsBelow (combinations : List LockCombination) (bound : Nat) : List (List MyId) :=
  (List.range bound).flatMap (callsAt combinations)

/-- A sorted duplicate-free list of locks of one combination. -/
def InFamily (combinations : List LockCombination) (s : List MyId) : Prop :=
  s.Pairwise (· < ·) ∧ ∃ lc ∈ combinations, ∀ x ∈ s, x ∈ lc.locksHeld

theorem findHypothesesRek_eq (fuel : Nat) (locks cur : List MyId) (depth : Nat) (member : Member) :
    findHypothesesRek fuel locks cur depth member =
      (calls locks cur depth).foldlM (evaluateHypothesis fuel) member := by
  induction locks generalizing cur depth member with
  | nil =>
    cases depth with
    | zero => simp only [findHypothesesRek, calls, List.foldlM_cons, List.foldlM_nil, bind_pure]
    | succ depth => rfl
  | cons lock locks ih =>
    cases depth with
    | zero => simp only [findHypothesesRek, calls, List.foldlM_cons, List.foldlM_nil, bind_pure]
    | succ depth =>
      simp only [findHypothesesRek, calls, List.foldlM_append]
      split
      · simp [ih, pure, Except.pure, bind, Except.bind]
      · simp [ih]

theorem findAtDepth_eq (fuel : Nat) (member : Member) (depth : Nat) :
    findAtDepth fuel member depth =
      (callsAt member.combinations depth).foldlM (evaluateHypothesis fuel) member := by
  have main : ∀ (cs : List LockCombination) (m : Member),
      cs.foldlM (fun m lc => findHypothesesRek fuel lc.locksHeldSorted [] depth m) m =
        (callsAt cs depth).foldlM (evaluateHypothesis fuel) m := by
    intro cs
    induction cs with
    | nil => exact fun _ => rfl
    | cons lc cs ih =>
      intro m
      rw [List.foldlM_cons, callsAt, List.flatMap_cons, List.foldlM_append, findHypothesesRek_eq]
      congr
      funext u
      exact ih u
  exact main member.combinations member

/-- The recursion picks every duplicate-free selection of the remaining positions. -/
theorem mem_calls {locks cur s : List MyId} {depth : Nat} : s ∈ calls locks cur depth ↔
    ∃ t, s = cur ++ t ∧ t.length = depth ∧ t.Nodup ∧ (∀ x ∈ t, x ∉ cur) ∧ t.Sublist locks := by
  induction locks generalizing cur depth with
  | nil =>
    cases depth with
    | zero => simp [calls, List.length_eq_zero_iff]
    | succ depth =>
      simp only [calls, List.not_mem_nil, false_iff, List.sublist_nil]
      rintro ⟨t, -, ht, -, -, rfl⟩
      simp at ht
  | cons lock locks ih =>
    cases depth with
    | zero => simp [calls, List.length_eq_zero_iff]
    | succ depth =>
      simp only [calls, List.mem_append, ih]
      constructor
      · rintro (h | ⟨t, rfl, hlen, hnd, hcur, hsub⟩)
        · split at h
          · simp at h
          · rename_i hnew
            obtain ⟨t, rfl, hlen, hnd, hcur, hsub⟩ := ih.mp h
            refine ⟨lock :: t, by simp, by simp [hlen], ?_, ?_, hsub.cons_cons lock⟩
            · exact List.nodup_cons.mpr ⟨fun hm => hcur lock hm (by simp), hnd⟩
            · rintro x hx
              rcases List.mem_cons.mp hx with rfl | hx
              · exact hnew
              · exact fun hm => hcur x hx (List.mem_append_left _ hm)
        · exact ⟨t, rfl, hlen, hnd, hcur, hsub.cons lock⟩
      · rintro ⟨t, rfl, hlen, hnd, hcur, hsub⟩
        rcases List.sublist_cons_iff.mp hsub with hsub | ⟨r, rfl, hr⟩
        · exact .inr ⟨t, rfl, hlen, hnd, hcur, hsub⟩
        · left
          rw [if_neg (hcur lock List.mem_cons_self)]
          obtain ⟨hlr, hnr⟩ := List.nodup_cons.mp hnd
          refine ih.mpr ⟨r, by simp, by simpa using hlen, hnr, ?_, hr⟩
          intro x hx hm
          rcases List.mem_append.mp hm with hm | hm
          · exact hcur x (List.mem_cons_of_mem _ hx) hm
          · rw [List.mem_singleton.mp hm] at hx
            exact hlr hx

theorem mem_callsAt {cs : List LockCombination} {depth : Nat} {s : List MyId} :
    s ∈ callsAt cs depth ↔ InFamily cs s ∧ s.length = depth := by
  simp only [callsAt, List.mem_flatMap, mem_calls, List.nil_append]
  constructor
  · rintro ⟨lc, hlc, t, rfl, hlen, hnd, -, hsub⟩
    have hle : s.Pairwise (· ≤ ·) := (List.pairwise_insertionSort (· ≤ ·) lc.locksHeld).sublist hsub
    have hlt : s.Pairwise (· < ·) := hle.imp₂ (fun _ _ hab hne => Nat.lt_of_le_of_ne hab hne) hnd
    exact ⟨⟨hlt, lc, hlc, (LockCombination.sublist_sorted_iff hlt).mp hsub⟩, hlen⟩
  · rintro ⟨⟨hlt, lc, hlc, hheld⟩, hlen⟩
    exact ⟨lc, hlc, s, rfl, hlen, hlt.imp Nat.ne_of_lt, by simp, (LockCombination.sublist_sorted_iff hlt).mpr hheld⟩

theorem mem_callsBelow {cs : List LockCombination} {bound : Nat} {s : List MyId} :
    s ∈ callsBelow cs bound ↔ InFamily cs s ∧ s.length < bound := by
  simp only [callsBelow, List.mem_flatMap, List.mem_range, mem_callsAt]
  constructor
  · rintro ⟨d, hd, hf, rfl⟩
    exact ⟨hf, hd⟩
  · rintro ⟨hf, hd⟩
    exact ⟨s.length, hd, hf, rfl⟩

theorem callsBelow_succ (cs : List LockCombination) (bound : Nat) :
    callsBelow cs (bound + 1) = callsBelow cs bound ++ callsAt cs bound := by
  simp [callsBelow, List.range_succ]

theorem InFamily.sublist {cs : List LockCombination} {s t : List MyId} (h : InFamily cs s) (ht : t.Sublist s) :
    InFamily cs t := by
  obtain ⟨hlt, lc, hlc, hheld⟩ := h
  exact ⟨hlt.sublist ht, lc, hlc, fun x hx => hheld x (ht.subset hx)⟩

/-- No subset is longer than all combinations together. -/
theorem InFamily.length_le {cs : List LockCombination} {s : List MyId} (h : InFamily cs s) :
    s.length ≤ (cs.map (fun lc => lc.locksHeld.length)).sum := by
  obtain ⟨hlt, lc, hlc, hheld⟩ := h
  have hnd : s.Nodup := hlt.imp Nat.ne_of_lt
  have hle : s.length ≤ lc.locksHeld.length := (hnd.subperm hheld).length_le
  have hsum : lc.locksHeld.length ≤ (cs.map (fun lc => lc.locksHeld.length)).sum :=
    List.le_sum_of_mem (List.mem_map_of_mem hlc)
  omega

end LockDoc.Hypothesizer
