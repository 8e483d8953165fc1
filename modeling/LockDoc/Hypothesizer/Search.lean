import LockDoc.Hypothesizer.Select
import LockDoc.Hypothesizer.Support

/-!
# What the search compares

The relative support that `determine_winning_hypothesis` hands to its callbacks is the
ordered support of the hypothesis. It is 1 for the empty hypothesis, positive, and never
grows when locks are added. The search visits hypotheses in the order of their length.
-/
namespace LockDoc.Hypothesizer

open Worklist

/-- A member as it is after reading the input, with accesses in every combination. -/
structure Member.Observed (member : Member) : Prop where
  fresh : member.Fresh
  some : member.combinations ≠ []
  positive : ∀ lc ∈ member.combinations, 1 ≤ lc.occurrences
  occurrences : member.occurrences = occurrencesOf member.combinations (fun _ => true)

theorem entryOf_positive {ms : List Mention} {key : MemberKey} (hpos : ∀ m ∈ ms, m.key = key → 1 ≤ m.occurrences)
    {held : List MyId} {n : Nat} (h : (entryOf ms key).combinations[held]? = some n) : 1 ≤ n := by
  induction ms using List.reverseRecOn generalizing held n with
  | nil => simp [entryOf, Entry.new] at h
  | append_singleton ms m ih =>
    have ih := fun {held n} => @ih (fun x hx => hpos x (List.mem_append_left _ hx)) held n
    rw [entryOf_append] at h
    split at h
    · rename_i hk
      have := hpos m (by simp) hk
      simp only [Entry.add, Std.ExtTreeMap.getElem?_insert] at h
      split at h
      · cases h
        omega
      · exact ih h
    · exact ih h

/-- The members of a file have been observed, if every line counts some accesses. -/
theorem Loaded.observed {lines : List (List Char)} {input : Input} (h : Loaded lines input)
    (hpos : ∀ d ∈ parsed lines, 1 ≤ d.occurrences) {e : Entry} (he : e ∈ input.members) : e.member.Observed := by
  have hm := h.counts he
  refine ⟨hm.fresh, ?_, ?_, hm.all.symm⟩
  · obtain ⟨m, hmm, hk⟩ := (h.mem_keys e.key).mp ⟨e, he, rfl⟩
    obtain ⟨lc, hlc, -⟩ := (hm.combinations m.locksHeld).mpr ⟨m, hmm, hk, rfl⟩
    exact List.ne_nil_of_mem hlc
  · rw [h.members] at he
    obtain ⟨key, -, rfl⟩ := List.mem_map.mp he
    intro lc hlc
    rw [Entry.copy, (entryOf_counts _ key).uncopied, List.nil_append] at hlc
    obtain ⟨⟨held, n⟩, hkv, rfl⟩ := List.mem_map.mp hlc
    refine entryOf_positive (fun m hm _ => ?_) (Std.ExtTreeMap.mem_toList_iff_getElem?_eq_some.mp hkv)
    obtain ⟨d, hd, hm⟩ := List.mem_flatMap.mp hm
    obtain ⟨element, -, rfl⟩ := List.mem_map.mp hm
    exact hpos d hd

theorem foldr_max_le {xs : List Nat} {x : Nat} (hx : x ∈ xs) : x ≤ xs.foldr max 0 := by
  induction xs with
  | nil => cases hx
  | cons y ys ih =>
    rw [List.foldr_cons]
    rcases List.mem_cons.mp hx with rfl | hx
    · exact Nat.le_max_left _ _
    · exact Nat.le_trans (ih hx) (Nat.le_max_right _ _)

theorem foldr_max_mem {xs : List Nat} (h : xs.foldr max 0 ≠ 0) : xs.foldr max 0 ∈ xs := by
  induction xs with
  | nil => exact absurd rfl h
  | cons y ys ih =>
    rw [List.foldr_cons] at h ⊢
    rcases Nat.le_total y (ys.foldr max 0) with hle | hle
    · rw [Nat.max_eq_right hle] at h ⊢
      exact List.mem_cons_of_mem _ (ih h)
    · rw [Nat.max_eq_left hle]
      exact List.mem_cons_self

namespace LockingHypothesisMatches

theorem le_largest (m : LockingHypothesisMatches) (v : List MyId) : m.orderMatches.getD v 0 ≤ m.largest := by
  rw [OrdMap.getD_eq]
  cases hv : m.orderMatches[v]? with
  | none => exact Nat.zero_le _
  | some n =>
    refine foldr_max_le (List.mem_map.mpr ⟨(v, n), ?_, rfl⟩)
    exact Std.ExtTreeMap.mem_toList_iff_getElem?_eq_some.mpr hv

theorem exists_largest (m : LockingHypothesisMatches) : ∃ v, m.orderMatches.getD v 0 = m.largest := by
  by_cases h : m.largest = 0
  · exact ⟨[], Nat.le_antisymm (m.le_largest []) (by omega)⟩
  · obtain ⟨⟨v, n⟩, hm, he⟩ := List.mem_map.mp (foldr_max_mem h)
    refine ⟨v, ?_⟩
    rw [OrdMap.getD_eq, Std.ExtTreeMap.mem_toList_iff_getElem?_eq_some.mp hm]
    exact he

/-- The loop over the lock orders keeps its first value, or ends at the first entry that
exceeds all others. -/
theorem foldl_most (xs : List (List MyId × Nat)) (b : Nat × List MyId) :
    let r := xs.foldl (fun best m => if best.1 < m.2 then (m.2, m.1) else best) b
    (r = b ∧ ∀ x ∈ xs, x.2 ≤ b.1) ∨
      ∃ before after, xs = before ++ (r.2, r.1) :: after ∧ (∀ x ∈ before, x.2 < r.1) ∧ (∀ x ∈ after, x.2 ≤ r.1) ∧
        b.1 < r.1 := by
  induction xs generalizing b with
  | nil => exact .inl ⟨rfl, by simp⟩
  | cons x xs ih =>
    simp only [List.foldl_cons]
    by_cases hx : b.1 < x.2
    · rw [if_pos hx]
      rcases ih (x.2, x.1) with ⟨hr, hle⟩ | ⟨before, after, hxs, hb, ha, hlt⟩
      · rw [hr]
        exact .inr ⟨[], xs, rfl, by simp, hle, hx⟩
      · refine .inr ⟨x :: before, after, by rw [List.cons_append, ← hxs], ?_, ha, Nat.lt_trans hx hlt⟩
        intro y hy
        rcases List.mem_cons.mp hy with rfl | hy
        · exact hlt
        · exact hb y hy
    · rw [if_neg hx]
      rcases ih b with ⟨hr, hle⟩ | ⟨before, after, hxs, hb, ha, hlt⟩
      · refine .inl ⟨hr, ?_⟩
        intro y hy
        rcases List.mem_cons.mp hy with rfl | hy
        · exact Nat.le_of_not_lt hx
        · exact hle y hy
      · refine .inr ⟨x :: before, after, by rw [List.cons_append, ← hxs], ?_, ha, hlt⟩
        intro y hy
        rcases List.mem_cons.mp hy with rfl | hy
        · exact Nat.lt_of_le_of_lt (Nat.le_of_not_lt hx) hlt
        · exact hb y hy

/-- The most frequent lock order, the lexicographically first one of several. -/
structure IsMostFrequent (m : LockingHypothesisMatches) (order : List MyId) : Prop where
  observed : order ∈ m.orderMatches
  largest : m.orderMatches.getD order 0 = m.largest
  first : ∀ v ∈ m.orderMatches, m.orderMatches.getD v 0 = m.largest → v = order ∨ compare order v = .lt

theorem largest_eq {m : LockingHypothesisMatches} {v : List MyId} {n : Nat} (h : (v, n) ∈ m.orderMatches.toList)
    (hmax : ∀ x ∈ m.orderMatches.toList, x.2 ≤ n) : m.largest = n := by
  refine Nat.le_antisymm ?_ ?_
  · by_cases hz : m.largest = 0
    · omega
    · obtain ⟨x, hx, he⟩ := List.mem_map.mp (foldr_max_mem hz)
      rw [LockingHypothesisMatches.largest, ← he]
      exact hmax x hx
  · rw [← getD_of_mem_toList h]
    exact m.le_largest v

theorem mostFrequentOrder_spec {m : LockingHypothesisMatches} (hpos : 0 < m.largest) :
    m.IsMostFrequent (mostFrequentOrder m.orderMatches) := by
  have hord := @Std.ExtTreeMap.ordered_keys_toList _ _ compare m.orderMatches _
  rcases foldl_most m.orderMatches.toList (0, []) with ⟨-, hle⟩ | ⟨before, after, hxs, hb, ha, -⟩
  · -- All counts would be zero.
    obtain ⟨x, hx, he⟩ := List.mem_map.mp (foldr_max_mem (Nat.ne_of_gt hpos))
    have := hle x hx
    rw [LockingHypothesisMatches.largest, ← he] at hpos
    omega
  · rw [← mostFrequentOrder] at hxs
    generalize (m.orderMatches.toList.foldl
      (fun best m => if best.1 < m.2 then (m.2, m.1) else best) (0, [])).1 = n at hxs hb ha
    have hm : (mostFrequentOrder m.orderMatches, n) ∈ m.orderMatches.toList := by
      rw [hxs]
      simp
    have hmax : ∀ x ∈ m.orderMatches.toList, x.2 ≤ n := by
      intro x hx
      rw [hxs] at hx
      rcases List.mem_append.mp hx with hx | hx
      · exact Nat.le_of_lt (hb x hx)
      · rcases List.mem_cons.mp hx with rfl | hx
        · exact Nat.le_refl _
        · exact ha x hx
    have hlarge := largest_eq hm hmax
    refine ⟨?_, ?_, ?_⟩
    · rw [Std.ExtTreeMap.mem_iff_isSome_getElem?, Std.ExtTreeMap.mem_toList_iff_getElem?_eq_some.mp hm]
      rfl
    · rw [getD_of_mem_toList hm, hlarge]
    · intro v hv hcount
      obtain ⟨k, hk⟩ := Option.isSome_iff_exists.mp (Std.ExtTreeMap.mem_iff_isSome_getElem?.mp hv)
      have hvm := Std.ExtTreeMap.mem_toList_iff_getElem?_eq_some.mpr hk
      have hkn : k = n := by rw [← getD_of_mem_toList hvm, hcount, hlarge]
      rw [hxs] at hvm
      rcases List.mem_append.mp hvm with hvm | hvm
      · have := hb _ hvm
        simp only at this
        omega
      · rcases List.mem_cons.mp hvm with he | hvm
        · exact .inl (Prod.mk.inj he).1
        · rw [hxs, List.pairwise_append] at hord
          exact .inr ((List.pairwise_cons.mp hord.2.1).1 _ hvm)

/-- The loop over the lock orders ends at one with the largest count. -/
theorem getD_mostFrequentOrder (m : LockingHypothesisMatches) :
    m.orderMatches.getD (mostFrequentOrder m.orderMatches) 0 = m.largest := by
  by_cases hpos : 0 < m.largest
  · exact (mostFrequentOrder_spec hpos).largest
  · have := m.le_largest (mostFrequentOrder m.orderMatches)
    omega

end LockingHypothesisMatches

/-- The lock order that represents a hypothesis. -/
def Member.bestOrder (member : Member) (h : List MyId) : List MyId :=
  mostFrequentOrder (member.hypotheses.getD h {}).orderMatches

/-- A callback gets the ordered support. -/
theorem examine_eq (member : Member) (evalCb : Callback) (s : Search) (node : List MyId) :
    examine member evalCb s node = evalCb member s node (member.bestOrder node) (member.orderedSupport node) := by
  rw [examine, examineWith, Member.bestOrder, Member.orderedSupport]
  simp only [LockingHypothesisMatches.getD_mostFrequentOrder]

theorem filter_eraseDups (p : MyId → Bool) (xs : List MyId) : xs.eraseDups.filter p = (xs.filter p).eraseDups := by
  induction hn : xs.length using Nat.strong_induction_on generalizing xs with
  | _ n ih =>
    cases xs with
    | nil => simp
    | cons x xs =>
      have hlt : (xs.filter (fun y => !y == x)).length < n := by
        rw [← hn, List.length_cons]
        exact Nat.lt_succ_of_le (List.length_filter_le _ _)
      rw [List.eraseDups_cons]
      by_cases hx : p x
      · rw [List.filter_cons_of_pos hx, List.filter_cons_of_pos hx, List.eraseDups_cons, ih _ hlt _ rfl,
          List.filter_filter, List.filter_filter]
        congr 2
        apply List.filter_congr
        intro y _
        rw [Bool.and_comm]
      · rw [List.filter_cons_of_neg hx, List.filter_cons_of_neg hx, ih _ hlt _ rfl, List.filter_filter]
        congr 1
        apply List.filter_congr
        intro y _
        by_cases hy : y = x
        · subst hy
          simpa using hx
        · simp [hy]

/-- The order of a part is the order of the whole, restricted to the part. -/
theorem firstOccurrences_filter {h h' held : List MyId} (hsub : ∀ x ∈ h, x ∈ h') :
    firstOccurrences h held = (firstOccurrences h' held).filter (· ∈ h) := by
  rw [firstOccurrences, firstOccurrences, filter_eraseDups, List.filter_filter]
  congr 1
  apply List.filter_congr
  intro x _
  rw [Bool.eq_iff_iff]
  simp only [decide_eq_true_eq, Bool.and_eq_true]
  exact ⟨fun hx => ⟨hx, hsub x hx⟩, fun hx => hx.1⟩

/-- A lock order of a hypothesis is at most as frequent as its restriction to a part. -/
theorem evaluation_matches_le (cs : List LockCombination) {h h' : List MyId} (hh : h.Pairwise (· < ·))
    (hh' : h'.Pairwise (· < ·)) (hsub : ∀ x ∈ h, x ∈ h') (v : List MyId) :
    (evaluation cs h').orderMatches.getD v 0 ≤ (evaluation cs h).orderMatches.getD (v.filter (· ∈ h)) 0 := by
  rw [evaluation_matches, evaluation_matches]
  apply occurrencesOf_le
  intro lc hlc
  simp only [Bool.and_eq_true, decide_eq_true_eq] at hlc ⊢
  obtain ⟨hc, ho⟩ := hlc
  have hc' := (LockCombination.containsLocks_iff hh').mp hc
  refine ⟨(LockCombination.containsLocks_iff hh).mpr fun x hx => hc' x (hsub x hx), ?_⟩
  rw [LockCombination.lockOrder_eq (hh.imp Nat.ne_of_lt), firstOccurrences_filter hsub,
    ← LockCombination.lockOrder_eq (hh'.imp Nat.ne_of_lt), ho]

theorem evaluation_largest_le (cs : List LockCombination) {h h' : List MyId} (hh : h.Pairwise (· < ·))
    (hh' : h'.Pairwise (· < ·)) (hsub : ∀ x ∈ h, x ∈ h') :
    (evaluation cs h').largest ≤ (evaluation cs h).largest := by
  obtain ⟨v, hv⟩ := (evaluation cs h').exists_largest
  rw [← hv]
  exact Nat.le_trans (evaluation_matches_le cs hh hh' hsub v) (LockingHypothesisMatches.le_largest _ _)

theorem evaluation_largest_le_occurrences (cs : List LockCombination) (h : List MyId) :
    (evaluation cs h).largest ≤ (evaluation cs h).occurrences := by
  obtain ⟨v, hv⟩ := (evaluation cs h).exists_largest
  rw [← hv, ← evaluation_total]
  exact OrdMap.le_total id _ v 0 rfl

theorem evaluation_largest_nil (cs : List LockCombination) :
    (evaluation cs []).largest = occurrencesOf cs (fun _ => true) := by
  have hall : ∀ lc : LockCombination, lc.containsLocks [] = true :=
    fun lc => (LockCombination.containsLocks_iff List.Pairwise.nil).mpr (by simp)
  have horder : ∀ lc : LockCombination, lc.lockOrder [] = [] := by
    intro lc
    cases hl : lc.locksHeld <;> simp [LockCombination.lockOrder, LockCombination.orderFrom, hl]
  refine Nat.le_antisymm ?_ ?_
  · refine Nat.le_trans (evaluation_largest_le_occurrences cs []) ?_
    rw [evaluation_occurrences]
    exact occurrencesOf_le _ _ _ fun _ _ => rfl
  · refine Nat.le_trans ?_ (LockingHypothesisMatches.le_largest _ [])
    rw [evaluation_matches]
    apply occurrencesOf_le
    simp [hall, horder]

/-- Some lock order of an enumerated hypothesis has been observed. -/
theorem evaluation_largest_pos {cs : List LockCombination} (hpos : ∀ lc ∈ cs, 1 ≤ lc.occurrences) {h : List MyId}
    (hh : InFamily cs h) : 0 < (evaluation cs h).largest := by
  obtain ⟨hlt, lc, hlc, hheld⟩ := hh
  refine Nat.lt_of_lt_of_le ?_ (LockingHypothesisMatches.le_largest _ (lc.lockOrder h))
  rw [evaluation_matches]
  refine Nat.lt_of_lt_of_le (hpos lc hlc) (List.le_sum_of_mem (List.mem_map.mpr ⟨lc, ?_, rfl⟩))
  rw [List.mem_filter]
  exact ⟨hlc, by simp [(LockCombination.containsLocks_iff hlt).mpr hheld]⟩

/-- Combinations with a property make up all accesses only if all combinations have it. -/
theorem occurrencesOf_eq_all {cs : List LockCombination} (hpos : ∀ lc ∈ cs, 1 ≤ lc.occurrences)
    {p : LockCombination → Bool} : occurrencesOf cs p = occurrencesOf cs (fun _ => true) ↔ ∀ lc ∈ cs, p lc = true := by
  constructor
  · intro heq lc hlc
    by_contra hp
    obtain ⟨before, after, rfl⟩ := List.append_of_mem hlc
    have hb := occurrencesOf_le before p (fun _ => true) (fun _ _ => rfl)
    have ha := occurrencesOf_le after p (fun _ => true) (fun _ _ => rfl)
    have := hpos lc hlc
    rw [← List.singleton_append, occurrencesOf_append, occurrencesOf_append, occurrencesOf_append,
      occurrencesOf_append, occurrencesOf_singleton, occurrencesOf_singleton, if_neg hp] at heq
    simp only [if_true] at heq
    omega
  · intro hall
    rw [occurrencesOf, occurrencesOf, List.filter_eq_self.mpr hall, List.filter_eq_self.mpr (fun _ _ => rfl)]

section

variable {member₀ member : Member} {maxHypoLen : Nat}

theorem Enumerated.sublist {h h' : List MyId} (hh : Enumerated member₀ maxHypoLen h') (hs : h.Sublist h') :
    Enumerated member₀ maxHypoLen h :=
  ⟨hh.1.sublist hs, fun hpos => Nat.le_trans hs.length_le (hh.2 hpos)⟩

theorem Member.Observed.enumerated_nil (ho : member₀.Observed) : Enumerated member₀ maxHypoLen [] := by
  obtain ⟨lc, hlc⟩ := List.exists_mem_of_ne_nil _ ho.some
  exact ⟨⟨List.Pairwise.nil, lc, hlc, by simp⟩, by simp⟩

theorem Member.Observed.occurrences_pos (ho : member₀.Observed) : 0 < member₀.occurrences := by
  obtain ⟨lc, hlc⟩ := List.exists_mem_of_ne_nil _ ho.some
  rw [ho.occurrences]
  refine Nat.lt_of_lt_of_le (ho.positive lc hlc) (List.le_sum_of_mem (List.mem_map.mpr ⟨lc, ?_, rfl⟩))
  simpa using hlc

variable (hb : Built member₀ member (Enumerated member₀ maxHypoLen))

include hb

/-- The ordered support of an enumerated hypothesis. -/
theorem Built.orderedSupport {h : List MyId} (hh : Enumerated member₀ maxHypoLen h) :
    member.orderedSupport h = ((evaluation member₀.combinations h).largest : ℚ) / member₀.occurrences := by
  have hocc : member.occurrences = member₀.occurrences := by rw [hb.rest]
  rw [Member.orderedSupport, OrdMap.getD_eq, hb.value hh, Option.getD_some, hocc]

theorem Built.orderedSupport_nil (ho : member₀.Observed) : member.orderedSupport [] = 1 := by
  have hpos := ho.occurrences_pos
  rw [hb.orderedSupport ho.enumerated_nil, evaluation_largest_nil, ← ho.occurrences]
  exact div_self (Nat.cast_ne_zero.mpr (by omega))

theorem Built.orderedSupport_pos (ho : member₀.Observed) {h : List MyId} (hh : Enumerated member₀ maxHypoLen h) :
    0 < member.orderedSupport h := by
  rw [hb.orderedSupport hh]
  exact div_pos (Nat.cast_pos.mpr (evaluation_largest_pos ho.positive hh.1)) (Nat.cast_pos.mpr ho.occurrences_pos)

/-- More locks have less support. -/
theorem Built.orderedSupport_le {h h' : List MyId} (hh' : Enumerated member₀ maxHypoLen h') (hs : h.Sublist h') :
    member.orderedSupport h' ≤ member.orderedSupport h := by
  have hh := hh'.sublist hs
  rw [hb.orderedSupport hh, hb.orderedSupport hh']
  refine div_le_div_of_nonneg_right ?_ (Nat.cast_nonneg _)
  exact Nat.cast_le.mpr (evaluation_largest_le _ hh.1.1 hh'.1.1 fun x hx => hs.subset hx)

theorem Built.orderedSupport_le_one (ho : member₀.Observed) {h : List MyId} (hh : Enumerated member₀ maxHypoLen h) :
    member.orderedSupport h ≤ 1 := by
  rw [← hb.orderedSupport_nil ho]
  exact hb.orderedSupport_le hh (List.nil_sublist h)

theorem Built.bestOrder_mostFrequent (ho : member₀.Observed) {h : List MyId} (hh : Enumerated member₀ maxHypoLen h) :
    (member.hypotheses.getD h {}).IsMostFrequent (member.bestOrder h) := by
  refine LockingHypothesisMatches.mostFrequentOrder_spec ?_
  rw [OrdMap.getD_eq, hb.value hh, Option.getD_some]
  exact evaluation_largest_pos ho.positive hh.1

theorem Built.bestOrder_spec (ho : member₀.Observed) {h : List MyId} (hh : Enumerated member₀ maxHypoLen h) :
    (evaluation member₀.combinations h).IsMostFrequent (member.bestOrder h) := by
  have h := hb.bestOrder_mostFrequent ho hh
  rwa [OrdMap.getD_eq, hb.value hh, Option.getD_some] at h

/-- The order that represents a hypothesis orders its locks. -/
theorem Built.bestOrder_perm (ho : member₀.Observed) {h : List MyId} (hh : Enumerated member₀ maxHypoLen h) :
    (member.bestOrder h).Perm h := by
  obtain ⟨lc, -, hc, horder⟩ := (evaluation_keys _ _ _).mp (hb.bestOrder_spec ho hh).observed
  rw [← horder]
  exact LockCombination.lockOrder_perm hh.1.1 hc

theorem Built.bestOrder_inj (ho : member₀.Observed) {h h' : List MyId} (hh : Enumerated member₀ maxHypoLen h)
    (hh' : Enumerated member₀ maxHypoLen h') (he : member.bestOrder h = member.bestOrder h') : h = h' := by
  have hp : h.Perm h' := (hb.bestOrder_perm ho hh).symm.trans (he ▸ hb.bestOrder_perm ho hh')
  exact hp.eq_of_pairwise (fun _ _ _ _ h₁ h₂ => absurd h₂ (Nat.lt_asymm h₁)) hh.1.1 hh'.1.1

theorem Built.bestOrder_nil (ho : member₀.Observed) : member.bestOrder [] = [] :=
  (hb.bestOrder_perm ho ho.enumerated_nil).eq_nil

/-- The search ends, whatever it expands, and an invariant of its steps holds at the end. -/
theorem Built.search_yields {evalCb : Callback} {I : List (List MyId) → List (List MyId) → Search → Prop}
    (hstep : ∀ seen expanded s x, I seen expanded s → (∀ p ∈ expanded, p ∈ seen) → Enumerated member₀ maxHypoLen x →
      (∀ e ∈ seen, e.length ≤ x.length) →
      ∃ t, (evalCb member s x (member.bestOrder x) (member.orderedSupport x) = (t, member.graph.children x) ∧
          I (seen ++ [x]) (expanded ++ [x]) t) ∨
        (evalCb member s x (member.bestOrder x) (member.orderedSupport x) = (t, []) ∧ I (seen ++ [x]) expanded t))
    {L : Nat} {q : List (List MyId)} {s : Search} (hq : ∀ x ∈ q, Enumerated member₀ maxHypoLen x ∧ x.length = L)
    (h : I [] [] s) :
    ∃ seen expanded t,
      Yields (fun n => run Stop.outOfFuel (fun s node => .ok (examine member evalCb s node)) n s q) t ∧
        Searched member.graph.children q seen expanded ∧ I seen expanded t := by
  obtain ⟨seen, expanded, t, hlev, hsearch, hI⟩ := @search_rule _ _ Stop
    (fun s node => .ok (examine member evalCb s node)) member.graph.children List.length
    (Enumerated member₀ maxHypoLen) (member₀.combinations.map (fun lc => lc.locksHeld.length)).sum
    (fun x _ y hy => ⟨((hb.graph x y).mp hy).1, ((hb.graph x y).mp hy).2.length.symm⟩)
    (fun x hx => hx.1.length_le) I
    (by
      intro seen expanded s x hI hsub hx hle
      obtain ⟨t, ⟨he, hI'⟩ | ⟨he, hI'⟩⟩ := hstep seen expanded s x hI hsub hx hle
      · exact ⟨t, .inl ⟨by rw [examine_eq, he], hI'⟩⟩
      · exact ⟨t, .inr ⟨by rw [examine_eq, he], hI'⟩⟩)
    L q s hq h
  exact ⟨seen, expanded, t, hlev.yields .outOfFuel, hsearch, hI⟩

theorem Built.children_root {x : List MyId} (hx : x ∈ member.graph.children Member.rootNode) :
    Enumerated member₀ maxHypoLen x ∧ x.length = 1 := by
  obtain ⟨he, hp⟩ := (hb.graph _ _).mp hx
  exact ⟨he, hp.length.symm⟩

/-- A hypothesis is a child of itself without its last lock. -/
theorem Built.mem_children_dropLast {h : List MyId} (hh : Enumerated member₀ maxHypoLen h) (hne : h ≠ []) :
    h ∈ member.graph.children h.dropLast :=
  (hb.graph _ _).mpr ⟨hh, hne, .inl rfl⟩

end

/-- A lock order observed for a hypothesis restricts to one observed for each part of it. -/
theorem evaluation_keys_filter {cs : List LockCombination} {h h' : List MyId} (hh : h.Pairwise (· < ·))
    (hh' : h'.Pairwise (· < ·)) (hsub : ∀ x ∈ h, x ∈ h') {v : List MyId} (hv : v ∈ (evaluation cs h').orderMatches) :
    v.filter (· ∈ h) ∈ (evaluation cs h).orderMatches := by
  obtain ⟨lc, hlc, hc, rfl⟩ := (evaluation_keys _ _ _).mp hv
  have hheld := (LockCombination.containsLocks_iff hh').mp hc
  refine (evaluation_keys _ _ _).mpr ⟨lc, hlc, ?_, ?_⟩
  · exact (LockCombination.containsLocks_iff hh).mpr fun x hx => hheld x (hsub x hx)
  · rw [LockCombination.lockOrder_eq (hh.imp Nat.ne_of_lt), LockCombination.lockOrder_eq (hh'.imp Nat.ne_of_lt)]
    exact firstOccurrences_filter hsub

theorem evaluation_occurrences_le (cs : List LockCombination) {h h' : List MyId} (hh : h.Pairwise (· < ·))
    (hh' : h'.Pairwise (· < ·)) (hsub : ∀ x ∈ h, x ∈ h') :
    (evaluation cs h').occurrences ≤ (evaluation cs h).occurrences := by
  rw [evaluation_occurrences, evaluation_occurrences]
  apply occurrencesOf_le
  intro lc hc
  have hheld := (LockCombination.containsLocks_iff hh').mp hc
  exact (LockCombination.containsLocks_iff hh).mpr fun x hx => hheld x (hsub x hx)

theorem IsParent.sublist {p h : List MyId} (hp : IsParent p h) : p.Sublist h := by
  rcases hp.2 with rfl | rfl
  · exact List.dropLast_sublist h
  · exact List.tail_sublist h

theorem Search.save_front {s : Search} {w order sorted ordered : List MyId} {rest : List (List MyId × List MyId)}
    (h : s.conflictList = (w, order) :: rest) : ∃ rest', (s.save sorted ordered).conflictList = (w, order) :: rest' := by
  unfold Search.save
  split
  · exact ⟨rest, h⟩
  · exact ⟨rest ++ [(sorted, ordered)], by simp [h]⟩

theorem Search.save_found (s : Search) (sorted ordered : List MyId) :
    (s.save sorted ordered).winnerFound = s.winnerFound := by
  unfold Search.save
  split <;> rfl

theorem Search.save_support (s : Search) (sorted ordered : List MyId) :
    (s.save sorted ordered).relSupportWinner = s.relSupportWinner := by
  unfold Search.save
  split <;> rfl

/-- The conflict list names these hypotheses, each once, with the order that represents it. -/
structure Lists (member : Member) (s : Search) (hs : List (List MyId)) : Prop where
  entries : s.conflictList = hs.map (fun h => (h, member.bestOrder h))
  nodup : hs.Nodup

theorem Lists.frontSize {member : Member} {s : Search} {h : List MyId} {hs : List (List MyId)}
    (hl : Lists member s (h :: hs)) : s.frontSize = h.length := by
  simp [Search.frontSize, hl.entries]

theorem lists_replace (member : Member) (s : Search) (x : List MyId) :
    Lists member (s.replace x (member.bestOrder x)) [x] := ⟨rfl, by simp⟩

/-- A hypothesis that is saved is listed once. -/
theorem Lists.save {member : Member} {s : Search} {hs : List (List MyId)} (hl : Lists member s hs) {x : List MyId}
    (hinj : ∀ h ∈ hs, member.bestOrder h = member.bestOrder x → h = x) :
    ∃ hs', Lists member (s.save x (member.bestOrder x)) hs' ∧ (∀ h, h ∈ hs' ↔ h ∈ hs ∨ h = x) ∧
      hs'.head? = (hs ++ [x]).head? := by
  have hin : s.inConflictList (member.bestOrder x) = true ↔ x ∈ hs := by
    simp only [Search.inConflictList, hl.entries, List.any_map, List.any_eq_true, Function.comp_apply,
      decide_eq_true_eq]
    exact ⟨fun ⟨h, hm, he⟩ => hinj h hm he ▸ hm, fun hm => ⟨x, hm, rfl⟩⟩
  unfold Search.save
  by_cases hx : x ∈ hs
  · rw [if_pos (hin.mpr hx)]
    refine ⟨hs, hl, fun h => ?_, ?_⟩
    · exact ⟨.inl, fun hm => hm.elim id (fun he => he ▸ hx)⟩
    · cases hs with
      | nil => cases hx
      | cons h hs => rfl
  · rw [if_neg fun he => hx (hin.mp he)]
    refine ⟨hs ++ [x], ⟨by simp [hl.entries], ?_⟩, by simp, rfl⟩
    refine List.nodup_append.mpr ⟨hl.nodup, by simp, ?_⟩
    intro h hm y hy he
    rw [List.mem_singleton.mp hy] at he
    exact hx (he ▸ hm)

/-- The conflict list names the longest of the candidates. -/
def ListsLongest (member : Member) (s : Search) (candidates : List (List MyId)) : Prop :=
  ∃ hs, Lists member s hs ∧ hs ≠ [] ∧ ∀ h, h ∈ hs ↔ h ∈ candidates ∧ ∀ c ∈ candidates, c.length ≤ h.length

theorem listsLongest_replace (member : Member) (s : Search) {candidates : List (List MyId)} {x : List MyId}
    (hlt : ∀ c ∈ candidates, c.length < x.length) :
    ListsLongest member (s.replace x (member.bestOrder x)) (candidates ++ [x]) := by
  refine ⟨[x], lists_replace member s x, by simp, fun h => ?_⟩
  simp only [List.mem_append, List.mem_singleton]
  constructor
  · rintro rfl
    refine ⟨.inr rfl, ?_⟩
    rintro c (hc | rfl)
    · exact Nat.le_of_lt (hlt c hc)
    · exact Nat.le_refl _
  · rintro ⟨hh | hh, hmax⟩
    · have := hlt h hh
      have := hmax x (.inr rfl)
      omega
    · exact hh

section

variable {member : Member} {s : Search} {candidates : List (List MyId)} (h : ListsLongest member s candidates)

include h

theorem ListsLongest.frontSize : ∃ c ∈ candidates, s.frontSize = c.length ∧ ∀ d ∈ candidates, d.length ≤ c.length := by
  obtain ⟨hs, hl, hne, hmem⟩ := h
  cases hs with
  | nil => exact absurd rfl hne
  | cons c hs =>
    obtain ⟨hc, hmax⟩ := (hmem c).mp List.mem_cons_self
    exact ⟨c, hc, hl.frontSize, hmax⟩

/-- One more candidate of the same length. -/
theorem ListsLongest.save {x : List MyId} (hlen : s.frontSize = x.length)
    (hinj : ∀ c ∈ candidates, member.bestOrder c = member.bestOrder x → c = x) :
    ListsLongest member (s.save x (member.bestOrder x)) (candidates ++ [x]) := by
  obtain ⟨c, hc, hcs, hcmax⟩ := h.frontSize
  obtain ⟨hs, hl, hne, hmem⟩ := h
  obtain ⟨hs', hl', hmem', -⟩ := hl.save fun e he => hinj e ((hmem e).mp he).1
  refine ⟨hs', hl', ?_, fun e => ?_⟩
  · intro hnil
    have := (hmem' x).mpr (.inr rfl)
    simp [hnil] at this
  · simp only [hmem', hmem, List.mem_append, List.mem_singleton]
    constructor
    · rintro (⟨he, hmax⟩ | rfl)
      · refine ⟨.inl he, ?_⟩
        rintro d (hd | rfl)
        · exact hmax d hd
        · have := hmax c hc
          omega
      · refine ⟨.inr rfl, ?_⟩
        rintro d (hd | rfl)
        · have := hcmax d hd
          omega
        · exact Nat.le_refl _
    · rintro ⟨he | he, hmax⟩
      · exact .inl ⟨he, fun d hd => hmax d (.inl hd)⟩
      · exact .inr he

/-- Only the candidates count. -/
theorem ListsLongest.congr {candidates' : List (List MyId)} (hc : ∀ c, c ∈ candidates ↔ c ∈ candidates') :
    ListsLongest member s candidates' := by
  obtain ⟨hs, hl, hne, hmem⟩ := h
  exact ⟨hs, hl, hne, fun e => by rw [hmem, hc]; simp only [hc]⟩

/-- What the conflict list says. -/
theorem ListsLongest.conflictList : (s.conflictList.map Prod.fst).Nodup ∧
    (∀ e, e ∈ s.conflictList.map Prod.fst ↔ e ∈ candidates ∧ ∀ c ∈ candidates, c.length ≤ e.length) ∧
    ∀ e ∈ s.conflictList, e.2 = member.bestOrder e.1 := by
  obtain ⟨hs, hl, -, hmem⟩ := h
  have hfst : s.conflictList.map Prod.fst = hs := by
    rw [hl.entries, List.map_map]
    exact List.map_id'' (fun _ => rfl) hs
  rw [hfst]
  refine ⟨hl.nodup, hmem, ?_⟩
  rw [hl.entries]
  intro e he
  obtain ⟨x, -, rfl⟩ := List.mem_map.mp he
  rfl

end

/-- The longest hypotheses with a property. -/
def IsLongest (P : List MyId → Prop) (h : List MyId) : Prop := P h ∧ ∀ h', P h' → h'.length ≤ h.length

/-- The member with the outcome of a search. -/
def Member.decided (member : Member) (s : Search) : Member :=
  { member with
    conflictList := s.conflictList
    winnerFound := s.winnerFound
    winningHypothesis := if s.winnerFound then (s.conflictList.headD ([], [])).2 else member.winningHypothesis }

/-- The first state of a search without an `init_cb`. -/
def Search.first : Search := ⟨[(Member.rootNode, Member.rootNode)], true, 1⟩

theorem determine_yields {member : Member} {evalCb : Callback} {t : Search}
    (h : Yields (fun n => run Stop.outOfFuel (fun s node => .ok (examine member evalCb s node)) n Search.first
      (member.graph.children Member.rootNode)) t) :
    Yields (fun n => determineWinningHypothesis n member evalCb none) (member.decided t) :=
  h.bind (g := fun s _ => .ok (member.decided s)) (.const _)

/-- All accesses are under one lock. -/
def oneLock : Member :=
  { Member.new "inode".toList "r:i_mode".toList with
    combinations := [⟨2, [0]⟩], occurrences := 2, occurrencesWithLocks := 2 }

theorem oneLock_observed : oneLock.Observed := ⟨⟨rfl, rfl⟩, by decide, by decide, by decide⟩

end LockDoc.Hypothesizer
