import LockDoc.Hypothesizer.Search

/-!
# Support of parts

What the search sees of a member with counters of 64 bits: as long as the occurrences of the
member add up to less than 2^64, no count wraps around, and a part of a hypothesis has at
least the support of the whole.
-/
namespace LockDoc.Hypothesizer

open Worklist

theorem foldl_most_ofNat {xs : List (List MyId × Nat)} (hxs : ∀ x ∈ xs, x.2 < 2 ^ 64) {b : Nat × List MyId}
    (hb : b.1 < 2 ^ 64) :
    xs.foldl (fun best m => if best.1 < UInt64.ofNat m.2 then (UInt64.ofNat m.2, m.1) else best)
        (UInt64.ofNat b.1, b.2) =
      Prod.map UInt64.ofNat id (xs.foldl (fun best m => if best.1 < m.2 then (m.2, m.1) else best) b) := by
  induction xs generalizing b with
  | nil => rfl
  | cons x xs ih =>
    have hx := hxs x List.mem_cons_self
    have hrest := fun y hy => hxs y (List.mem_cons_of_mem x hy)
    simp only [List.foldl_cons, ofNat_lt_ofNat hb hx]
    split
    · exact @ih hrest (x.2, x.1) hx
    · exact @ih hrest b hb

theorem foldr_max_ofNat {xs : List Nat} (hxs : ∀ x ∈ xs, x < 2 ^ 64) :
    (xs.map UInt64.ofNat).foldr max 0 = UInt64.ofNat (xs.foldr max 0) ∧ xs.foldr max 0 < 2 ^ 64 := by
  induction xs with
  | nil => exact ⟨rfl, by norm_num⟩
  | cons x xs ih =>
    obtain ⟨heq, hlt⟩ := ih fun y hy => hxs y (List.mem_cons_of_mem x hy)
    have hx := hxs x List.mem_cons_self
    refine ⟨?_, Nat.max_lt.mpr ⟨hx, hlt⟩⟩
    rw [List.map_cons, List.foldr_cons, List.foldr_cons, heq]
    show (if UInt64.ofNat x ≤ UInt64.ofNat (xs.foldr max 0) then _ else _) = _
    rw [Nat.max_def]
    simp only [ofNat_le_ofNat hx hlt]
    exact (apply_ite UInt64.ofNat _ _ _).symm

/-- The counts of a hypothesis fit into counters of 64 bits. -/
def LockingHypothesisMatches.Fits (m : LockingHypothesisMatches) : Prop := ∀ x ∈ m.orderMatches.toList, x.2 < 2 ^ 64

namespace LockingHypothesisMatches.Fits

variable {m : LockingHypothesisMatches} (h : m.Fits)

include h

theorem mostFrequentOrder : Hypothesizer.mostFrequentOrder (m.map UInt64.ofNat).orderMatches =
    Hypothesizer.mostFrequentOrder m.orderMatches := by
  have hfold := @foldl_most_ofNat m.orderMatches.toList h (0, []) (by norm_num)
  unfold Hypothesizer.mostFrequentOrder
  rw [LockingHypothesisMatches.map, Std.ExtTreeMap.toList_map, List.foldl_map]
  exact congrArg Prod.snd hfold

theorem largest : (m.map UInt64.ofNat).largest = UInt64.ofNat m.largest ∧ m.largest < 2 ^ 64 := by
  have hfold := @foldr_max_ofNat (m.orderMatches.toList.map Prod.snd) (by
    intro n hn
    obtain ⟨x, hx, rfl⟩ := List.mem_map.mp hn
    exact h x hx)
  refine ⟨Eq.trans ?_ hfold.1, hfold.2⟩
  rw [LockingHypothesisMatches.largest, LockingHypothesisMatches.map, Std.ExtTreeMap.toList_map, List.map_map,
    List.map_map]
  rfl

end LockingHypothesisMatches.Fits

/-- A callback gets the most frequent order and its count. -/
theorem examineWith_ofNat {member : Member} {node : List MyId} (h : (member.hypotheses.getD node {}).Fits)
    (divide : UInt64 → UInt64 → ℚ) (evalCb : Callback UInt64) (s : Search) :
    examineWith divide (member.map UInt64.ofNat) evalCb s node =
      evalCb (member.map UInt64.ofNat) s node (member.bestOrder node)
        (divide (UInt64.ofNat (member.hypotheses.getD node {}).largest) (UInt64.ofNat member.occurrences)) := by
  have hmatches : (member.map UInt64.ofNat).hypotheses.getD node {} =
      (member.hypotheses.getD node {}).map UInt64.ofNat := by
    rw [← keepsSums_ofNat.matches_empty]
    exact OrdMap.getD_map _ _ _ _
  rw [examineWith, hmatches, h.mostFrequentOrder, LockingHypothesisMatches.getD_ofNat,
    LockingHypothesisMatches.getD_mostFrequentOrder]
  rfl

/-- The counts of a hypothesis do not exceed those of all combinations. -/
theorem evaluation_fits {cs : List LockCombination} (hsmall : occurrencesOf cs (fun _ => true) < 2 ^ 64)
    (h : List MyId) : (evaluation cs h).occurrences < 2 ^ 64 ∧ (∀ v, (evaluation cs h).orderMatches.getD v 0 < 2 ^ 64) ∧
      (evaluation cs h).Fits := by
  have hocc : (evaluation cs h).occurrences < 2 ^ 64 := by
    rw [evaluation_occurrences]
    exact Nat.lt_of_le_of_lt (occurrencesOf_le _ _ _ fun _ _ => rfl) hsmall
  have hcount : ∀ v, (evaluation cs h).orderMatches.getD v 0 < 2 ^ 64 := by
    intro v
    refine Nat.lt_of_le_of_lt ?_ hocc
    rw [← evaluation_total]
    exact OrdMap.le_total id _ v 0 rfl
  refine ⟨hocc, hcount, ?_⟩
  rintro ⟨v, n⟩ hvn
  rw [← LockingHypothesisMatches.getD_of_mem_toList hvn]
  exact hcount v

/-- What is found with counters of 64 bits comes from what is found with natural numbers. -/
theorem findHypotheses_uint64 {member : Member UInt64} (hf : member.Fresh) (maxHypoLen : Nat) :
    ∃ found, Yields (fun n => findHypotheses n member maxHypoLen) (found.map UInt64.ofNat) ∧
      Built (member.map UInt64.toNat) found (Enumerated (member.map UInt64.toNat) maxHypoLen) := by
  have hfresh : (member.map UInt64.toNat).Fresh := ⟨by rw [Member.map, hf.hypotheses]; rfl, hf.graph⟩
  obtain ⟨-, found, hy, -, -, hb⟩ := findHypotheses_yields hfresh maxHypoLen
  have hy := findHypotheses_ofNat hy
  rw [Member.ofNat_toNat] at hy
  exact ⟨found, hy, hb⟩

theorem findHypotheses_stable_uint64 (member : Member UInt64) (maxHypoLen : Nat) :
    Stable (fun n => findHypotheses n member maxHypoLen) := by
  have hmap := (findHypotheses_stable (member.map UInt64.toNat) maxHypoLen).map (Member.map UInt64.ofNat)
  simp only [← keepsSums_ofNat.findHypotheses, Member.ofNat_toNat] at hmap
  exact hmap

/-- Support never grows with the hypothesis, as long as the occurrences of the member add up to
less than 2^64: a part of a hypothesis occurs at least as often, a lock order is at most as
frequent as its restriction to a part, and along an edge of the graph the largest count of one
order, which is what the strategies get to see of the counts, never increases. -/
theorem support_antimonotone (member : Member UInt64) (hf : member.Fresh)
    (hsmall : (member.combinations.map (fun lc => lc.occurrences.toNat)).sum < 2 ^ 64) (maxHypoLen : Nat) :
    ∃ found, Yields (fun n => findHypotheses n member maxHypoLen) found ∧
      (∀ (h h' : List MyId) (x x' : LockingHypothesisMatches UInt64), found.hypotheses[h]? = some x →
        found.hypotheses[h']? = some x' → (∀ lock ∈ h, lock ∈ h') →
        x'.occurrences ≤ x.occurrences ∧
        ∀ v' ∈ x'.orderMatches, v'.filter (· ∈ h) ∈ x.orderMatches ∧
          x'.orderMatches.getD v' 0 ≤ x.orderMatches.getD (v'.filter (· ∈ h)) 0) ∧
      ∀ p h, h ∈ found.graph.children p → ∃ x x' : LockingHypothesisMatches UInt64,
        found.hypotheses[p]? = some x ∧ found.hypotheses[h]? = some x' ∧ x'.largest ≤ x.largest ∧
        ∀ divide evalCb s,
          examineWith divide found evalCb s p =
            evalCb found s p (mostFrequentOrder x.orderMatches) (divide x.largest found.occurrences) ∧
          examineWith divide found evalCb s h =
            evalCb found s h (mostFrequentOrder x'.orderMatches) (divide x'.largest found.occurrences) := by
  obtain ⟨found, hy, hb⟩ := findHypotheses_uint64 hf maxHypoLen
  have hsum : occurrencesOf (member.map UInt64.toNat).combinations (fun _ => true) < 2 ^ 64 := by
    rw [occurrencesOf, List.filter_eq_self.mpr (fun _ _ => rfl), Member.map, List.map_map]
    exact hsmall
  have hfits := evaluation_fits hsum
  refine ⟨_, hy, ?_, ?_⟩
  · intro h h' y y' hy hy' hsub
    obtain ⟨x, hx, rfl⟩ := Member.getElem?_map.mp hy
    obtain ⟨x', hx', rfl⟩ := Member.getElem?_map.mp hy'
    have hlt : ∀ (k : List MyId) z, found.hypotheses[k]? = some z → k.Pairwise (· < ·) := by
      intro k z hk
      have hmem : k ∈ found.hypotheses := by rw [Std.ExtTreeMap.mem_iff_isSome_getElem?, hk]; rfl
      exact ((hb.keys k).mp hmem).1.1
    have hh := hlt h x hx
    have hh' := hlt h' x' hx'
    rw [hb.values h x hx, hb.values h' x' hx']
    refine ⟨(ofNat_le_ofNat (hfits h').1 (hfits h).1).mpr (evaluation_occurrences_le _ hh hh' hsub), ?_⟩
    intro v' hv'
    have hkey := evaluation_keys_filter hh hh' hsub (Std.ExtTreeMap.mem_map.mp hv')
    refine ⟨Std.ExtTreeMap.mem_map.mpr hkey, ?_⟩
    rw [LockingHypothesisMatches.getD_ofNat, LockingHypothesisMatches.getD_ofNat,
      ofNat_le_ofNat ((hfits h').2.1 _) ((hfits h).2.1 _)]
    exact evaluation_matches_le _ hh hh' hsub v'
  · intro p h hedge
    obtain ⟨hh, hp⟩ := (hb.graph p h).mp hedge
    have hpar := hh.sublist hp.sublist
    have hle := evaluation_largest_le (member.map UInt64.toNat).combinations hpar.1.1 hh.1.1
      fun x hx => hp.sublist.subset hx
    have hseen : ∀ k, Enumerated (member.map UInt64.toNat) maxHypoLen k → ∀ divide evalCb s,
        examineWith divide (found.map UInt64.ofNat) evalCb s k =
          evalCb (found.map UInt64.ofNat) s k
            (mostFrequentOrder ((evaluation (member.map UInt64.toNat).combinations k).map UInt64.ofNat).orderMatches)
            (divide ((evaluation (member.map UInt64.toNat).combinations k).map UInt64.ofNat).largest
              (found.map UInt64.ofNat).occurrences) := by
      intro k hk divide evalCb s
      have hval : found.hypotheses.getD k {} = evaluation (member.map UInt64.toNat).combinations k := by
        rw [OrdMap.getD_eq, hb.value hk, Option.getD_some]
      have hfit := (hfits k).2.2
      rw [← hval] at hfit ⊢
      rw [examineWith_ofNat hfit, hfit.mostFrequentOrder, hfit.largest.1]
      rfl
    refine ⟨_, _, Member.getElem?_map.mpr ⟨_, hb.value hpar, rfl⟩, Member.getElem?_map.mpr ⟨_, hb.value hh, rfl⟩, ?_, ?_⟩
    · rw [(hfits h).2.2.largest.1, (hfits p).2.2.largest.1,
        ofNat_le_ofNat (hfits h).2.2.largest.2 (hfits p).2.2.largest.2]
      exact hle
    · exact fun divide evalCb s => ⟨hseen p hpar divide evalCb s, hseen h hh divide evalCb s⟩

/-- Two locks, taken in both orders, one of them twice. -/
def bothOrders : Member UInt64 :=
  { Member.new "inode".toList "r:i_mode".toList with
    combinations := [⟨3, [1, 2, 1]⟩, ⟨2, [2, 1]⟩], occurrences := 5, occurrencesWithLocks := 5 }

theorem bothOrders_antimonotone : ∃ found, Yields (fun n => findHypotheses n bothOrders 0) found ∧
    ∃ x x' : LockingHypothesisMatches UInt64, found.hypotheses[[1]]? = some x ∧
      found.hypotheses[[1, 2]]? = some x' ∧ x.largest = 5 ∧ x'.largest = 3 ∧ x'.orderMatches.getD [1, 2] 0 = 3 ∧
      x'.orderMatches.getD [1, 2] 0 ≤ x.orderMatches.getD [1] 0 ∧ x'.largest ≤ x.largest := by
  obtain ⟨found, hy, hsub, hedge⟩ := support_antimonotone bothOrders ⟨rfl, rfl⟩ (by decide) 0
  have hcheck : okAnd (findHypotheses 30 bothOrders 0) (fun found =>
      decide ([1, 2] ∈ found.graph.children [1]) &&
        (found.hypotheses[[1]]?.any (fun x => x.largest = 5)) &&
        (found.hypotheses[[1, 2]]?.any (fun x => x.largest = 3 && x.orderMatches.getD [1, 2] 0 = 3))) = true := by
    decide +kernel
  obtain ⟨found', hf, hcheck⟩ := okAnd_iff.mp hcheck
  obtain rfl : found = found' := hy.unique ((findHypotheses_stable_uint64 _ _).yields hf)
  simp only [Bool.and_eq_true, decide_eq_true_eq, Option.any_eq_true] at hcheck
  obtain ⟨⟨hchild, y, hy₁, hl₁⟩, y', hy₂, hl₂, hc⟩ := hcheck
  obtain ⟨x, x', hx, hx', hle, -⟩ := hedge [1] [1, 2] hchild
  obtain rfl : y = x := Option.some.inj (hy₁.symm.trans hx)
  obtain rfl : y' = x' := Option.some.inj (hy₂.symm.trans hx')
  refine ⟨found, hy, y, y', hx, hx', hl₁, hl₂, hc, ?_, hle⟩
  have hmem : [1, 2] ∈ y'.orderMatches := by
    by_contra hno
    rw [Std.ExtTreeMap.getD_eq_fallback hno] at hc
    exact absurd hc (by decide)
  exact ((hsub [1] [1, 2] y y' hx hx' (by simp)).2 [1, 2] hmem).2

/-- Half of what a counter holds under one lock, and as much under this lock and another. -/
def wrapped : Member UInt64 :=
  { Member.new "inode".toList "r:i_mode".toList with
    combinations := [⟨2 ^ 63, [1]⟩, ⟨2 ^ 63, [1, 2]⟩], occurrences := 0, occurrencesWithLocks := 0 }

/-- The occurrences of one lock wrap around to 0, below those of both. -/
theorem wrapped_not_antimonotone : ∃ found, Yields (fun n => findHypotheses n wrapped 0) found ∧
    ∃ x x' : LockingHypothesisMatches UInt64, found.hypotheses[[1]]? = some x ∧
      found.hypotheses[[1, 2]]? = some x' ∧ ¬x'.occurrences ≤ x.occurrences ∧ ¬x'.largest ≤ x.largest := by
  have hcheck : okAnd (findHypotheses 30 wrapped 0) (fun found =>
      (found.hypotheses[[1]]?.any (fun x => x.occurrences = 0 && x.largest = 0)) &&
        (found.hypotheses[[1, 2]]?.any (fun x => 0 < x.occurrences && 0 < x.largest))) = true := by
    decide +kernel
  obtain ⟨found, hf, hcheck⟩ := okAnd_iff.mp hcheck
  simp only [Bool.and_eq_true, decide_eq_true_eq, Option.any_eq_true] at hcheck
  obtain ⟨⟨x, hx, hocc, hlarge⟩, x', hx', hocc', hlarge'⟩ := hcheck
  refine ⟨found, (findHypotheses_stable_uint64 _ _).yields hf, x, x', hx, hx', ?_, ?_⟩
  · rw [hocc]
    exact UInt64.not_le.mpr hocc'
  · rw [hlarge]
    exact UInt64.not_le.mpr hlarge'

end LockDoc.Hypothesizer
