import LockDoc.Lib.OrdMap

/-!
# Lock combinations

The lock combinations observed for a member, the two tests of `LockCombination`, and
what one pass over the combinations counts for a hypothesis. A hypothesis is a strictly
increasing list of lock ids; a combination may hold a lock several times.
-/
namespace LockDoc.Hypothesizer

/-- `myid_t`. Larger ids than its 16 bits hold are rejected when the input is read. -/
abbrev MyId := Nat

/-- The counters of the source are `uint64_t`. Here they are of any type that can be added up, and
natural numbers where no counter is taken to wrap around. -/
structure LockCombination (κ : Type := Nat) where
  occurrences : κ
  locksHeld : List MyId
  deriving DecidableEq, Repr

namespace LockCombination

variable {κ : Type}

/-- The sorted copy that `update_sorted_locks` keeps. -/
def locksHeldSorted (lc : LockCombination κ) : List MyId := lc.locksHeld.insertionSort (· ≤ ·)

/-- The loop of `contains_locks`, from a position in either list. -/
def containsFrom : List MyId → List MyId → Bool
  | _, [] => true
  | [], _ :: _ => false
  | mylock :: held, theirlock :: l =>
    if mylock = theirlock then containsFrom held l else containsFrom held (theirlock :: l)

def containsLocks (lc : LockCombination κ) (l : List MyId) : Bool := containsFrom lc.locksHeldSorted l

/-- The loop of `lock_order`: a lock that was found is erased from the list. -/
def orderFrom : List MyId → List MyId → List MyId
  | _, [] => []
  | [], _ :: _ => []
  | mylock :: held, l@(_ :: _) =>
    if mylock ∈ l then mylock :: orderFrom held (l.erase mylock) else orderFrom held l

def lockOrder (lc : LockCombination κ) (l : List MyId) : List MyId := orderFrom lc.locksHeld l

theorem containsFrom_iff {held l : List MyId} : containsFrom held l = true ↔ l.Sublist held := by
  induction held generalizing l with
  | nil => cases l <;> simp [containsFrom]
  | cons mylock held ih =>
    cases l with
    | nil => simp [containsFrom]
    | cons theirlock l =>
      unfold containsFrom
      split
      · rename_i he
        subst he
        rw [ih, List.cons_sublist_cons]
      · rename_i hne
        rw [ih, List.sublist_cons_iff]
        constructor
        · exact .inl
        · rintro (h | ⟨r, he, -⟩)
          · exact h
          · exact absurd (List.cons.inj he).1.symm hne

/-- A strictly increasing list is a sublist of a sorted one if its elements occur there. -/
theorem sublist_sorted_iff {l held : List MyId} (hl : l.Pairwise (· < ·)) :
    l.Sublist (held.insertionSort (· ≤ ·)) ↔ ∀ x ∈ l, x ∈ held := by
  constructor
  · intro h x hx
    exact (List.mem_insertionSort _).mp (h.subset hx)
  · intro h
    have hsub : l ⊆ held.insertionSort (· ≤ ·) := fun x hx => (List.mem_insertionSort _).mpr (h x hx)
    have hnd : l.Nodup := hl.imp Nat.ne_of_lt
    exact List.sublist_of_subperm_of_pairwise (hnd.subperm hsub) (hl.imp Nat.le_of_lt)
      (List.pairwise_insertionSort _ _)

/-- Duplicates in the sorted copy do not disturb the subset test. -/
theorem containsLocks_iff {lc : LockCombination κ} {l : List MyId} (hl : l.Pairwise (· < ·)) :
    lc.containsLocks l = true ↔ ∀ x ∈ l, x ∈ lc.locksHeld := by
  rw [containsLocks, containsFrom_iff]
  exact sublist_sorted_iff hl

end LockCombination

/-- The first occurrences of the locks of a hypothesis, in the order in which they are held. -/
def firstOccurrences (l held : List MyId) : List MyId := (held.filter (· ∈ l)).eraseDups

namespace LockCombination

variable {κ : Type}

theorem orderFrom_eq {held l : List MyId} (hl : l.Nodup) : orderFrom held l = firstOccurrences l held := by
  induction held generalizing l with
  | nil => cases l <;> simp [orderFrom, firstOccurrences]
  | cons mylock held ih =>
    cases l with
    | nil => simp [orderFrom, firstOccurrences]
    | cons x l =>
      simp only [orderFrom, firstOccurrences]
      split
      · rename_i hm
        rw [ih (hl.erase mylock), List.filter_cons_of_pos (by simpa using hm), List.eraseDups_cons, firstOccurrences,
          List.filter_filter]
        congr 2
        apply List.filter_congr
        intro y _
        rw [Bool.eq_iff_iff]
        simp [hl.mem_erase_iff]
      · rename_i hm
        rw [ih hl, List.filter_cons_of_neg (by simpa using hm), firstOccurrences]

theorem lockOrder_eq {lc : LockCombination κ} {l : List MyId} (hl : l.Nodup) :
    lc.lockOrder l = firstOccurrences l lc.locksHeld :=
  orderFrom_eq hl

/-- The order of a hypothesis in a combination that contains it is a permutation of it. -/
theorem orderFrom_perm {held l : List MyId} (hl : l.Nodup) (h : ∀ x ∈ l, x ∈ held) : (orderFrom held l).Perm l := by
  induction held generalizing l with
  | nil =>
    cases l with
    | nil => exact .nil
    | cons x l => exact absurd (h x List.mem_cons_self) (by simp)
  | cons mylock held ih =>
    have later : ∀ y ∈ l, y ≠ mylock → y ∈ held := by
      intro y hy hne
      exact (List.mem_cons.mp (h y hy)).resolve_left hne
    cases l with
    | nil => exact .nil
    | cons x l =>
      unfold orderFrom
      split
      · rename_i hm
        have hrest : ∀ y ∈ (x :: l).erase mylock, y ∈ held := by
          intro y hy
          obtain ⟨hne, hy⟩ := hl.mem_erase_iff.mp hy
          exact later y hy hne
        exact ((ih (hl.erase mylock) hrest).cons mylock).trans (List.perm_cons_erase hm).symm
      · rename_i hm
        exact ih hl fun y hy => later y hy fun he => hm (he ▸ hy)

/-- The locks are presented in the order in which they are held. -/
theorem orderFrom_sublist (held l : List MyId) : (orderFrom held l).Sublist held := by
  induction held generalizing l with
  | nil => cases l <;> exact List.nil_sublist _
  | cons mylock held ih =>
    cases l with
    | nil => exact List.nil_sublist _
    | cons x l =>
      unfold orderFrom
      split
      · exact (ih _).cons_cons mylock
      · exact (ih _).cons mylock

theorem lockOrder_perm {lc : LockCombination κ} {l : List MyId} (hl : l.Pairwise (· < ·))
    (h : lc.containsLocks l = true) : (lc.lockOrder l).Perm l :=
  orderFrom_perm (hl.imp Nat.ne_of_lt) ((containsLocks_iff hl).mp h)

end LockCombination

structure LockingHypothesisMatches (κ : Type := Nat) where
  occurrences : κ
  sortedHypothesis : List MyId := []
  orderMatches : Std.ExtTreeMap (List MyId) κ := ∅

section

variable {κ : Type} [OfNat κ 0]

/-- The values that the source initializes with. -/
instance : EmptyCollection (LockingHypothesisMatches κ) := ⟨{ occurrences := 0 }⟩

@[simp] theorem LockingHypothesisMatches.occurrences_empty : (∅ : LockingHypothesisMatches κ).occurrences = 0 := rfl

@[simp] theorem LockingHypothesisMatches.orderMatches_empty : (∅ : LockingHypothesisMatches κ).orderMatches = ∅ := rfl

variable [Add κ]

/-- The body of the loop of `evaluate_hypothesis`. -/
def LockingHypothesisMatches.add (hypothesis : List MyId) (m : LockingHypothesisMatches κ) (lc : LockCombination κ) :
    LockingHypothesisMatches κ :=
  if lc.containsLocks hypothesis then
    { occurrences := m.occurrences + lc.occurrences
      sortedHypothesis := hypothesis
      orderMatches := m.orderMatches.insert (lc.lockOrder hypothesis)
        (m.orderMatches.getD (lc.lockOrder hypothesis) 0 + lc.occurrences) }
  else m

/-- One pass over all combinations. -/
def evaluation (combinations : List (LockCombination κ)) (hypothesis : List MyId) : LockingHypothesisMatches κ :=
  combinations.foldl (LockingHypothesisMatches.add hypothesis) {}

end

theorem LockingHypothesisMatches.getD_of_mem_toList {m : LockingHypothesisMatches} {v : List MyId} {n : Nat}
    (h : (v, n) ∈ m.orderMatches.toList) : m.orderMatches.getD v 0 = n := by
  rw [OrdMap.getD_eq, Std.ExtTreeMap.mem_toList_iff_getElem?_eq_some.mp h]
  rfl

/-- The occurrences of the combinations with a property. -/
def occurrencesOf (combinations : List LockCombination) (p : LockCombination → Bool) : Nat :=
  ((combinations.filter p).map LockCombination.occurrences).sum

theorem occurrencesOf_append (cs ds : List LockCombination) (p : LockCombination → Bool) :
    occurrencesOf (cs ++ ds) p = occurrencesOf cs p + occurrencesOf ds p := by
  simp [occurrencesOf]

theorem occurrencesOf_singleton (lc : LockCombination) (p : LockCombination → Bool) :
    occurrencesOf [lc] p = if p lc then lc.occurrences else 0 := by
  by_cases h : p lc <;> simp [occurrencesOf, h]

theorem evaluation_append (cs : List LockCombination) (lc : LockCombination) (h : List MyId) :
    evaluation (cs ++ [lc]) h = (evaluation cs h).add h lc := by
  simp [evaluation]

theorem evaluation_occurrences (cs : List LockCombination) (h : List MyId) :
    (evaluation cs h).occurrences = occurrencesOf cs (fun lc => lc.containsLocks h) := by
  induction cs using List.reverseRecOn with
  | nil => rfl
  | append_singleton cs lc ih =>
    rw [evaluation_append, occurrencesOf_append, occurrencesOf_singleton, ← ih, LockingHypothesisMatches.add]
    split <;> simp

theorem evaluation_sortedHypothesis {cs : List LockCombination} {h : List MyId}
    (hc : ∃ lc ∈ cs, lc.containsLocks h = true) : (evaluation cs h).sortedHypothesis = h := by
  induction cs using List.reverseRecOn with
  | nil => simp at hc
  | append_singleton cs lc ih =>
    rw [evaluation_append, LockingHypothesisMatches.add]
    split
    · rfl
    · rename_i hno
      refine ih ?_
      obtain ⟨k, hk, hck⟩ := hc
      rcases List.mem_append.mp hk with hk | hk
      · exact ⟨k, hk, hck⟩
      · rw [List.mem_singleton.mp hk] at hck
        exact absurd hck hno

/-- A count of a lock order is the sum over the combinations that show it. -/
theorem evaluation_matches (cs : List LockCombination) (h v : List MyId) :
    (evaluation cs h).orderMatches.getD v 0 = occurrencesOf cs (fun lc => lc.containsLocks h && lc.lockOrder h = v) := by
  induction cs using List.reverseRecOn with
  | nil => simp [evaluation, occurrencesOf, OrdMap.getD_eq]
  | append_singleton cs lc ih =>
    rw [evaluation_append, occurrencesOf_append, occurrencesOf_singleton, ← ih, LockingHypothesisMatches.add]
    by_cases hc : lc.containsLocks h
    · simp only [hc, if_true, Bool.true_and, decide_eq_true_eq]
      rw [OrdMap.getD_insert_eq]
      by_cases hv : v = lc.lockOrder h
      · simp [hv]
      · simp [hv, Ne.symm hv]
    · simp [hc]

theorem evaluation_keys (cs : List LockCombination) (h v : List MyId) :
    v ∈ (evaluation cs h).orderMatches ↔ ∃ lc ∈ cs, lc.containsLocks h = true ∧ lc.lockOrder h = v := by
  induction cs using List.reverseRecOn with
  | nil => simp [evaluation]
  | append_singleton cs lc ih =>
    rw [evaluation_append, LockingHypothesisMatches.add]
    by_cases hc : lc.containsLocks h
    · simp only [hc, if_true, Std.ExtTreeMap.mem_insert, Std.LawfulEqOrd.compare_eq_iff_eq, ih, List.mem_append,
        List.mem_singleton]
      constructor
      · rintro (hv | ⟨k, hk, hrest⟩)
        · exact ⟨lc, .inr rfl, hc, hv⟩
        · exact ⟨k, .inl hk, hrest⟩
      · rintro ⟨k, hk | rfl, hck, hv⟩
        · exact .inr ⟨k, hk, hck, hv⟩
        · exact .inl hv
    · rw [if_neg hc, ih]
      simp only [List.mem_append, List.mem_singleton]
      constructor
      · rintro ⟨k, hk, hrest⟩
        exact ⟨k, .inl hk, hrest⟩
      · rintro ⟨k, hk | rfl, hck, hv⟩
        · exact ⟨k, hk, hck, hv⟩
        · exact absurd hck hc

/-- The counts of all lock orders add up. -/
theorem evaluation_total (cs : List LockCombination) (h : List MyId) :
    OrdMap.total id (evaluation cs h).orderMatches = (evaluation cs h).occurrences := by
  induction cs using List.reverseRecOn with
  | nil => rfl
  | append_singleton cs lc ih =>
    rw [evaluation_append, LockingHypothesisMatches.add]
    split
    · have ht := OrdMap.total_insert id (evaluation cs h).orderMatches (lc.lockOrder h)
        ((evaluation cs h).orderMatches.getD (lc.lockOrder h) 0 + lc.occurrences) 0 rfl
      simp only [id_eq] at ht ⊢
      omega
    · exact ih

end LockDoc.Hypothesizer
