import LockDoc.Hypothesizer.Search

/-!
# Renumbering the locks

Locks are numbered by their first appearance, so the same lines in another order give the
same members with other lock ids. Counts and supports carry over from one numbering to the
other. The graph does if the ids keep their order: its edges, and the order in which
children are visited, come from the sorted form of a hypothesis.
-/
namespace LockDoc.Hypothesizer

open Worklist

theorem eraseDups_map {α β : Type} [DecidableEq α] [DecidableEq β] {f : α → β} {xs : List α}
    (hf : ∀ x ∈ xs, ∀ y ∈ xs, f x = f y → x = y) : (xs.map f).eraseDups = xs.eraseDups.map f := by
  induction xs using List.reverseRecOn with
  | nil => rfl
  | append_singleton xs x ih =>
    have hmem : f x ∈ xs.map f ↔ x ∈ xs := by
      rw [List.mem_map]
      constructor
      · rintro ⟨y, hy, he⟩
        rwa [← hf y (List.mem_append_left _ hy) x (by simp) he]
      · exact fun hx => ⟨x, hx, rfl⟩
    have ih := ih fun y hy z hz => hf y (List.mem_append_left _ hy) z (List.mem_append_left _ hz)
    rw [List.map_append, List.map_singleton, eraseDups_concat, eraseDups_concat, ih]
    by_cases hx : x ∈ xs
    · rw [if_pos hx, if_pos (hmem.mpr hx)]
    · rw [if_neg hx, if_neg (fun h => hx (hmem.mp h)), List.map_append, List.map_singleton]

theorem map_inj_on {α β : Type} {f : α → β} {xs ys : List α} (hf : ∀ x ∈ xs, ∀ y ∈ ys, f x = f y → x = y)
    (h : xs.map f = ys.map f) : xs = ys := by
  induction xs generalizing ys with
  | nil => exact (List.map_eq_nil_iff.mp h.symm).symm
  | cons x xs ih =>
    cases ys with
    | nil => cases h
    | cons y ys =>
      obtain ⟨hxy, h⟩ := List.cons.inj h
      rw [hf x List.mem_cons_self y List.mem_cons_self hxy,
        ih (fun a ha b hb => hf a (List.mem_cons_of_mem _ ha) b (List.mem_cons_of_mem _ hb)) h]

theorem pairwise_lt_of_nodup {xs : List MyId} (h : xs.Nodup) : (xs.insertionSort (· ≤ ·)).Pairwise (· < ·) := by
  have hnd : (xs.insertionSort (· ≤ ·)).Nodup := (List.perm_insertionSort _ xs).nodup_iff.mpr h
  exact (List.pairwise_insertionSort (· ≤ ·) xs).imp₂ (fun _ _ hle hne => Nat.lt_of_le_of_ne hle hne) hnd

/-- A strictly increasing list is determined by its elements. -/
theorem eq_of_perm_of_pairwise_lt {xs ys : List MyId} (h : xs.Perm ys) (hx : xs.Pairwise (· < ·))
    (hy : ys.Pairwise (· < ·)) : xs = ys :=
  h.eq_of_pairwise (fun _ _ _ _ h₁ h₂ => absurd h₂ (Nat.lt_asymm h₁)) hx hy

theorem occurrencesOf_congr {cs : List LockCombination} {p q : LockCombination → Bool} (h : ∀ lc ∈ cs, p lc = q lc) :
    occurrencesOf cs p = occurrencesOf cs q := by
  rw [occurrencesOf, occurrencesOf, List.filter_congr h]

/-- The lock is held in some combination. -/
def Member.Holds (member : Member) (x : MyId) : Prop := ∃ lc ∈ member.combinations, x ∈ lc.locksHeld

/-- The second member is the first one with other lock ids. -/
structure Renamed (rename : MyId → MyId) (member member' : Member) : Prop where
  injective : ∀ x y, member.Holds x → member.Holds y → rename x = rename y → x = y
  occurrences : member'.occurrences = member.occurrences
  withLocks : member'.occurrencesWithLocks = member.occurrencesWithLocks
  sums : ∀ p : List MyId → Bool, occurrencesOf member'.combinations (fun lc => p lc.locksHeld) =
    occurrencesOf member.combinations (fun lc => p (lc.locksHeld.map rename))
  held : ∀ held', (∃ lc ∈ member'.combinations, lc.locksHeld = held') ↔
    ∃ lc ∈ member.combinations, lc.locksHeld.map rename = held'

theorem InFamily.holds {member : Member} {h : List MyId} (hh : InFamily member.combinations h) {x : MyId}
    (hx : x ∈ h) : member.Holds x := by
  obtain ⟨-, lc, hlc, hheld⟩ := hh
  exact ⟨lc, hlc, hheld x hx⟩

section

variable {rename : MyId → MyId} {member member' : Member} (hr : Renamed rename member member')

include hr

theorem Renamed.mem_iff {h h' : List MyId} (hh : InFamily member.combinations h) (hp : (h.map rename).Perm h')
    {x : MyId} (hx : member.Holds x) : rename x ∈ h' ↔ x ∈ h := by
  rw [← hp.mem_iff, List.mem_map]
  constructor
  · rintro ⟨y, hy, he⟩
    rwa [← hr.injective y x (hh.holds hy) hx he]
  · exact fun hm => ⟨x, hm, rfl⟩

theorem Renamed.nodup_map {h : List MyId} (hnd : h.Nodup) (hh : ∀ x ∈ h, member.Holds x) : (h.map rename).Nodup := by
  refine hnd.map_on fun x hx y hy => ?_
  exact hr.injective x y (hh x hx) (hh y hy)

/-- The order of a renamed hypothesis is the renamed order. -/
theorem Renamed.order_eq {h h' : List MyId} (hh : InFamily member.combinations h)
    (hp : (h.map rename).Perm h') {lc : LockCombination} (hlc : lc ∈ member.combinations) :
    firstOccurrences h' (lc.locksHeld.map rename) = (firstOccurrences h lc.locksHeld).map rename := by
  have hheld : ∀ x ∈ lc.locksHeld, member.Holds x := fun x hx => ⟨lc, hlc, hx⟩
  unfold firstOccurrences
  rw [List.filter_map, ← eraseDups_map]
  · congr 2
    apply List.filter_congr
    intro x hx
    rw [Function.comp_apply, Bool.eq_iff_iff]
    simp only [decide_eq_true_eq]
    exact hr.mem_iff hh hp (hheld x hx)
  · intro x hx y hy
    exact hr.injective x y (hheld x (List.mem_filter.mp hx).1) (hheld y (List.mem_filter.mp hy).1)

/-- The counts of a renamed hypothesis, in terms of the first member. -/
theorem Renamed.counts {h h' : List MyId} (hh : InFamily member.combinations h)
    (hp : (h.map rename).Perm h') (hlt : h'.Pairwise (· < ·)) (v' : List MyId) :
    (evaluation member'.combinations h').orderMatches.getD v' 0 =
      occurrencesOf member.combinations (fun lc => lc.containsLocks h && (lc.lockOrder h).map rename = v') := by
  rw [evaluation_matches, containsLocks_lockOrder_eq hlt]
  rw [hr.sums fun held => h'.all (· ∈ held) && decide (firstOccurrences h' held = v')]
  refine occurrencesOf_congr fun lc hlc => ?_
  rw [hr.order_eq hh hp hlc, LockCombination.lockOrder_eq (hh.1.imp Nat.ne_of_lt)]
  congr 1
  rw [Bool.eq_iff_iff, LockCombination.containsLocks_iff hh.1]
  simp only [List.all_eq_true, decide_eq_true_eq]
  constructor
  · intro hall x hx
    obtain ⟨y, hy, he⟩ := List.mem_map.mp (hall _ ((hr.mem_iff hh hp (hh.holds hx)).mpr hx))
    rwa [← hr.injective y x ⟨lc, hlc, hy⟩ (hh.holds hx) he]
  · intro hall x' hx'
    obtain ⟨x, hx, rfl⟩ := List.mem_map.mp (hp.mem_iff.mpr hx')
    exact List.mem_map_of_mem (hall x hx)

/-- The largest count does not depend on the numbering. -/
theorem Renamed.largest {h h' : List MyId} (hh : InFamily member.combinations h)
    (hp : (h.map rename).Perm h') (hlt : h'.Pairwise (· < ·)) :
    (evaluation member'.combinations h').largest = (evaluation member.combinations h).largest := by
  have hcounts := hr.counts hh hp hlt
  refine Nat.le_antisymm ?_ ?_
  · obtain ⟨v', hv'⟩ := (evaluation member'.combinations h').exists_largest
    rw [← hv', hcounts]
    by_cases hex : ∃ lc ∈ member.combinations, lc.containsLocks h = true ∧ (lc.lockOrder h).map rename = v'
    · -- All combinations that show the renamed order show the same order.
      obtain ⟨lc, hlc, hc, rfl⟩ := hex
      refine Nat.le_trans (Nat.le_of_eq ?_) ((evaluation member.combinations h).le_largest (lc.lockOrder h))
      rw [evaluation_matches]
      refine occurrencesOf_congr fun lc' hlc' => ?_
      congr 1
      rw [Bool.eq_iff_iff, decide_eq_true_eq, decide_eq_true_eq]
      refine ⟨fun he => ?_, fun he => by rw [he]⟩
      have hholds : ∀ lc ∈ member.combinations, ∀ x ∈ lc.lockOrder h, member.Holds x :=
        fun lc hlc x hx => ⟨lc, hlc, (LockCombination.orderFrom_sublist _ _).subset hx⟩
      exact map_inj_on (fun x hx y hy => hr.injective x y (hholds lc' hlc' x hx) (hholds lc hlc y hy)) he
    · have hzero : occurrencesOf member.combinations
          (fun lc => lc.containsLocks h && (lc.lockOrder h).map rename = v') = 0 := by
        rw [occurrencesOf, List.filter_eq_nil_iff.mpr]
        · rfl
        · intro lc hlc hc
          simp only [Bool.and_eq_true, decide_eq_true_eq] at hc
          exact hex ⟨lc, hlc, hc⟩
      omega
  · obtain ⟨v, hv⟩ := (evaluation member.combinations h).exists_largest
    refine Nat.le_trans ?_ ((evaluation member'.combinations h').le_largest (v.map rename))
    rw [← hv, hcounts, evaluation_matches]
    refine occurrencesOf_le _ _ _ fun lc hlc => ?_
    simp only [Bool.and_eq_true, decide_eq_true_eq] at hlc ⊢
    exact ⟨hlc.1, by rw [hlc.2]⟩

/-- Every hypothesis has an image with the same locks. -/
theorem Renamed.exists_image {maxHypoLen : Nat} {h : List MyId} (hh : Enumerated member maxHypoLen h) :
    ∃ h', Enumerated member' maxHypoLen h' ∧ (h.map rename).Perm h' := by
  have hnd := hr.nodup_map (hh.1.1.imp Nat.ne_of_lt) fun x hx => hh.1.holds hx
  have hp : (h.map rename).Perm ((h.map rename).insertionSort (· ≤ ·)) := (List.perm_insertionSort _ _).symm
  refine ⟨_, ⟨⟨pairwise_lt_of_nodup hnd, ?_⟩, ?_⟩, hp⟩
  · obtain ⟨-, lc, hlc, hheld⟩ := hh.1
    obtain ⟨lc', hlc', he⟩ := (hr.held _).mpr ⟨lc, hlc, rfl⟩
    refine ⟨lc', hlc', fun x' hx' => ?_⟩
    obtain ⟨x, hx, rfl⟩ := List.mem_map.mp (hp.mem_iff.mpr hx')
    rw [he]
    exact List.mem_map_of_mem (hheld x hx)
  · intro hpos
    rw [← hp.length_eq, List.length_map]
    exact hh.2 hpos

/-- Every hypothesis of the second member is an image. -/
theorem Renamed.exists_preimage {maxHypoLen : Nat} {h' : List MyId} (hh' : Enumerated member' maxHypoLen h') :
    ∃ h, Enumerated member maxHypoLen h ∧ (h.map rename).Perm h' := by
  obtain ⟨⟨hlt, lc', hlc', hheld'⟩, hlen⟩ := hh'
  obtain ⟨lc, hlc, he⟩ := (hr.held lc'.locksHeld).mp ⟨lc', hlc', rfl⟩
  let h := ((lc.locksHeld.filter (fun x => rename x ∈ h')).dedup).insertionSort (· ≤ ·)
  have hmem : ∀ x, x ∈ h ↔ x ∈ lc.locksHeld ∧ rename x ∈ h' := by
    intro x
    simp [h]
  have hltn : h.Pairwise (· < ·) := pairwise_lt_of_nodup (List.nodup_dedup _)
  have hp : (h.map rename).Perm h' := by
    refine (List.perm_ext_iff_of_nodup (hr.nodup_map (hltn.imp Nat.ne_of_lt) ?_) (hlt.imp Nat.ne_of_lt)).mpr ?_
    · exact fun x hx => ⟨lc, hlc, ((hmem x).mp hx).1⟩
    · intro x'
      rw [List.mem_map]
      constructor
      · rintro ⟨x, hx, rfl⟩
        exact ((hmem x).mp hx).2
      · intro hx'
        obtain ⟨x, hx, rfl⟩ := List.mem_map.mp (he ▸ hheld' x' hx')
        exact ⟨x, (hmem x).mpr ⟨hx, hx'⟩, rfl⟩
  refine ⟨h, ⟨⟨hltn, lc, hlc, fun x hx => ((hmem x).mp hx).1⟩, fun hpos => ?_⟩, hp⟩
  rw [← List.length_map (f := rename), hp.length_eq]
  exact hlen hpos

variable {found found' : Member} {maxHypoLen : Nat} (hb : Built member found (Enumerated member maxHypoLen))
  (hb' : Built member' found' (Enumerated member' maxHypoLen))

include hb hb'

/-- A hypothesis and its image have the same support. -/
theorem Renamed.orderedSupport {h h' : List MyId} (hh : Enumerated member maxHypoLen h)
    (hh' : Enumerated member' maxHypoLen h') (hp : (h.map rename).Perm h') :
    found'.orderedSupport h' = found.orderedSupport h := by
  rw [hb.orderedSupport hh, hb'.orderedSupport hh', hr.largest hh.1 hp hh'.1.1, hr.occurrences]

end

section

variable {rename : MyId → MyId} {member member' : Member} (hr : Renamed rename member member')
  (hmono : ∀ x y, member.Holds x → member.Holds y → x < y → rename x < rename y)

include hmono

theorem map_pairwise_lt {h : List MyId} (hlt : h.Pairwise (· < ·)) (hh : ∀ x ∈ h, member.Holds x) :
    (h.map rename).Pairwise (· < ·) := by
  rw [List.pairwise_map]
  exact hlt.imp_of_mem fun hx hy hxy => hmono _ _ (hh _ hx) (hh _ hy) hxy

/-- Renaming keeps the order in which hypotheses are visited. -/
theorem compare_map {h k : List MyId} (hh : ∀ x ∈ h, member.Holds x) (hk : ∀ x ∈ k, member.Holds x)
    (hlt : compare h k = .lt) : compare (h.map rename) (k.map rename) = .lt := by
  induction h generalizing k with
  | nil =>
    cases k with
    | nil => cases hlt
    | cons y k => rfl
  | cons x h ih =>
    cases k with
    | nil => cases hlt
    | cons y k =>
      have hx := hh x List.mem_cons_self
      have hy := hk y List.mem_cons_self
      rw [List.compare_cons_cons, Ordering.then_eq_lt] at hlt
      rw [List.map_cons, List.map_cons, List.compare_cons_cons, Ordering.then_eq_lt]
      rcases hlt with hxy | ⟨hxy, hlt⟩
      · exact .inl (Nat.compare_eq_lt.mpr (hmono x y hx hy (Nat.compare_eq_lt.mp hxy)))
      · rw [Nat.compare_eq_eq.mp hxy]
        exact .inr ⟨Nat.compare_eq_eq.mpr rfl, ih (fun a ha => hh a (List.mem_cons_of_mem _ ha))
          (fun a ha => hk a (List.mem_cons_of_mem _ ha)) hlt⟩

include hr

/-- The hypotheses of the second member are the renamed ones. -/
theorem Renamed.enumerated_iff {maxHypoLen : Nat} {h' : List MyId} :
    Enumerated member' maxHypoLen h' ↔ ∃ h, Enumerated member maxHypoLen h ∧ h.map rename = h' := by
  have sorted : ∀ h, Enumerated member maxHypoLen h → (h.map rename).Pairwise (· < ·) :=
    fun h hh => map_pairwise_lt hmono hh.1.1 fun x hx => hh.1.holds hx
  constructor
  · intro hh'
    obtain ⟨h, hh, hp⟩ := hr.exists_preimage hh'
    exact ⟨h, hh, eq_of_perm_of_pairwise_lt hp (sorted h hh) hh'.1.1⟩
  · rintro ⟨h, hh, rfl⟩
    obtain ⟨h', hh', hp⟩ := hr.exists_image hh
    rwa [eq_of_perm_of_pairwise_lt hp (sorted h hh) hh'.1.1]

omit hmono in
theorem Renamed.isParent_iff {p h : List MyId} (hp : ∀ x ∈ p, member.Holds x) (hh : ∀ x ∈ h, member.Holds x) :
    IsParent (p.map rename) (h.map rename) ↔ IsParent p h := by
  have same : ∀ k : List MyId, (∀ x ∈ k, x ∈ h) → (p.map rename = k.map rename ↔ p = k) := by
    intro k hk
    refine ⟨map_inj_on fun x hx y hy => ?_, fun he => by rw [he]⟩
    exact hr.injective x y (hp x hx) (hh y (hk y hy))
  rw [IsParent, IsParent, ← List.map_dropLast, ← List.map_tail, same _ fun x hx => List.mem_of_mem_dropLast hx,
    same _ fun x hx => List.mem_of_mem_tail hx]
  simp

/-- The children are visited in the same order in both graphs. -/
theorem Renamed.children {found found' : Member} {maxHypoLen : Nat}
    (hb : Built member found (Enumerated member maxHypoLen))
    (hb' : Built member' found' (Enumerated member' maxHypoLen)) {x : List MyId} (hx : Enumerated member maxHypoLen x) :
    found'.graph.children (x.map rename) = (found.graph.children x).map (List.map rename) := by
  have hchild : ∀ h ∈ found.graph.children x, ∀ a ∈ h, member.Holds a :=
    fun h hh a ha => ((hb.graph x h).mp hh).1.1.holds ha
  have hord : (found.graph.children x).Pairwise (fun a b => compare a b = .lt) := Std.ExtTreeSet.ordered_toList
  have hord' : (found'.graph.children (x.map rename)).Pairwise (fun a b => compare a b = .lt) :=
    Std.ExtTreeSet.ordered_toList
  have hmap : ((found.graph.children x).map (List.map rename)).Pairwise (fun a b => compare a b = .lt) := by
    rw [List.pairwise_map]
    exact hord.imp_of_mem fun ha hc hlt => compare_map hmono (hchild _ ha) (hchild _ hc) hlt
  have irrefl : ∀ {xs : List (List MyId)}, xs.Pairwise (fun a b => compare a b = .lt) → xs.Nodup := by
    intro xs h
    refine h.imp ?_
    rintro a b hlt rfl
    rw [Std.ReflOrd.compare_self] at hlt
    cases hlt
  refine List.Perm.eq_of_pairwise ?_ hord' hmap ((List.perm_ext_iff_of_nodup (irrefl hord') (irrefl hmap)).mpr ?_)
  · intro a b _ _ hab hba
    rw [Std.OrientedOrd.eq_swap, hba] at hab
    cases hab
  · intro h'
    rw [hb'.graph, hr.enumerated_iff hmono, List.mem_map]
    constructor
    · rintro ⟨⟨h, hh, rfl⟩, hp⟩
      exact ⟨h, (hb.graph x h).mpr ⟨hh, (hr.isParent_iff (fun a ha => hx.1.holds ha)
        (fun a ha => hh.1.holds ha)).mp hp⟩, rfl⟩
    · rintro ⟨h, hh, rfl⟩
      obtain ⟨hen, hp⟩ := (hb.graph x h).mp hh
      exact ⟨⟨h, hen, rfl⟩, (hr.isParent_iff (fun a ha => hx.1.holds ha) (hchild h hh)).mpr hp⟩

end

def Mention.rename (f : MyId → MyId) (m : Mention) : Mention := { m with locksHeld := m.locksHeld.map f }

section

variable {lines lines' : List (List Char)} {input input' : Input} (hl : Loaded lines input)

include hl

variable (hperm : lines.Perm lines')

include hperm

variable (hl' : Loaded lines' input')

include hl'

end

end LockDoc.Hypothesizer
