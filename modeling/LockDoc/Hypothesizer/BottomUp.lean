import LockDoc.Lib.Pruned
import LockDoc.Hypothesizer.Search

/-!
# The bottom-up strategy

The callback looks at the children of a hypothesis only if its support is acceptable and
no larger than that of the winner of the moment. The winner at the end is the best of the
hypotheses that were looked at: it has the smallest acceptable support of them, and the
most locks. It is the best of all if a best one can be built up lock by lock through
hypotheses that no acceptable one with a smaller support comes before. Otherwise the search
drops an acceptable hypothesis above an acceptable one.
-/
namespace LockDoc.Hypothesizer

open Worklist
open Pruned

/-- The hypothesis in front is the best of those that were looked at, and of the root. -/
structure Leads (member : Member) (accept : ℚ) (seen : List (List MyId)) (s : Search) (w : List MyId) : Prop where
  front : ∃ order rest, s.conflictList = (w, order) :: rest
  found : s.winnerFound = true
  source : w = [] ∨ w ∈ seen
  support : member.orderedSupport w = s.relSupportWinner
  accepted : accept ≤ s.relSupportWinner
  le_one : s.relSupportWinner ≤ 1
  least : ∀ e ∈ seen, accept ≤ member.orderedSupport e → s.relSupportWinner ≤ member.orderedSupport e
  most : ∀ e ∈ seen, member.orderedSupport e = s.relSupportWinner → e.length ≤ w.length

/-- One hypothesis that is at least as long as all before it: it is expanded exactly if it
survives. -/
theorem Leads.step {member : Member} {accept : ℚ} {seen : List (List MyId)} {s : Search} {w x : List MyId}
    (h : Leads member accept seen s w) (hlen : ∀ e ∈ seen, e.length ≤ x.length) (order : List MyId) :
    ∃ s' w', evaluateHypothesisBottomup accept member s x order (member.orderedSupport x) =
        (s', if accept ≤ member.orderedSupport x ∧ member.orderedSupport x ≤ s.relSupportWinner then
          member.graph.children x else []) ∧
      s'.relSupportWinner = (if accept ≤ member.orderedSupport x ∧ member.orderedSupport x ≤ s.relSupportWinner then
        member.orderedSupport x else s.relSupportWinner) ∧
      Leads member accept (seen ++ [x]) s' w' := by
  have hw : w.length ≤ x.length := by
    rcases h.source with rfl | hm
    · exact Nat.zero_le _
    · exact hlen w hm
  obtain ⟨o, rest, hfront⟩ := h.front
  have hsize : s.frontSize = w.length := by simp [Search.frontSize, hfront]
  unfold evaluateHypothesisBottomup
  by_cases hkeep : accept ≤ member.orderedSupport x ∧ member.orderedSupport x ≤ s.relSupportWinner
  · rw [if_pos hkeep]
    by_cases hequal : s.frontSize = x.length ∧ member.orderedSupport x = s.relSupportWinner
    · -- An equal hypothesis: the front stays.
      rw [if_pos hequal]
      obtain ⟨rest', hfront'⟩ := @Search.save_front s w o x order rest hfront
      refine ⟨_, w, rfl, by rw [Search.save_support, if_pos hkeep, hequal.2], ?_⟩
      refine ⟨⟨o, rest', hfront'⟩, by rw [Search.save_found]; exact h.found, ?_, ?_, ?_, ?_, ?_, ?_⟩
      · exact h.source.imp_right (List.mem_append_left _)
      · rw [Search.save_support]
        exact h.support
      · rw [Search.save_support]
        exact h.accepted
      · rw [Search.save_support]
        exact h.le_one
      · rw [Search.save_support]
        exact forall_mem_concat.mpr ⟨h.least, fun _ => le_of_eq hequal.2.symm⟩
      · rw [Search.save_support]
        exact forall_mem_concat.mpr ⟨h.most, fun _ => by rw [← hequal.1, hsize]⟩
    · -- A smaller support, or the same support with more locks: a new front.
      have hbetter : (accept ≤ member.orderedSupport x ∧ member.orderedSupport x < s.relSupportWinner) ∨
          (s.frontSize < x.length ∧ member.orderedSupport x = s.relSupportWinner) := by
        rcases lt_or_eq_of_le hkeep.2 with hlt | heq
        · exact .inl ⟨hkeep.1, hlt⟩
        · refine .inr ⟨?_, heq⟩
          rw [hsize]
          exact Nat.lt_of_le_of_ne hw fun he => hequal ⟨hsize.trans he, heq⟩
      rw [if_neg hequal, if_pos hbetter]
      refine ⟨_, x, rfl, by rw [if_pos hkeep], ?_⟩
      refine ⟨⟨order, [], rfl⟩, rfl, .inr (by simp), rfl, hkeep.1, le_trans hkeep.2 h.le_one, ?_, ?_⟩
      · exact forall_mem_concat.mpr ⟨fun e he ha => le_trans hkeep.2 (h.least e he ha), fun _ => le_refl _⟩
      · exact forall_mem_concat.mpr ⟨fun e he _ => hlen e he, fun _ => Nat.le_refl _⟩
  · rw [if_neg hkeep]
    have hequal : ¬(s.frontSize = x.length ∧ member.orderedSupport x = s.relSupportWinner) := by
      rintro ⟨-, heq⟩
      exact hkeep ⟨by rw [heq]; exact h.accepted, le_of_eq heq⟩
    have hbetter : ¬((accept ≤ member.orderedSupport x ∧ member.orderedSupport x < s.relSupportWinner) ∨
        (s.frontSize < x.length ∧ member.orderedSupport x = s.relSupportWinner)) := by
      rintro (⟨ha, hlt⟩ | ⟨-, heq⟩)
      · exact hkeep ⟨ha, le_of_lt hlt⟩
      · exact hkeep ⟨by rw [heq]; exact h.accepted, le_of_eq heq⟩
    rw [if_neg hequal, if_neg hbetter]
    refine ⟨s, w, rfl, by rw [if_neg hkeep], ?_⟩
    refine ⟨h.front, h.found, h.source.imp_right (List.mem_append_left _), h.support, h.accepted, h.le_one, ?_, ?_⟩
    · refine forall_mem_concat.mpr ⟨h.least, fun ha => ?_⟩
      by_contra hlt
      exact hkeep ⟨ha, le_of_lt (not_le.mp hlt)⟩
    · refine forall_mem_concat.mpr ⟨h.most, fun hs => ?_⟩
      exact absurd ⟨by rw [hs]; exact h.accepted, le_of_eq hs⟩ hkeep

/-- The step of the search with the bottom-up callback. -/
def bottomupStep (member : Member) (accept : ℚ) (s : Search) (node : List MyId) :
    Except Stop (Search × List (List MyId)) :=
  .ok (examine member (evaluateHypothesisBottomup accept) s node)

/-- One level. -/
theorem Leads.sweep {member : Member} {accept : ℚ} {L : Nat} {q : List (List MyId)} : ∀ {seen s w},
    Leads member accept seen s w → (∀ e ∈ seen, e.length ≤ L) → (∀ x ∈ q, x.length = L) →
    ∃ s' w', Worklist.sweep (bottomupStep member accept) s q =
        .ok (s', (survivors member.orderedSupport accept s.relSupportWinner q).flatMap member.graph.children) ∧
      s'.relSupportWinner = lowest member.orderedSupport accept s.relSupportWinner q ∧
      Leads member accept (seen ++ q) s' w' := by
  induction q with
  | nil =>
    intro seen s w h _ _
    exact ⟨s, w, rfl, rfl, by simpa using h⟩
  | cons x q ih =>
    intro seen s w h hseen hq
    have hx := hq x List.mem_cons_self
    obtain ⟨s₁, w₁, hstep, hrel, h₁⟩ := h.step (fun e he => by rw [hx]; exact hseen e he) (member.bestOrder x)
    obtain ⟨s', w', hsw, hrel', h'⟩ := ih h₁
      (forall_mem_concat.mpr ⟨hseen, by rw [hx]⟩)
      (fun y hy => hq y (List.mem_cons_of_mem _ hy))
    refine ⟨s', w', ?_, ?_, by simpa using h'⟩
    · have hx' : bottomupStep member accept s x = .ok (s₁, if accept ≤ member.orderedSupport x ∧
          member.orderedSupport x ≤ s.relSupportWinner then member.graph.children x else []) := by
        rw [bottomupStep, examine_eq, hstep]
      rw [sweep_cons hx' hsw, hrel]
      simp only [survivors]
      split
      · rw [List.flatMap_cons]
      · rfl
    · rw [hrel', hrel]
      simp only [lowest]
      split <;> rfl

section

variable {member₀ member : Member} {maxHypoLen : Nat}
  (hb : Built member₀ member (Enumerated member₀ maxHypoLen)) {accept : ℚ}

include hb

/-- The hypotheses of a level are enumerated and have its length. -/
theorem mem_level {k : Nat} {x : List MyId}
    (hx : x ∈ (level member.orderedSupport member.graph.children accept [] k).2) :
    Enumerated member₀ maxHypoLen x ∧ x.length = k + 1 := by
  induction k generalizing x with
  | zero =>
    obtain ⟨he, hp⟩ := (hb.graph _ _).mp hx
    exact ⟨he, hp.length.symm⟩
  | succ k ih =>
    obtain ⟨p, hp, hx⟩ := List.mem_flatMap.mp hx
    obtain ⟨he, hpar⟩ := (hb.graph _ _).mp hx
    have := (ih (mem_of_mem_survivors hp)).2
    have := hpar.length
    exact ⟨he, by omega⟩

/-- The search ends, with the best of all explored hypotheses in front. -/
theorem bottomup_yields (ho : member₀.Observed) (ha : accept ≤ 1) :
    ∃ s w seen, Yields (fun n => run .outOfFuel (bottomupStep member accept) n
        ⟨[(Member.rootNode, Member.rootNode)], true, 1⟩ (member.graph.children Member.rootNode)) s ∧
      Leads member accept seen s w ∧
      ∀ e, e ∈ seen ↔ Explored member.orderedSupport member.graph.children accept [] e := by
  let lev := level member.orderedSupport member.graph.children accept []
  let I : Nat → Search → List (List MyId) → Prop := fun k s q =>
    q = (lev k).2 ∧ s.relSupportWinner = (lev k).1 ∧
      ∃ seen w, (∀ e, e ∈ seen ↔ ∃ j < k, e ∈ (lev j).2) ∧ Leads member accept seen s w
  have hstart : I 0 ⟨[(Member.rootNode, Member.rootNode)], true, 1⟩ (member.graph.children Member.rootNode) := by
    refine ⟨rfl, rfl, [], [], by simp, ⟨⟨[], [], rfl⟩, rfl, .inl rfl, hb.orderedSupport_nil ho, ha, le_refl _, ?_, ?_⟩⟩
    · simp
    · simp
  have hnext : ∀ k s q, I k s q → ∃ t p, sweep (bottomupStep member accept) s q = .ok (t, p) ∧ I (k + 1) t p := by
    rintro k s q ⟨rfl, hrel, seen, w, hseen, hl⟩
    obtain ⟨t, w', hsw, hrel', hl'⟩ := hl.sweep (L := k + 1) (q := (lev k).2)
      (fun e he => by
        obtain ⟨j, hj, hm⟩ := (hseen e).mp he
        have := (mem_level hb hm).2
        omega)
      (fun x hx => (mem_level hb hx).2)
    rw [hrel] at hsw hrel'
    refine ⟨t, _, hsw, rfl, hrel', seen ++ (lev k).2, w', ?_, hl'⟩
    intro e
    rw [List.mem_append, hseen]
    constructor
    · rintro (⟨j, hj, hm⟩ | hm)
      · exact ⟨j, by omega, hm⟩
      · exact ⟨k, by omega, hm⟩
    · rintro ⟨j, hj, hm⟩
      rcases Nat.lt_or_eq_of_le (Nat.le_of_lt_succ hj) with hlt | rfl
      · exact .inl ⟨j, hlt, hm⟩
      · exact .inr hm
  have hend : ∀ k s q, I k s q → (member₀.combinations.map (fun lc => lc.locksHeld.length)).sum < k → q = [] := by
    rintro k s q ⟨rfl, -⟩ hk
    rw [List.eq_nil_iff_forall_not_mem]
    intro x hx
    obtain ⟨he, hlen⟩ := mem_level hb hx
    have := he.1.length_le
    omega
  obtain ⟨k, t, hlev, hq, -, seen, w, hseen, hl⟩ := levels_rule _ hnext hend hstart
  refine ⟨t, w, seen, hlev.yields .outOfFuel, hl, ?_⟩
  intro e
  rw [hseen]
  constructor
  · rintro ⟨j, -, hm⟩
    exact ⟨j, hm⟩
  · rintro ⟨j, hm⟩
    refine ⟨j, ?_, hm⟩
    by_contra hj
    rw [level_nil_mono (Nat.le_of_not_lt hj) hq.symm] at hm
    cases hm

end

/-- The hypothesis that the strategy is to pick: of the enumerated hypotheses with an
acceptable ordered support one with the smallest, and of these one with the most locks. -/
structure BestAccepted (member : Member) (accept : ℚ) (w : List MyId) : Prop where
  enumerated : w ∈ member.hypotheses
  accepted : accept ≤ member.orderedSupport w
  least : ∀ h ∈ member.hypotheses, accept ≤ member.orderedSupport h → member.orderedSupport w ≤ member.orderedSupport h
  most : ∀ h ∈ member.hypotheses, member.orderedSupport h = member.orderedSupport w → h.length ≤ w.length

/-- The ordered support of a hypothesis in the combinations of a member. -/
def Member.supportOf (member : Member) (h : List MyId) : ℚ :=
  ((evaluation member.combinations h).largest : ℚ) / member.occurrences

/-- A hypothesis is built from another one by a lock before or after all its locks. -/
def Extends (member : Member) (maxHypoLen : Nat) (p h : List MyId) : Prop :=
  Enumerated member maxHypoLen h ∧ IsParent p h

/-- A best hypothesis, by the combinations of the member. -/
structure BestSupported (member : Member) (maxHypoLen : Nat) (accept : ℚ) (t : List MyId) : Prop where
  enumerated : Enumerated member maxHypoLen t
  accepted : accept ≤ member.supportOf t
  least : ∀ h, Enumerated member maxHypoLen h → accept ≤ member.supportOf h → member.supportOf t ≤ member.supportOf h
  most : ∀ h, Enumerated member maxHypoLen h → member.supportOf h = member.supportOf t → h.length ≤ t.length

/-- A best hypothesis can be built up through hypotheses that are not undercut: an acceptable
one with a smaller support has neither fewer locks nor as many and a build-up that comes before
in the order of `std::set`. -/
def Unhidden (member : Member) (maxHypoLen : Nat) (accept : ℚ) : Prop :=
  ∃ t w, BestSupported member maxHypoLen accept t ∧
    ClearWay (Extends member maxHypoLen) (fun x y => compare x y = .lt) member.supportOf accept [] t w

/-- The search comes to an acceptable hypothesis and pushes none of its children, although one of
them is acceptable as well. -/
def DropsAcceptable (member : Member) (accept : ℚ) : Prop :=
  ∃ s p rest t, Rounds (bottomupStep member accept) Search.first (member.graph.children Member.rootNode) s (p :: rest) ∧
    bottomupStep member accept s p = .ok (t, []) ∧ accept ≤ member.orderedSupport p ∧
    ∃ h ∈ member.graph.children p, accept ≤ member.orderedSupport h

/-- The winner is a best hypothesis. -/
def PicksBest (found winner : Member) (accept : ℚ) : Prop :=
  ∃ w rest, winner.conflictList = (w, winner.winningHypothesis) :: rest ∧ BestAccepted found accept w

section

variable {member₀ member : Member} {maxHypoLen : Nat}
  (hb : Built member₀ member (Enumerated member₀ maxHypoLen)) (ho : member₀.Observed) {accept : ℚ}

include hb ho

omit ho in
theorem Built.bestSupported_iff {t : List MyId} :
    BestSupported member₀ maxHypoLen accept t ↔ BestAccepted member accept t := by
  constructor
  · rintro ⟨he, ha, hleast, hmost⟩
    refine ⟨(hb.keys t).mpr he, by rwa [hb.orderedSupport he], ?_, ?_⟩
    · intro h hh
      have hh := (hb.keys h).mp hh
      rw [hb.orderedSupport he, hb.orderedSupport hh]
      exact hleast h hh
    · intro h hh
      have hh := (hb.keys h).mp hh
      rw [hb.orderedSupport he, hb.orderedSupport hh]
      exact hmost h hh
  · rintro ⟨he, ha, hleast, hmost⟩
    have he := (hb.keys t).mp he
    rw [hb.orderedSupport he] at ha hleast hmost
    refine ⟨he, ha, ?_, ?_⟩
    · intro h hh
      have := hleast h ((hb.keys h).mpr hh)
      rwa [hb.orderedSupport hh] at this
    · intro h hh
      have := hmost h ((hb.keys h).mpr hh)
      rwa [hb.orderedSupport hh] at this

/-- The winner is a best hypothesis exactly if one of them was looked at. -/
theorem picksBest_iff (ha : accept ≤ 1) : ∃ s,
    Yields (fun n => selectWinner n (.bottomup accept) member) (member.decided s) ∧ s.winnerFound = true ∧
    (PicksBest member (member.decided s) accept ↔
      ∃ t, BestAccepted member accept t ∧
        (t = [] ∨ Explored member.orderedSupport member.graph.children accept [] t)) := by
  obtain ⟨s, w, seen, hrun, hl, hseen⟩ := bottomup_yields hb ho ha
  obtain ⟨order, rest, hfront⟩ := hl.front
  refine ⟨s, determine_yields hrun, hl.found, ?_⟩
  have hwin : ∀ w' rest', (member.decided s).conflictList = (w', (member.decided s).winningHypothesis) :: rest' ↔
      (w' = w ∧ rest' = rest) := by
    intro w' rest'
    simp [Member.decided, hl.found, hfront, eq_comm]
  have hexp : ∀ t, t = [] ∨ Explored member.orderedSupport member.graph.children accept [] t →
      t ∈ member.hypotheses := by
    rintro t (rfl | ⟨k, hk⟩)
    · exact (hb.keys []).mpr ho.enumerated_nil
    · exact (hb.keys t).mpr (mem_level hb hk).1
  have hwexp : w = [] ∨ Explored member.orderedSupport member.graph.children accept [] w :=
    hl.source.imp_right (hseen w).mp
  constructor
  · rintro ⟨w', rest', hc, hbest⟩
    obtain ⟨rfl, -⟩ := (hwin w' rest').mp hc
    exact ⟨w', hbest, hwexp⟩
  · rintro ⟨t, hbest, ht⟩
    -- The front is no worse than the best hypothesis that was looked at.
    have hle : s.relSupportWinner ≤ member.orderedSupport t := by
      rcases ht with rfl | ht
      · rw [hb.orderedSupport_nil ho]
        exact hl.le_one
      · exact hl.least t ((hseen t).mpr ht) hbest.accepted
    have heq : member.orderedSupport t = member.orderedSupport w :=
      le_antisymm (hbest.least w (hexp w hwexp) (by rw [hl.support]; exact hl.accepted)) (by rw [hl.support]; exact hle)
    have hlen : t.length ≤ w.length := by
      rcases ht with rfl | ht
      · exact Nat.zero_le _
      · exact hl.most t ((hseen t).mpr ht) (by rw [heq, hl.support])
    refine ⟨w, rest, (hwin w rest).mpr ⟨rfl, rfl⟩, hexp w hwexp, by rw [← heq]; exact hbest.accepted, ?_, ?_⟩
    · rw [← heq]
      exact hbest.least
    · intro h hh hs
      exact Nat.le_trans (hbest.most h hh (by rw [hs, heq])) hlen

/-- The state in which the search comes to a level. -/
theorem leads_level (ha : accept ≤ 1) (k : Nat) : ∃ s w seen,
    Rounds (bottomupStep member accept) Search.first (member.graph.children Member.rootNode) s
      (level member.orderedSupport member.graph.children accept [] k).2 ∧
    s.relSupportWinner = (level member.orderedSupport member.graph.children accept [] k).1 ∧
    (∀ e ∈ seen, e.length ≤ k) ∧ Leads member accept seen s w := by
  induction k with
  | zero =>
    refine ⟨Search.first, [], [], .start, rfl, by simp, ?_⟩
    exact ⟨⟨[], [], rfl⟩, rfl, .inl rfl, hb.orderedSupport_nil ho, ha, le_refl _, by simp, by simp⟩
  | succ k ih =>
    obtain ⟨s, w, seen, hr, hrel, hseen, hl⟩ := ih
    have hlevel : ∀ x ∈ (level member.orderedSupport member.graph.children accept [] k).2, x.length = k + 1 :=
      fun x hx => (mem_level hb hx).2
    obtain ⟨t, w', hsw, hrel', hl'⟩ := hl.sweep (L := k + 1) (fun e he => Nat.le_succ_of_le (hseen e he)) hlevel
    rw [hrel] at hsw hrel'
    refine ⟨t, w', _, ?_, hrel', ?_, hl'⟩
    · exact @Rounds.sweep _ _ _ _ _ _ _ _ _ [] _ (by rw [List.append_nil]; exact hr) hsw
    · intro e he
      rcases List.mem_append.mp he with he | he
      · exact Nat.le_succ_of_le (hseen e he)
      · exact (hlevel e he).le

/-- What is dropped by levels is dropped in some round. -/
theorem dropsAcceptable_of_drops (ha : accept ≤ 1)
    (h : Drops member.orderedSupport member.graph.children accept []) : DropsAcceptable member accept := by
  obtain ⟨k, before, p, after, heq, hap, hlow, hchild⟩ := h
  obtain ⟨s, w, seen, hr, hrel, hseen, hl⟩ := leads_level hb ho ha k
  have hlevel : ∀ x ∈ before ++ p :: after, x.length = k + 1 := by
    rw [← heq]
    exact fun x hx => (mem_level hb hx).2
  rw [heq] at hr
  rw [← hrel] at hlow
  obtain ⟨t, w', hsw, hrel', hl'⟩ := hl.sweep (L := k + 1) (q := before) (fun e he => Nat.le_succ_of_le (hseen e he))
    (fun x hx => hlevel x (List.mem_append_left _ hx))
  have hp : ∀ e ∈ seen ++ before, e.length ≤ p.length := by
    intro e he
    rw [hlevel p (by simp)]
    rcases List.mem_append.mp he with he | he
    · exact Nat.le_succ_of_le (hseen e he)
    · exact (hlevel e (List.mem_append_left _ he)).le
  obtain ⟨u, _, hstep, -, -⟩ := hl'.step hp (member.bestOrder p)
  rw [if_neg (by rw [hrel']; exact fun hkeep => absurd hkeep.2 (not_le.mpr hlow))] at hstep
  refine ⟨t, p, _, u, hr.sweep hsw, ?_, hap, hchild⟩
  rw [bottomupStep, examine_eq, hstep]

end

section

variable {member₀ member : Member} {maxHypoLen : Nat}

/-- A `std::set` is traversed in its order. -/
theorem children_sorted {graph : Graph} (p : List MyId) :
    (graph.children p).Pairwise (fun x y => compare x y = .lt) :=
  Std.ExtTreeSet.ordered_toList

theorem Member.Observed.way_enumerated (ho : member₀.Observed) {t : List MyId} {w : List (List MyId)}
    (h : Way (Extends member₀ maxHypoLen) [] t w) : Enumerated member₀ maxHypoLen t := by
  cases h with
  | root => exact ho.enumerated_nil
  | next _ hc => exact hc.1

/-- Every hypothesis is built up in the order of its locks. -/
theorem exists_way {t : List MyId} (ht : Enumerated member₀ maxHypoLen t) :
    ∃ w, Way (Extends member₀ maxHypoLen) [] t w := by
  induction t using List.reverseRecOn with
  | nil => exact ⟨[], .root⟩
  | append_singleton t lock ih =>
    obtain ⟨w, hw⟩ := ih (ht.sublist (List.sublist_append_left t [lock]))
    exact ⟨_, hw.next ⟨ht, by simp, .inl (by simp)⟩⟩

variable (hb : Built member₀ member (Enumerated member₀ maxHypoLen)) (ho : member₀.Observed)

include hb

theorem Built.way_le (p : List MyId) (w : List (List MyId)) (h : List MyId)
    (_ : Way (Extends member₀ maxHypoLen) [] p w) (hc : Extends member₀ maxHypoLen p h) :
    member.orderedSupport h ≤ member.orderedSupport p :=
  hb.orderedSupport_le hc.1 hc.2.sublist

include ho

theorem Built.way_support (t : List MyId) (w : List (List MyId)) (h : Way (Extends member₀ maxHypoLen) [] t w) :
    member₀.supportOf t = member.orderedSupport t :=
  (hb.orderedSupport (ho.way_enumerated h)).symm

/-- Some hypothesis is best. -/
theorem exists_best {accept : ℚ} (ha : accept ≤ 1) : ∃ t, BestSupported member₀ maxHypoLen accept t := by
  let acceptable := member.hypotheses.keys.toFinset.filter (fun h => accept ≤ member₀.supportOf h)
  have hmem : ∀ h, h ∈ acceptable ↔ Enumerated member₀ maxHypoLen h ∧ accept ≤ member₀.supportOf h := by
    intro h
    simp only [acceptable, Finset.mem_filter, List.mem_toFinset, Std.ExtTreeMap.mem_keys, hb.keys]
  have hroot : [] ∈ acceptable := by
    refine (hmem []).mpr ⟨ho.enumerated_nil, ?_⟩
    rwa [hb.way_support ho [] [] .root, hb.orderedSupport_nil ho]
  obtain ⟨s, hs, hleast⟩ := acceptable.exists_min_image member₀.supportOf ⟨[], hroot⟩
  let least := acceptable.filter (fun h => member₀.supportOf h = member₀.supportOf s)
  obtain ⟨t, ht, hmost⟩ := least.exists_max_image List.length ⟨s, Finset.mem_filter.mpr ⟨hs, rfl⟩⟩
  obtain ⟨hta, htle⟩ := Finset.mem_filter.mp ht
  obtain ⟨hte, htacc⟩ := (hmem t).mp hta
  refine ⟨t, hte, htacc, ?_, ?_⟩
  · intro h hh hacc
    rw [htle]
    exact hleast h ((hmem h).mpr ⟨hh, hacc⟩)
  · intro h hh heq
    refine hmost h (Finset.mem_filter.mpr ⟨(hmem h).mpr ⟨hh, ?_⟩, heq.trans htle⟩)
    rwa [heq]

end

/-- The bottom-up strategy picks a best hypothesis if one of them is not hidden, and otherwise
drops an acceptable hypothesis above an acceptable one. If no best hypothesis has more than
two locks, it picks one only if it is not hidden. -/
theorem bottomup_best (member : Member) (maxHypoLen : Nat) (accept : ℚ) (ho : member.Observed) (ha : accept ≤ 1) :
    ∃ found winner, Yields (fun n => findHypotheses n member maxHypoLen) found ∧
      Yields (fun n => selectWinner n (.bottomup accept) found) winner ∧ winner.winnerFound = true ∧
      (Unhidden member maxHypoLen accept → PicksBest found winner accept) ∧
      (¬Unhidden member maxHypoLen accept → DropsAcceptable found accept) ∧
      ((∀ t, BestSupported member maxHypoLen accept t → t.length ≤ 2) → PicksBest found winner accept →
        Unhidden member maxHypoLen accept) := by
  obtain ⟨-, found, hy, -, -, hb⟩ := findHypotheses_yields ho.fresh maxHypoLen
  obtain ⟨s, hsel, hfound, hpick⟩ := picksBest_iff hb ho ha
  refine ⟨found, _, hy, hsel, hfound, ?_, ?_, ?_⟩
  · rintro ⟨t, w, hbest, hclear⟩
    have hbest := hb.bestSupported_iff.mp hbest
    refine hpick.mpr ⟨t, hbest, ?_⟩
    exact explored_of_clear hb.graph children_sorted (fun _ _ => Std.OrientedCmp.not_lt_of_lt) (hb.way_le)
      (hb.orderedSupport_nil ho).le (hclear.congr (hb.way_support ho)) hbest.accepted
  · intro hhidden
    obtain ⟨t, hbest⟩ := exists_best hb ho ha
    obtain ⟨w, hway⟩ := exists_way hbest.enumerated
    refine dropsAcceptable_of_drops hb ho ha ?_
    refine drops_of_not_clear hb.graph children_sorted (fun _ _ => Std.OrientedCmp.not_lt_of_lt) hb.way_le hway
      (hb.bestSupported_iff.mp hbest).accepted fun hclear => hhidden ⟨t, w, hbest, ?_⟩
    exact hclear.congr fun t w h => (hb.way_support ho t w h).symm
  · intro hshort hbest
    obtain ⟨t, hbest, ht⟩ := hpick.mp hbest
    have hbest := hb.bestSupported_iff.mpr hbest
    rcases ht with rfl | ⟨k, hk⟩
    · exact ⟨[], [], hbest, .root⟩
    have hlen := (mem_level hb hk).2
    have hle := hshort t hbest
    obtain rfl | rfl : k = 0 ∨ k = 1 := by omega
    · exact ⟨t, [t], hbest, .next .root not_undercut_nil ((hb.graph _ _).mp hk)⟩
    · obtain ⟨w, hclear⟩ := clear_of_second hb.graph children_sorted (fun _ _ => Std.OrientedCmp.not_lt_of_lt) hb.way_le hk
      exact ⟨t, w, hbest, hclear.congr fun t w h => (hb.way_support ho t w h).symm⟩

theorem oneLock_best : ∃ found winner, Yields (fun n => findHypotheses n oneLock 0) found ∧
    Yields (fun n => selectWinner n (.bottomup (9 / 10)) found) winner ∧ winner.winnerFound = true ∧
    Unhidden oneLock 0 (9 / 10) ∧ PicksBest found winner (9 / 10) := by
  obtain ⟨found, winner, hf, hw, hfound, hbest, -⟩ := bottomup_best oneLock 0 (9 / 10) oneLock_observed (by norm_num)
  have hone : Enumerated oneLock 0 [0] := ⟨⟨by simp, _, List.mem_cons_self, by simp⟩, by simp⟩
  have hcases : ∀ h, Enumerated oneLock 0 h → h = [] ∨ h = [0] := by
    rintro h ⟨⟨hsorted, lc, hlc, hheld⟩, -⟩
    have hzero : ∀ x ∈ h, x = 0 := by
      intro x hx
      have := hheld x hx
      rw [List.mem_singleton.mp hlc] at this
      simpa using this
    cases h with
    | nil => exact .inl rfl
    | cons x xs =>
      cases xs with
      | nil => exact .inr (by rw [hzero x List.mem_cons_self])
      | cons y ys =>
        have hlt := (List.pairwise_cons.mp hsorted).1 y List.mem_cons_self
        rw [hzero y (by simp)] at hlt
        exact absurd hlt (Nat.not_lt_zero x)
  have hsupport : oneLock.supportOf [] = 1 ∧ oneLock.supportOf [0] = 1 := by decide +kernel
  have hunhidden : Unhidden oneLock 0 (9 / 10) := by
    refine ⟨[0], [[0]], ⟨hone, by rw [hsupport.2]; norm_num, ?_, ?_⟩, .next .root not_undercut_nil ⟨hone, by simp, .inl rfl⟩⟩
    · rintro h hh -
      rcases hcases h hh with rfl | rfl
      · exact le_of_eq (hsupport.2.trans hsupport.1.symm)
      · exact le_refl _
    · rintro h hh -
      rcases hcases h hh with rfl | rfl <;> simp
  exact ⟨found, winner, hf, hw, hfound, hunhidden, hbest hunhidden⟩

/-- Two locks that are held together less often than a third one alone. -/
def hiddenPair : Member :=
  { Member.new "inode".toList "r:i_mode".toList with
    combinations := [⟨4, [1]⟩, ⟨2, [2]⟩, ⟨3, [2, 3]⟩, ⟨2, [3]⟩], occurrences := 11, occurrencesWithLocks := 11 }

/-- The first lock has less support than the other two, so that their pair, which has the
smallest acceptable support, is never looked at. -/
theorem hiddenPair_missed : hiddenPair.Observed ∧
    ∃ found winner, Yields (fun n => findHypotheses n hiddenPair 0) found ∧
      Yields (fun n => selectWinner n (.bottomup (1 / 4)) found) winner ∧
      ¬PicksBest found winner (1 / 4) := by
  refine ⟨⟨⟨rfl, rfl⟩, by decide, by decide, by decide⟩, ?_⟩
  have hcheck : okAnd (findHypotheses 30 hiddenPair 0) (fun found =>
      okAnd (selectWinner 30 (.bottomup (1 / 4)) found) (fun winner =>
        winner.conflictList = [([1], [1])] && found.hypotheses.contains [2, 3] &&
          found.orderedSupport [2, 3] = 3 / 11 && found.orderedSupport [1] = 4 / 11)) = true := by decide +kernel
  obtain ⟨found, hf, hcheck⟩ := okAnd_iff.mp hcheck
  obtain ⟨winner, hw, hcheck⟩ := okAnd_iff.mp hcheck
  simp only [Bool.and_eq_true, decide_eq_true_eq] at hcheck
  obtain ⟨⟨⟨hc, hm⟩, hpair⟩, hone⟩ := hcheck
  refine ⟨found, winner, (findHypotheses_stable _ _).yields hf, (selectWinner_stable _ _).yields hw, ?_⟩
  rintro ⟨w, rest, hcw, hbest⟩
  rw [hc] at hcw
  obtain ⟨rfl, -⟩ : w = [1] ∧ winner.winningHypothesis = [1] := by simpa [eq_comm] using (List.cons.inj hcw).1
  have := hbest.least [2, 3] (Std.ExtTreeMap.contains_iff_mem.mp hm) (by rw [hpair]; norm_num)
  rw [hpair, hone] at this
  norm_num at this

end LockDoc.Hypothesizer
