import LockDoc.Hypothesizer.Search

/-!
# The top-down strategy

Unless enough accesses are made without locks, the callback looks for the largest ordered
support. The single locks already show it, since no hypothesis has more support than its
parts. From then on only hypotheses with this support are followed, and the longest of
them are left in the conflict list.
-/
namespace LockDoc.Hypothesizer

open Worklist

/-- The first state of the top-down search. -/
def Search.undecided : Search := ⟨[(Member.rootNode, Member.rootNode)], false, 0⟩

/-- The hypotheses with the support of the winner. -/
def contenders (member : Member) (r : ℚ) (expanded : List (List MyId)) : List (List MyId) :=
  expanded.filter (fun x => x ≠ [] ∧ member.orderedSupport x = r)

/-- Some acceptable hypothesis has been seen, and the best ones are listed. -/
structure Tops (member : Member) (accept : ℚ) (seen expanded : List (List MyId)) (s : Search) : Prop where
  found : s.winnerFound = true
  accepted : accept ≤ s.relSupportWinner
  most : ∀ x ∈ seen, x ≠ [] → member.orderedSupport x ≤ s.relSupportWinner
  followed : ∀ x ∈ seen, x ≠ [] → member.orderedSupport x = s.relSupportWinner → x ∈ expanded
  longest : ListsLongest member s (contenders member s.relSupportWinner expanded)

/-- The invariant of the top-down search. -/
structure FromTop (member₀ member : Member) (maxHypoLen : Nat) (accept : ℚ) (seen expanded : List (List MyId))
    (s : Search) : Prop where
  root : [] ∈ seen → [] ∈ expanded
  enumerated : ∀ x ∈ seen, Enumerated member₀ maxHypoLen x
  state : (s = Search.undecided ∧ ∀ x ∈ seen, x ≠ [] → member.orderedSupport x < accept) ∨
    Tops member accept seen expanded s

theorem contenders_append (member : Member) (r : ℚ) (expanded : List (List MyId)) (x : List MyId) :
    contenders member r (expanded ++ [x]) =
      contenders member r expanded ++ if x ≠ [] ∧ member.orderedSupport x = r then [x] else [] := by
  unfold contenders
  rw [List.filter_append]
  congr 1
  split <;> rename_i hx <;> simp [hx]

theorem mem_contenders {member : Member} {r : ℚ} {expanded : List (List MyId)} {x : List MyId} :
    x ∈ contenders member r expanded ↔ x ∈ expanded ∧ x ≠ [] ∧ member.orderedSupport x = r := by
  simp [contenders]

/-- The callback while accesses without locks do not decide. -/
theorem topdown_eq {member : Member} {accept nolock : ℚ} (hn : ¬nolock ≤ member.nolockFraction) (s : Search)
    (x order : List MyId) (r : ℚ) :
    evaluateHypothesisTopdown accept nolock member s x order r =
      if x = [] then (s, member.graph.children x)
      else if s.frontSize = x.length ∧ r = s.relSupportWinner then (s.save x order, member.graph.children x)
      else if accept ≤ r ∧ s.relSupportWinner ≤ r ∧ s.frontSize ≤ x.length then
        ({ s.replace x order with relSupportWinner := r }, member.graph.children x)
      else (s, []) := by
  unfold evaluateHypothesisTopdown
  rw [if_pos hn]
  rfl

section

variable {member : Member} {accept : ℚ} {seen expanded : List (List MyId)} {s : Search} {x : List MyId}

/-- A hypothesis with more support than all before it becomes the only winner. -/
theorem tops_reset (hne : x ≠ []) (hsub : ∀ p ∈ expanded, p ∈ seen) (ha : accept ≤ member.orderedSupport x)
    (hlt : ∀ e ∈ seen, e ≠ [] → member.orderedSupport e < member.orderedSupport x) :
    Tops member accept (seen ++ [x]) (expanded ++ [x])
      { s.replace x (member.bestOrder x) with relSupportWinner := member.orderedSupport x } where
  found := rfl
  accepted := ha
  most := forall_mem_concat.mpr ⟨fun e he hee => le_of_lt (hlt e he hee), fun _ => le_refl _⟩
  followed e he hee hs := by
    rcases List.mem_append.mp he with he | he
    · exact absurd hs (ne_of_lt (hlt e he hee))
    · exact List.mem_append_right _ he
  longest := by
    have hnone : contenders member (member.orderedSupport x) expanded = [] := by
      rw [List.eq_nil_iff_forall_not_mem]
      intro e he
      obtain ⟨he, hee, hs⟩ := mem_contenders.mp he
      exact absurd hs (ne_of_lt (hlt e (hsub e he) hee))
    rw [contenders_append, hnone, if_pos ⟨hne, rfl⟩]
    obtain ⟨hs, hl, hrest⟩ := @listsLongest_replace member s [] x (by simp)
    exact ⟨hs, ⟨hl.entries, hl.nodup⟩, hrest⟩

variable (h : Tops member accept seen expanded s)

include h

/-- The root counts for nothing. -/
theorem Tops.root : Tops member accept (seen ++ [[]]) (expanded ++ [[]]) s where
  found := h.found
  accepted := h.accepted
  most := forall_mem_concat.mpr ⟨h.most, fun hee => absurd rfl hee⟩
  followed e he hee hs := by
    rcases List.mem_append.mp he with he | he
    · exact List.mem_append_left _ (h.followed e he hee hs)
    · exact absurd (List.mem_singleton.mp he) hee
  longest := by
    rw [contenders_append, if_neg (by simp), List.append_nil]
    exact h.longest

/-- A hypothesis with less support is dropped. -/
theorem Tops.skip (hlt : member.orderedSupport x < s.relSupportWinner) :
    Tops member accept (seen ++ [x]) expanded s where
  found := h.found
  accepted := h.accepted
  most := forall_mem_concat.mpr ⟨h.most, fun _ => le_of_lt hlt⟩
  followed := forall_mem_concat.mpr ⟨h.followed, fun _ hs => absurd hs (ne_of_lt hlt)⟩
  longest := h.longest

/-- A hypothesis with the support of the winner is one more contender. -/
theorem Tops.tie {t : Search} (hne : x ≠ []) (heq : member.orderedSupport x = s.relSupportWinner)
    (hfound : t.winnerFound = true) (hrel : t.relSupportWinner = s.relSupportWinner)
    (hlong : ListsLongest member t (contenders member s.relSupportWinner expanded ++ [x])) :
    Tops member accept (seen ++ [x]) (expanded ++ [x]) t where
  found := hfound
  accepted := by rw [hrel]; exact h.accepted
  most := by
    rw [hrel]
    exact forall_mem_concat.mpr ⟨h.most, fun _ => le_of_eq heq⟩
  followed e he hee hs := by
    rw [hrel] at hs
    rcases List.mem_append.mp he with he | he
    · exact List.mem_append_left _ (h.followed e he hee hs)
    · exact List.mem_append_right _ he
  longest := by
    rw [hrel, contenders_append, if_pos ⟨hne, heq⟩]
    exact hlong

end

section

variable {member₀ member : Member} {maxHypoLen : Nat} {accept nolock : ℚ}
  (hb : Built member₀ member (Enumerated member₀ maxHypoLen)) (ho : member₀.Observed)

include hb ho

/-- One hypothesis that is at least as long as all before it, once there is a winner. -/
theorem Tops.step (hn : ¬nolock ≤ member.nolockFraction) {seen expanded : List (List MyId)} {s : Search}
    {x : List MyId} (h : Tops member accept seen expanded s) (hsub : ∀ p ∈ expanded, p ∈ seen)
    (hseen : ∀ e ∈ seen, Enumerated member₀ maxHypoLen e) (hx : Enumerated member₀ maxHypoLen x) (hne : x ≠ [])
    (hle : ∀ e ∈ seen, e.length ≤ x.length) :
    ∃ t, (evaluateHypothesisTopdown accept nolock member s x (member.bestOrder x) (member.orderedSupport x) =
          (t, member.graph.children x) ∧ Tops member accept (seen ++ [x]) (expanded ++ [x]) t) ∨
      (evaluateHypothesisTopdown accept nolock member s x (member.bestOrder x) (member.orderedSupport x) = (t, []) ∧
        Tops member accept (seen ++ [x]) expanded t) := by
  obtain ⟨c, hc, hsize, hmax⟩ := h.longest.frontSize
  have hcx : s.frontSize ≤ x.length := by
    rw [hsize]
    exact hle c (hsub c (mem_contenders.mp hc).1)
  rw [topdown_eq hn, if_neg hne]
  by_cases hequal : s.frontSize = x.length ∧ member.orderedSupport x = s.relSupportWinner
  · rw [if_pos hequal]
    refine ⟨_, .inl ⟨rfl, h.tie hne hequal.2 ?_ (s.save_support _ _) ?_⟩⟩
    · rw [Search.save_found]
      exact h.found
    · refine h.longest.save hequal.1 fun d hd => hb.bestOrder_inj ho ?_ hx
      exact hseen d (hsub d (mem_contenders.mp hd).1)
  · rw [if_neg hequal]
    rcases lt_trichotomy (member.orderedSupport x) s.relSupportWinner with hlt | heq | hgt
    · rw [if_neg fun hc => absurd hc.2.1 (not_le.mpr hlt)]
      exact ⟨s, .inr ⟨rfl, h.skip hlt⟩⟩
    · rw [if_pos ⟨by rw [heq]; exact h.accepted, le_of_eq heq.symm, hcx⟩]
      refine ⟨_, .inl ⟨rfl, h.tie hne heq rfl heq ?_⟩⟩
      obtain ⟨hs, hl, hrest⟩ := @listsLongest_replace member s (contenders member s.relSupportWinner expanded) x
        (fun d hd => by
          have := hmax d hd
          have : s.frontSize ≠ x.length := fun he => hequal ⟨he, heq⟩
          omega)
      exact ⟨hs, ⟨hl.entries, hl.nodup⟩, hrest⟩
    · rw [if_pos ⟨le_trans h.accepted (le_of_lt hgt), le_of_lt hgt, hcx⟩]
      refine ⟨_, .inl ⟨rfl, tops_reset hne hsub (le_trans h.accepted (le_of_lt hgt)) ?_⟩⟩
      exact fun e he hee => lt_of_le_of_lt (h.most e he hee) hgt

/-- One hypothesis that is at least as long as all before it. -/
theorem FromTop.step (hn : ¬nolock ≤ member.nolockFraction) {seen expanded : List (List MyId)} {s : Search}
    {x : List MyId} (h : FromTop member₀ member maxHypoLen accept seen expanded s) (hsub : ∀ p ∈ expanded, p ∈ seen)
    (hx : Enumerated member₀ maxHypoLen x) (hle : ∀ e ∈ seen, e.length ≤ x.length) :
    ∃ t, (evaluateHypothesisTopdown accept nolock member s x (member.bestOrder x) (member.orderedSupport x) =
          (t, member.graph.children x) ∧
        FromTop member₀ member maxHypoLen accept (seen ++ [x]) (expanded ++ [x]) t) ∨
      (evaluateHypothesisTopdown accept nolock member s x (member.bestOrder x) (member.orderedSupport x) = (t, []) ∧
        FromTop member₀ member maxHypoLen accept (seen ++ [x]) expanded t) := by
  have henum : ∀ e ∈ seen ++ [x], Enumerated member₀ maxHypoLen e := forall_mem_concat.mpr ⟨h.enumerated, hx⟩
  have hroot : [] ∈ seen ++ [x] → [] ∈ expanded ++ [x] := by
    intro he
    rcases List.mem_append.mp he with he | he
    · exact List.mem_append_left _ (h.root he)
    · exact List.mem_append_right _ he
  by_cases hne : x = []
  · subst hne
    rw [topdown_eq hn, if_pos rfl]
    refine ⟨s, .inl ⟨rfl, hroot, henum, ?_⟩⟩
    rcases h.state with ⟨hs, hlow⟩ | hT
    · exact .inl ⟨hs, forall_mem_concat.mpr ⟨hlow, fun hee => absurd rfl hee⟩⟩
    · exact .inr hT.root
  have hroot' : [] ∈ seen ++ [x] → [] ∈ expanded := by
    intro he
    rcases List.mem_append.mp he with he | he
    · exact h.root he
    · exact absurd (List.mem_singleton.mp he).symm hne
  rcases h.state with ⟨rfl, hlow⟩ | hT
  · rw [topdown_eq hn, if_neg hne, if_neg fun hc => hne (List.length_eq_zero_iff.mp hc.1.symm)]
    by_cases ha : accept ≤ member.orderedSupport x
    · rw [if_pos ⟨ha, le_of_lt (hb.orderedSupport_pos ho hx), Nat.zero_le _⟩]
      refine ⟨_, .inl ⟨rfl, hroot, henum, .inr (tops_reset hne hsub ha ?_)⟩⟩
      exact fun e he hee => lt_of_lt_of_le (hlow e he hee) ha
    · rw [if_neg fun hc => ha hc.1]
      exact ⟨_, .inr ⟨rfl, hroot', henum, .inl ⟨rfl, forall_mem_concat.mpr ⟨hlow, fun _ => not_le.mp ha⟩⟩⟩⟩
  · obtain ⟨t, ⟨he, hT'⟩ | ⟨he, hT'⟩⟩ := hT.step hb ho hn hsub h.enumerated hx hne hle
    · exact ⟨t, .inl ⟨he, hroot, henum, .inr hT'⟩⟩
    · exact ⟨t, .inr ⟨he, hroot', henum, .inr hT'⟩⟩

section

variable {seen expanded : List (List MyId)} {s : Search} (h : FromTop member₀ member maxHypoLen accept seen expanded s)
  (hsearch : Searched member.graph.children [Member.rootNode] seen expanded)

include h hsearch

omit ho in
theorem FromTop.single_seen {x : List MyId} (hx : Enumerated member₀ maxHypoLen x) (hlen : x.length = 1) : x ∈ seen := by
  have hne : x ≠ [] := List.ne_nil_of_length_eq_add_one hlen
  have hchild := hb.mem_children_dropLast hx hne
  have hnil : x.dropLast = [] := List.length_eq_zero_iff.mp (by rw [List.length_dropLast, hlen])
  rw [hnil] at hchild
  exact hsearch.below [] (h.root (hsearch.start _ (by simp [Member.rootNode]))) x hchild

omit ho in
/-- If the largest support is acceptable, it is the support of the winner. -/
theorem FromTop.tops {M : ℚ} (hM : IsGreatest {r | ∃ e, Enumerated member₀ maxHypoLen e ∧ e ≠ [] ∧
    member.orderedSupport e = r} M) (ha : accept ≤ M) :
    Tops member accept seen expanded s ∧ s.relSupportWinner = M := by
  obtain ⟨⟨e, he, hne, hs⟩, hmax⟩ := hM
  -- A part with one lock has no less support.
  have hsub : (e.take 1).Sublist e := List.take_sublist 1 e
  have hpart := he.sublist hsub
  have hlen : (e.take 1).length = 1 := by
    rw [List.length_take]
    have := List.length_pos_iff.mpr hne
    omega
  have hpne : e.take 1 ≠ [] := List.ne_nil_of_length_eq_add_one hlen
  have hseen := h.single_seen hb hsearch hpart hlen
  have hM' : M ≤ member.orderedSupport (e.take 1) := by
    rw [← hs]
    exact hb.orderedSupport_le he hsub
  rcases h.state with ⟨-, hlow⟩ | hT
  · exact absurd (lt_of_lt_of_le (hlow _ hseen hpne) ha) (not_lt.mpr hM')
  · refine ⟨hT, le_antisymm ?_ (le_trans hM' (hT.most _ hseen hpne))⟩
    obtain ⟨c, hc, -, -⟩ := hT.longest.frontSize
    obtain ⟨hce, hcne, hcs⟩ := mem_contenders.mp hc
    exact hmax ⟨c, h.enumerated c (hsearch.sub c hce), hcne, hcs⟩

omit ho in
/-- Every hypothesis with the largest support is followed. -/
theorem FromTop.complete {M : ℚ} (hM : IsGreatest {r | ∃ e, Enumerated member₀ maxHypoLen e ∧ e ≠ [] ∧
    member.orderedSupport e = r} M) (ha : accept ≤ M) {x : List MyId} (hx : Enumerated member₀ maxHypoLen x)
    (hne : x ≠ []) (hs : member.orderedSupport x = M) : x ∈ expanded := by
  obtain ⟨hT, hr⟩ := h.tops hb hsearch hM ha
  induction hn : x.length using Nat.strong_induction_on generalizing x with
  | _ n ih =>
    refine hT.followed x ?_ hne (hs.trans hr.symm)
    by_cases hlen : x.length = 1
    · exact h.single_seen hb hsearch hx hlen
    · have hpos := List.length_pos_iff.mpr hne
      have hsub : x.dropLast.Sublist x := List.dropLast_sublist x
      have hpart := hx.sublist hsub
      have hplen : x.dropLast.length = x.length - 1 := List.length_dropLast
      have hpne : x.dropLast ≠ [] := fun hnil => by rw [hnil, List.length_nil] at hplen; omega
      have hps : member.orderedSupport x.dropLast = M := by
        refine le_antisymm (hM.2 ⟨_, hpart, hpne, rfl⟩) ?_
        rw [← hs]
        exact hb.orderedSupport_le hx hsub
      have hexp := ih _ (by omega) hpart hpne hps rfl
      exact hsearch.below _ hexp x (hb.mem_children_dropLast hx hne)

end

/-- The search with the top-down callbacks, when accesses without locks do not decide. -/
theorem topdown_yields (hn : ¬nolock ≤ member.nolockFraction) :
    ∃ seen expanded t, Yields (fun n => selectWinner n (.topdown accept nolock) member) (member.decided t) ∧
      Searched member.graph.children [Member.rootNode] seen expanded ∧
      FromTop member₀ member maxHypoLen accept seen expanded t := by
  have hfirst : FromTop member₀ member maxHypoLen accept [] [] Search.undecided :=
    ⟨by simp, by simp, .inl ⟨rfl, by simp⟩⟩
  obtain ⟨seen, expanded, t, hrun, hsearch, hI⟩ := hb.search_yields
    (fun seen expanded s x hI hsub hx hle => FromTop.step hb ho hn hI hsub hx hle)
    (q := [Member.rootNode]) (L := 0)
    (by simpa [Member.rootNode] using ho.enumerated_nil) hfirst
  exact ⟨seen, expanded, t, hrun.bind (g := fun s _ => .ok (member.decided s)) (.const _), hsearch, hI⟩

end

/-- When accesses without locks decide, the root is looked at, and nothing else. -/
theorem topdown_nolock_yields {member : Member} {accept nolock : ℚ} (hn : nolock ≤ member.nolockFraction) :
    Yields (fun n => selectWinner n (.topdown accept nolock) member) (member.decided ⟨[([], [])], true, 0⟩) := by
  refine ⟨1, fun n hle => ?_⟩
  obtain ⟨k, rfl⟩ : ∃ k, n = k + 1 := ⟨n - 1, by omega⟩
  simp only [selectWinner, determineWinningHypothesis, determineWith, evaluateHypothesisInitTopdown, run, examineWith,
    evaluateHypothesisTopdown, hn, not_true_eq_false, if_false]
  cases k <;> rfl

/-- The fraction of the accesses that are made without locks. -/
def Member.locklessFraction (member : Member) : ℚ :=
  (occurrencesOf member.combinations (fun lc => lc.locksHeld = []) : ℚ) / member.occurrences

/-- The accesses with locks have been counted. -/
def Member.LocksCounted (member : Member) : Prop :=
  member.occurrencesWithLocks = occurrencesOf member.combinations (fun lc => lc.locksHeld ≠ [])

theorem occurrencesOf_add_not (cs : List LockCombination) (p : LockCombination → Bool) :
    occurrencesOf cs p + occurrencesOf cs (fun lc => !p lc) = occurrencesOf cs (fun _ => true) := by
  induction cs with
  | nil => rfl
  | cons lc cs ih =>
    rw [← List.singleton_append, occurrencesOf_append, occurrencesOf_append, occurrencesOf_append,
      occurrencesOf_singleton, occurrencesOf_singleton, occurrencesOf_singleton]
    cases hp : p lc <;> simp only [Bool.not_true, Bool.not_false, Bool.false_eq_true, if_true, if_false] <;> omega

theorem Member.Observed.nolockFraction {member : Member} (ho : member.Observed) (hl : member.LocksCounted) :
    member.nolockFraction = member.locklessFraction := by
  have hsum := occurrencesOf_add_not member.combinations (fun lc => decide (lc.locksHeld = []))
  rw [Member.LocksCounted] at hl
  simp only [decide_not] at hl
  rw [← ho.occurrences, ← hl] at hsum
  rw [Member.nolockFraction, Member.locklessFraction, ← hsum, Nat.add_sub_cancel]

/-- Unless all accesses are made without locks, some lock is a hypothesis. -/
theorem Member.Observed.exists_single {member : Member} (ho : member.Observed) (maxHypoLen : Nat)
    (hlt : member.locklessFraction < 1) : ∃ h, Enumerated member maxHypoLen h ∧ h ≠ [] := by
  have hocc : (0 : ℚ) < member.occurrences := Nat.cast_pos.mpr ho.occurrences_pos
  have hne : ∃ lc ∈ member.combinations, lc.locksHeld ≠ [] := by
    by_contra hcon
    push Not at hcon
    have hall := (occurrencesOf_eq_all ho.positive (p := fun lc => decide (lc.locksHeld = []))).mpr
      (fun lc hlc => by simpa using hcon lc hlc)
    rw [Member.locklessFraction, hall, ← ho.occurrences, div_self (ne_of_gt hocc)] at hlt
    exact absurd hlt (lt_irrefl _)
  obtain ⟨lc, hlc, hheld⟩ := hne
  obtain ⟨x, hx⟩ := List.exists_mem_of_ne_nil _ hheld
  exact ⟨[x], ⟨⟨by simp, lc, hlc, by simpa using hx⟩, fun hpos => hpos⟩, by simp⟩

/-- There is a largest support of the hypotheses with locks. -/
theorem Built.exists_greatest {member₀ member : Member} {maxHypoLen : Nat}
    (hb : Built member₀ member (Enumerated member₀ maxHypoLen))
    (hex : ∃ h, Enumerated member₀ maxHypoLen h ∧ h ≠ []) :
    ∃ M, IsGreatest {r | ∃ e, Enumerated member₀ maxHypoLen e ∧ e ≠ [] ∧ member.orderedSupport e = r} M := by
  have hmem : ∀ e, e ∈ (member.hypotheses.keys.filter (· ≠ [])).toFinset ↔ Enumerated member₀ maxHypoLen e ∧ e ≠ [] := by
    intro e
    simp [Std.ExtTreeMap.mem_keys, hb.keys]
  obtain ⟨h, hh⟩ := hex
  obtain ⟨e, he, hmax⟩ := Finset.exists_max_image _ member.orderedSupport ⟨h, (hmem h).mpr hh⟩
  obtain ⟨hen, hne⟩ := (hmem e).mp he
  refine ⟨member.orderedSupport e, ⟨e, hen, hne, rfl⟩, ?_⟩
  rintro r ⟨e', hen', hne', rfl⟩
  exact hmax e' ((hmem e').mpr ⟨hen', hne'⟩)

/-- The top-down strategy finds a hypothesis with the largest ordered support if that is
acceptable, and its conflict list names exactly the longest ones. -/
theorem topdown_optimal (member : Member) (maxHypoLen : Nat) (accept nolock : ℚ) (ho : member.Observed)
    (hl : member.LocksCounted) (hn : nolock ≤ 1) :
    ∃ found winner, Yields (fun n => findHypotheses n member maxHypoLen) found ∧
      Yields (fun n => selectWinner n (.topdown accept nolock) found) winner ∧
      (nolock ≤ member.locklessFraction →
        winner.winnerFound = true ∧ winner.winningHypothesis = [] ∧ winner.conflictList = [([], [])]) ∧
      (¬nolock ≤ member.locklessFraction →
        ∃ M, IsGreatest {r | ∃ h ∈ found.hypotheses, h ≠ [] ∧ found.orderedSupport h = r} M ∧
          (M < accept → winner.winnerFound = false) ∧
          (accept ≤ M → winner.winnerFound = true ∧ (winner.conflictList.map Prod.fst).Nodup ∧
            (∀ h, h ∈ winner.conflictList.map Prod.fst ↔
              IsLongest (fun h => h ∈ found.hypotheses ∧ found.orderedSupport h = M) h) ∧
            (∀ e ∈ winner.conflictList, (found.hypotheses.getD e.1 {}).IsMostFrequent e.2) ∧
            ∃ w rest, winner.conflictList = w :: rest ∧ winner.winningHypothesis = w.2)) := by
  obtain ⟨-, found, hy, -, -, hb⟩ := findHypotheses_yields ho.fresh maxHypoLen
  have hfrac : found.nolockFraction = member.locklessFraction := by
    rw [← ho.nolockFraction hl, hb.rest]
    rfl
  by_cases hwin : nolock ≤ member.locklessFraction
  · have hrun := @topdown_nolock_yields found accept nolock (by rw [hfrac]; exact hwin)
    exact ⟨found, _, hy, hrun, fun _ => ⟨rfl, rfl, rfl⟩, fun hc => absurd hwin hc⟩
  · obtain ⟨seen, expanded, t, hsel, hsearch, hI⟩ := @topdown_yields member found maxHypoLen accept nolock hb ho
      (by rw [hfrac]; exact hwin)
    refine ⟨found, _, hy, hsel, fun hc => absurd hc hwin, fun _ => ?_⟩
    obtain ⟨M, hM⟩ := hb.exists_greatest (ho.exists_single maxHypoLen (lt_of_lt_of_le (not_le.mp hwin) hn))
    refine ⟨M, by simpa only [hb.keys] using hM, ?_, ?_⟩
    · intro hlt
      rcases hI.state with ⟨rfl, -⟩ | hT
      · rfl
      · obtain ⟨c, hc, -, -⟩ := hT.longest.frontSize
        obtain ⟨hce, hcne, hcs⟩ := mem_contenders.mp hc
        have := hM.2 ⟨c, hI.enumerated c (hsearch.sub c hce), hcne, hcs⟩
        exact absurd (lt_of_lt_of_le hlt hT.accepted) (not_lt.mpr this)
    · intro ha
      obtain ⟨hT, hr⟩ := hI.tops hb hsearch hM ha
      obtain ⟨hnd, hmem, horder⟩ := hT.longest.conflictList
      -- The contenders are the hypotheses with the largest support, except for the root.
      have hcand : ∀ x, x ∈ contenders found t.relSupportWinner expanded ↔
          Enumerated member maxHypoLen x ∧ x ≠ [] ∧ found.orderedSupport x = M := by
        intro x
        rw [mem_contenders, hr]
        constructor
        · rintro ⟨hx, hne, hs⟩
          exact ⟨hI.enumerated x (hsearch.sub x hx), hne, hs⟩
        · rintro ⟨hx, hne, hs⟩
          exact ⟨hI.complete hb hsearch hM ha hx hne hs, hne, hs⟩
      refine ⟨hT.found, hnd, ?_, ?_, ?_⟩
      · intro h
        change h ∈ t.conflictList.map Prod.fst ↔ _
        rw [hmem]
        simp only [hcand, IsLongest, hb.keys]
        constructor
        · rintro ⟨⟨hx, -, hs⟩, hmax⟩
          refine ⟨⟨hx, hs⟩, fun h' hh' => ?_⟩
          by_cases hne : h' = []
          · simp [hne]
          · exact hmax h' ⟨hh'.1, hne, hh'.2⟩
        · rintro ⟨⟨hx, hs⟩, hmax⟩
          obtain ⟨e, he, hne, hes⟩ := hM.1
          have hlen : 0 < h.length := Nat.lt_of_lt_of_le (List.length_pos_iff.mpr hne) (hmax e ⟨he, hes⟩)
          exact ⟨⟨hx, List.length_pos_iff.mp hlen, hs⟩, fun c hc => hmax c ⟨hc.1, hc.2.2⟩⟩
      · intro e he
        have hcon := ((hmem e.1).mp (List.mem_map_of_mem he)).1
        rw [horder e he]
        exact hb.bestOrder_mostFrequent ho ((hcand e.1).mp hcon).1
      · obtain ⟨hs, hlist, hne, -⟩ := hT.longest
        cases hs with
        | nil => exact absurd rfl hne
        | cons x hs =>
          refine ⟨_, _, hlist.entries, ?_⟩
          simp [Member.decided, hT.found, hlist.entries]

theorem oneLock_locksCounted : oneLock.LocksCounted := by
  unfold Member.LocksCounted
  decide

theorem oneLock_topdown : ∃ found winner, Yields (fun n => findHypotheses n oneLock 0) found ∧
    Yields (fun n => selectWinner n (.topdown (9 / 10) (1 / 20)) found) winner ∧
    (¬(1 / 20 : ℚ) ≤ oneLock.locklessFraction →
      ∃ M, IsGreatest {r | ∃ h ∈ found.hypotheses, h ≠ [] ∧ found.orderedSupport h = r} M ∧
        (M < 9 / 10 → winner.winnerFound = false)) := by
  obtain ⟨found, winner, hf, hw, -, hbest⟩ :=
    topdown_optimal oneLock 0 (9 / 10) (1 / 20) oneLock_observed oneLock_locksCounted (by norm_num)
  refine ⟨found, winner, hf, hw, fun hn => ?_⟩
  obtain ⟨M, hM, hnone, -⟩ := hbest hn
  exact ⟨M, hM, hnone⟩

end LockDoc.Hypothesizer
