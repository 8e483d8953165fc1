import LockDoc.Hypothesizer.Selection

/-!
# The list of winners during a search

Between two rounds of the search the conflict list is never empty, and its hypotheses are
alike: they have the same number of locks and the same ordered support. The front of the
queue is never shorter than they are, so the winners only get longer.
-/
namespace LockDoc.Hypothesizer

open Worklist

/-- The `eval_cb` of a strategy with its parameters. -/
def Strategy.evalCb : Strategy → Callback
  | .sharpen factor => evaluateHypothesisSharpen factor
  | .bottomup accept => evaluateHypothesisBottomup accept
  | .topdown accept nolock => evaluateHypothesisTopdown accept nolock
  | .lockset => evaluateHypothesisLockset

/-- What stands in front of the loop: the first state and the first nodes. -/
def Strategy.first (strategy : Strategy) (member : Member) : Search × List (List MyId) :=
  match strategy with
  | .topdown _ _ => evaluateHypothesisInitTopdown Search.first (member.graph.children Member.rootNode)
  | _ => (Search.first, member.graph.children Member.rootNode)

/-- One round of the loop of `determine_winning_hypothesis`. -/
def Strategy.round (strategy : Strategy) (member : Member) (s : Search) (node : List MyId) :
    Except Stop (Search × List (List MyId)) := .ok (examine member strategy.evalCb s node)

/-- The state and the queue at the head of some iteration of the loop. -/
def Iterates (strategy : Strategy) (member : Member) : Search → List (List MyId) → Prop :=
  Rounds (strategy.round member) (strategy.first member).1 (strategy.first member).2

theorem selectWinner_eq (fuel : Nat) (strategy : Strategy) (member : Member) :
    selectWinner fuel strategy member = (do
      let s ← run .outOfFuel (strategy.round member) fuel (strategy.first member).1 (strategy.first member).2
      .ok (member.decided s)) := by
  cases strategy <;> rfl

/-- The variable `rel_support_winner` holds the support of the winners. Top-down this is so
once it has left the root; the lockset strategy does not use the variable. -/
def Strategy.recordsSupport (strategy : Strategy) (s : Search) : Prop :=
  match strategy with
  | .sharpen _ | .bottomup _ => True
  | .topdown _ _ => s.frontSize ≠ 0
  | .lockset => False

/-- The support that all winners have. -/
def Strategy.winnerSupport (strategy : Strategy) (s : Search) : ℚ :=
  match strategy with
  | .sharpen _ | .bottomup _ => s.relSupportWinner
  | .topdown _ _ => if s.frontSize = 0 then 1 else s.relSupportWinner
  | .lockset => 1

theorem Strategy.recordsSupport_eq {strategy : Strategy} {s : Search} (h : strategy.recordsSupport s) :
    strategy.winnerSupport s = s.relSupportWinner := by
  cases strategy with
  | sharpen => rfl
  | bottomup => rfl
  | topdown => exact if_neg h
  | lockset => exact h.elim

/-- What a round may do with the winners: one more of the same kind, or a new kind. -/
inductive Update (strategy : Strategy) (member : Member) (s : Search) (x : List MyId) : Search → Prop
  | keep : Update strategy member s x s
  | nolock : Update strategy member s x { s with winnerFound := true }
  | save (found : s.winnerFound = true) (locks : s.frontSize = x.length)
    (support : member.orderedSupport x = strategy.winnerSupport s) :
    Update strategy member s x (s.save x (member.bestOrder x))
  | replace (r : ℚ)
    (support : member.orderedSupport x =
      strategy.winnerSupport { s.replace x (member.bestOrder x) with relSupportWinner := r }) :
    Update strategy member s x { s.replace x (member.bestOrder x) with relSupportWinner := r }

/-- A round updates the winners and pushes all children or none. -/
def Updates (strategy : Strategy) (member : Member) (s : Search) (x : List MyId) : Prop :=
  ∃ t p, examine member strategy.evalCb s x = (t, p) ∧ Update strategy member s x t ∧
    (p = member.graph.children x ∨ p = [])

section

variable {member : Member} {s : Search} {x : List MyId}

/-- A reaction is such an update when the winners it leaves have one length and one support. -/
theorem Reacts.updates {strategy : Strategy} {saves : Prop} {replaces : ℚ → Prop}
    (h : Reacts member s x (member.bestOrder x) saves replaces
      (strategy.evalCb member s x (member.bestOrder x) (member.orderedSupport x)))
    (hsave : saves → s.winnerFound = true ∧ s.frontSize = x.length ∧
      member.orderedSupport x = strategy.winnerSupport s)
    (hreplace : ∀ r, replaces r → member.orderedSupport x =
      strategy.winnerSupport { s.replace x (member.bestOrder x) with relSupportWinner := r }) :
    Updates strategy member s x := by
  unfold Updates
  rw [examine_eq]
  generalize strategy.evalCb member s x (member.bestOrder x) (member.orderedSupport x) = result at h
  cases h with
  | pass => exact ⟨_, _, rfl, .keep, .inl rfl⟩
  | drop => exact ⟨_, _, rfl, .keep, .inr rfl⟩
  | save hs =>
    obtain ⟨hfound, hlocks, hsupport⟩ := hsave hs
    exact ⟨_, _, rfl, .save hfound hlocks hsupport, .inl rfl⟩
  | replace r hr => exact ⟨_, _, rfl, .replace r (hreplace r hr), .inl rfl⟩

/-- No support is above 1, so the lockset strategy follows full support alone. -/
theorem updates_lockset (hw : s.winnerFound = true) (hle : member.orderedSupport x ≤ 1) :
    Updates .lockset member s x := by
  have hone : ¬member.orderedSupport x < 1 → member.orderedSupport x = 1 := fun h => le_antisymm hle (not_lt.mp h)
  have hreacts : Reacts member s x (member.bestOrder x) _ _
      (Strategy.lockset.evalCb member s x (member.bestOrder x) (member.orderedSupport x)) := reacts_lockset
  exact hreacts.updates (fun h => ⟨hw, h.1, hone h.2⟩) fun _ h => hone h

/-- Top-down the root is passed over, so the winners that join or replace others have locks. -/
theorem updates_topdown (accept nolock : ℚ) (hlist : s.conflictList ≠ [])
    (hw : s.winnerFound = false → s.frontSize = 0) : Updates (.topdown accept nolock) member s x := by
  by_cases hn : nolock ≤ member.nolockFraction
  · have hlen : s.conflictList.length ≠ 0 := fun he => hlist (List.length_eq_zero_iff.mp he)
    unfold Updates
    rw [examine_eq]
    refine ⟨{ s with winnerFound := true }, [], ?_, .nolock, .inr rfl⟩
    simp only [Strategy.evalCb, evaluateHypothesisTopdown, not_not.mpr hn, if_false, hlen]
  · have hreacts : Reacts member s x (member.bestOrder x) _ _
        ((Strategy.topdown accept nolock).evalCb member s x (member.bestOrder x) (member.orderedSupport x)) :=
      reacts_topdown accept hn
    refine hreacts.updates (fun h => ?_) fun r h => ?_
    · have hfront : s.frontSize ≠ 0 := fun he => h.1 (List.eq_nil_of_length_eq_zero (h.2.1.symm.trans he))
      exact ⟨found_of_front hw h.1 h.2.1, h.2.1, h.2.2.trans (if_neg hfront).symm⟩
    · have hpos : x.length ≠ 0 := fun he => h.1 (List.length_eq_zero_iff.mp he)
      exact h.2.symm.trans (if_neg hpos).symm

end

/-- The winners are alike. -/
structure Homogeneous (strategy : Strategy) (member : Member) (s : Search) : Prop where
  nonempty : s.conflictList ≠ []
  distinct : s.conflictList.Nodup
  orders : ∀ e ∈ s.conflictList, e.2.Perm e.1 ∧ (member.hypotheses.getD e.1 {}).IsMostFrequent e.2
  locks : ∀ e ∈ s.conflictList, e.1.length = s.frontSize
  support : ∀ e ∈ s.conflictList, ∀ e' ∈ s.conflictList, member.orderedSupport e.1 = member.orderedSupport e'.1
  recorded : strategy.recordsSupport s → ∀ e ∈ s.conflictList, member.orderedSupport e.1 = s.relSupportWinner

/-- The invariant of the loop. The queue holds one level of the graph and a part of the next,
and the winners are not longer than its front. -/
structure Iteration (member₀ member : Member) (maxHypoLen : Nat) (strategy : Strategy) (s : Search)
    (q : List (List MyId)) (hs : List (List MyId)) (level : Nat) : Prop where
  chosen : Chosen member₀ member maxHypoLen s hs
  locks : ∀ h ∈ hs, h.length = s.frontSize
  support : ∀ h ∈ hs, member.orderedSupport h = strategy.winnerSupport s
  found : (∀ accept nolock, strategy ≠ .topdown accept nolock) → s.winnerFound = true
  queue : ∀ x ∈ q, Enumerated member₀ maxHypoLen x
  levels : ∃ now later, q = now ++ later ∧ (∀ x ∈ now, x.length = level) ∧ ∀ x ∈ later, x.length = level + 1
  front : s.frontSize ≤ level

theorem Search.frontSize_save {s : Search} (hlist : s.conflictList ≠ []) (sorted ordered : List MyId) :
    (s.save sorted ordered).frontSize = s.frontSize := by
  obtain ⟨e, rest, he⟩ := List.exists_cons_of_ne_nil hlist
  obtain ⟨w, order⟩ := e
  obtain ⟨rest', he'⟩ : ∃ rest', (s.save sorted ordered).conflictList = (w, order) :: rest' := Search.save_front he
  simp only [Search.frontSize, he, he', List.headD_cons]

theorem Strategy.winnerSupport_save (strategy : Strategy) {s : Search} (hlist : s.conflictList ≠ [])
    (sorted ordered : List MyId) : strategy.winnerSupport (s.save sorted ordered) = strategy.winnerSupport s := by
  cases strategy <;> simp only [Strategy.winnerSupport, Search.save_support, Search.frontSize_save hlist]

theorem Chosen.conflictList_ne_nil {member₀ member : Member} {maxHypoLen : Nat} {s : Search} {hs : List (List MyId)}
    (h : Chosen member₀ member maxHypoLen s hs) : s.conflictList ≠ [] := by
  rw [h.lists.entries]
  exact fun he => h.nonempty (List.map_eq_nil_iff.mp he)

section

variable {member₀ member : Member} {maxHypoLen : Nat} {strategy : Strategy} {s : Search} {q hs : List (List MyId)}
  {level : Nat} (hb : Built member₀ member (Enumerated member₀ maxHypoLen)) (ho : member₀.Observed)

include hb ho

theorem Iteration.homogeneous (h : Iteration member₀ member maxHypoLen strategy s q hs level) :
    Homogeneous strategy member s := by
  have hentry : ∀ e ∈ s.conflictList, e.1 ∈ hs ∧ e.2 = member.bestOrder e.1 := by
    intro e he
    rw [h.chosen.lists.entries] at he
    obtain ⟨x, hx, rfl⟩ := List.mem_map.mp he
    exact ⟨hx, rfl⟩
  refine ⟨h.chosen.conflictList_ne_nil, ?_, ?_, ?_, ?_, ?_⟩
  · rw [h.chosen.lists.entries]
    exact h.chosen.lists.nodup.map fun x y he => (Prod.mk.inj he).1
  · intro e he
    obtain ⟨hmem, horder⟩ := hentry e he
    have hen := h.chosen.enumerated _ hmem
    rw [horder]
    exact ⟨hb.bestOrder_perm ho hen, hb.bestOrder_mostFrequent ho hen⟩
  · intro e he
    exact h.locks _ (hentry e he).1
  · intro e he e' he'
    rw [h.support _ (hentry e he).1, h.support _ (hentry e' he').1]
  · intro hrec e he
    rw [h.support _ (hentry e he).1, Strategy.recordsSupport_eq hrec]

/-- The callback of every strategy makes such an update. -/
theorem Iteration.updates {x : List MyId} (h : Iteration member₀ member maxHypoLen strategy s (x :: q) hs level) :
    Updates strategy member s x := by
  cases strategy with
  | sharpen factor =>
    have hreacts : Reacts member s x (member.bestOrder x) _ _
      ((Strategy.sharpen factor).evalCb member s x (member.bestOrder x) (member.orderedSupport x)) := reacts_sharpen factor
    exact hreacts.updates (fun hs => ⟨h.found (by simp), hs⟩) fun _ hr => hr.symm
  | bottomup accept =>
    have hreacts : Reacts member s x (member.bestOrder x) _ _
      ((Strategy.bottomup accept).evalCb member s x (member.bestOrder x) (member.orderedSupport x)) := reacts_bottomup accept
    exact hreacts.updates (fun hs => ⟨h.found (by simp), hs⟩) fun _ hr => hr.symm
  | lockset => exact updates_lockset (h.found (by simp)) (hb.orderedSupport_le_one ho (h.queue x (by simp)))
  | topdown accept nolock => exact updates_topdown accept nolock h.chosen.conflictList_ne_nil h.chosen.front_undecided

/-- An update keeps the winners alike, and they do not get shorter. -/
theorem Iteration.update {x : List MyId} {t : Search}
    (h : Iteration member₀ member maxHypoLen strategy s q hs level) (hx : Enumerated member₀ maxHypoLen x)
    (hlen : x.length = level) (hu : Update strategy member s x t) :
    (∃ hs', Iteration member₀ member maxHypoLen strategy t q hs' level) ∧ s.frontSize ≤ t.frontSize := by
  cases hu with
  | keep => exact ⟨⟨hs, h⟩, Nat.le_refl _⟩
  | nolock =>
    refine ⟨⟨hs, ⟨⟨h.chosen.lists.entries, h.chosen.lists.nodup⟩, h.chosen.nonempty, h.chosen.enumerated, ?_⟩,
      h.locks, ?_, fun _ => rfl, h.queue, h.levels, h.front⟩, Nat.le_refl _⟩
    · intro hf
      cases hf
    · intro e he
      rw [h.support e he]
      cases strategy <;> rfl
  | save found locks support =>
    have hlist := h.chosen.conflictList_ne_nil
    have hfront := Search.frontSize_save hlist x (member.bestOrder x)
    obtain ⟨hs', hl, hmem, -⟩ := h.chosen.lists.save fun e he => hb.bestOrder_inj ho (h.chosen.enumerated e he) hx
    refine ⟨⟨hs', ⟨hl, ?_, fun e he => ?_, fun hf => ?_⟩, fun e he => ?_, fun e he => ?_, fun hno => ?_, h.queue,
      h.levels, ?_⟩, ?_⟩
    · exact List.ne_nil_of_mem ((hmem x).mpr (.inr rfl))
    · rcases (hmem e).mp he with he | rfl
      · exact h.chosen.enumerated e he
      · exact hx
    · rw [Search.save_found, found] at hf
      cases hf
    · rw [hfront]
      rcases (hmem e).mp he with he | rfl
      · exact h.locks e he
      · exact locks.symm
    · rw [strategy.winnerSupport_save hlist]
      rcases (hmem e).mp he with he | rfl
      · exact h.support e he
      · exact support
    · rw [Search.save_found]
      exact found
    · rw [hfront]
      exact h.front
    · rw [hfront]
  | replace r support =>
    have hfront : Search.frontSize { s.replace x (member.bestOrder x) with relSupportWinner := r } = level := by
      rw [← hlen]
      rfl
    refine ⟨⟨[x], ⟨⟨rfl, by simp⟩, by simp, by simpa using hx, fun hf => ?_⟩, ?_, by simpa using support,
      fun _ => rfl, h.queue, h.levels, Nat.le_of_eq hfront⟩, ?_⟩
    · cases hf
    · rw [hfront]
      simpa using hlen
    · rw [hfront]
      exact h.front

/-- One round: the front of the queue is on the level, or opens the next one. -/
theorem Iteration.next {x : List MyId} {t : Search} {p : List (List MyId)}
    (h : Iteration member₀ member maxHypoLen strategy s (x :: q) hs level)
    (hround : strategy.round member s x = .ok (t, p)) :
    (∃ hs' level', Iteration member₀ member maxHypoLen strategy t (q ++ p) hs' level') ∧ s.frontSize ≤ t.frontSize := by
  obtain ⟨t', p', he, hu, hp⟩ := h.updates hb ho
  rw [Strategy.round, he] at hround
  have hpair := Prod.mk.inj (Except.ok.inj hround)
  rw [hpair.1] at hu
  rw [hpair.2] at hp
  have hx := h.queue x (by simp)
  -- The level on which the front of the queue is.
  obtain ⟨now, later, hlen, hle, hq, hnow, hlater⟩ : ∃ now later, level ≤ x.length ∧ s.frontSize ≤ x.length ∧
      q = now ++ later ∧ (∀ y ∈ now, y.length = x.length) ∧ ∀ y ∈ later, y.length = x.length + 1 := by
    obtain ⟨now, later, hq, hnow, hlater⟩ := h.levels
    have hfront := h.front
    cases now with
    | nil =>
      rw [List.nil_append] at hq
      have hxl := hlater x (by simp [← hq])
      refine ⟨q, [], by omega, by omega, by simp, fun y hy => ?_, by simp⟩
      rw [hxl]
      exact hlater y (by simp [← hq, hy])
    | cons y now =>
      obtain ⟨rfl, rfl⟩ := List.cons.inj hq
      have hxl := hnow x (by simp)
      exact ⟨now, later, by omega, by omega, rfl, fun y hy => by rw [hxl, hnow y (by simp [hy])],
        fun y hy => by rw [hxl, hlater y hy]⟩
  have hchild : ∀ y ∈ p, Enumerated member₀ maxHypoLen y ∧ y.length = x.length + 1 := by
    intro y hy
    rcases hp with rfl | rfl
    · obtain ⟨hen, hpar⟩ := (hb.graph x y).mp hy
      exact ⟨hen, hpar.length.symm⟩
    · cases hy
  have hrest : Iteration member₀ member maxHypoLen strategy s (q ++ p) hs x.length := by
    refine ⟨h.chosen, h.locks, h.support, h.found, ?_, ⟨now, later ++ p, by simp [hq], hnow, ?_⟩, hle⟩
    · intro y hy
      rcases List.mem_append.mp hy with hy | hy
      · exact h.queue y (List.mem_cons_of_mem _ hy)
      · exact (hchild y hy).1
    · intro y hy
      rcases List.mem_append.mp hy with hy | hy
      · exact hlater y hy
      · exact (hchild y hy).2
  obtain ⟨⟨hs', h'⟩, hmono⟩ := hrest.update hb ho hx rfl hu
  exact ⟨⟨hs', _, h'⟩, hmono⟩

/-- The loop starts with the root as its only winner. -/
theorem iteration_first (strategy : Strategy) : ∃ level, Iteration member₀ member maxHypoLen strategy
    (strategy.first member).1 (strategy.first member).2 [Member.rootNode] level := by
  have hone := hb.orderedSupport_nil ho
  have hchildren := fun x hx => @Built.children_root _ _ _ hb x hx
  cases strategy with
  | topdown accept nolock =>
    refine ⟨0, chosen_root hb ho false 0, ?_, ?_, ?_, ?_, ⟨[Member.rootNode], [], rfl, ?_, by simp⟩, Nat.le_refl _⟩
    · simp [Strategy.first, evaluateHypothesisInitTopdown, Search.first, Search.frontSize]
    · simpa [Strategy.first, evaluateHypothesisInitTopdown, Search.first, Strategy.winnerSupport, Search.frontSize,
        Member.rootNode] using hone
    · exact fun hno => absurd rfl (hno accept nolock)
    · simpa [Strategy.first, evaluateHypothesisInitTopdown, Member.rootNode] using ho.enumerated_nil
    · simp [Member.rootNode]
  | sharpen | bottomup | lockset =>
    refine ⟨1, chosen_root hb ho true 1, ?_, ?_, fun _ => rfl, fun x hx => (hchildren x hx).1,
      ⟨_, [], (List.append_nil _).symm, fun x hx => (hchildren x hx).2, by simp⟩, Nat.zero_le _⟩
    · simp [Strategy.first, Search.first, Search.frontSize]
    · simpa [Strategy.first, Search.first, Strategy.winnerSupport, Member.rootNode] using hone

/-- The invariant holds at every iteration. -/
theorem Iterates.iteration {strategy : Strategy} (h : Iterates strategy member s q) :
    ∃ hs level, Iteration member₀ member maxHypoLen strategy s q hs level := by
  obtain ⟨level, hstart⟩ := iteration_first hb ho strategy
  refine @Rounds.rule _ _ _ _ (fun s q => ∃ hs level, Iteration member₀ member maxHypoLen strategy s q hs level)
    _ _ _ _ ?_ ⟨_, level, hstart⟩ h
  rintro t x r u p ⟨hs, level, hI⟩ hround
  exact (hI.next hb ho hround).1

/-- From any iteration on the winners do not get shorter. -/
theorem Iterates.frontSize_le {strategy : Strategy} (h : Iterates strategy member s q) {t : Search}
    {r : List (List MyId)} (hlater : Rounds (strategy.round member) s q t r) : s.frontSize ≤ t.frontSize := by
  refine (@Rounds.rule _ _ _ _ (fun t r => (∃ hs level, Iteration member₀ member maxHypoLen strategy t r hs level) ∧
    s.frontSize ≤ t.frontSize) _ _ _ _ ?_ ⟨h.iteration hb ho, Nat.le_refl _⟩ hlater).2
  rintro t x r u p ⟨⟨hs, level, hI⟩, hle⟩ hround
  obtain ⟨hI', hmono⟩ := hI.next hb ho hround
  exact ⟨hI', Nat.le_trans hle hmono⟩

end

/-- At every iteration of the search, whatever the strategy and its parameters, the conflict
list is not empty, its entries are distinct, each gives a hypothesis with its most frequent
lock order, and all have the same number of locks and the same ordered support, the one that
the search has recorded. The front never has fewer locks than before. -/
theorem conflictList_homogeneous (member : Member) (ho : member.Observed) (strategy : Strategy) (maxHypoLen : Nat) :
    ∃ found, Yields (fun n => findHypotheses n member maxHypoLen) found ∧
      (∃ s, Iterates strategy found s [] ∧ Yields (fun n => selectWinner n strategy found) (found.decided s)) ∧
      ∀ s q, Iterates strategy found s q → Homogeneous strategy found s ∧
        ∀ t r, Rounds (strategy.round found) s q t r → s.frontSize ≤ t.frontSize := by
  obtain ⟨-, found, hy, -, -, hb⟩ := findHypotheses_yields ho.fresh maxHypoLen
  refine ⟨found, hy, ?_, fun s q h => ?_⟩
  · obtain ⟨_, _, ⟨n, hn⟩, -⟩ := selectWinner_chosen hb ho strategy
    have hrun := hn n (Nat.le_refl n)
    simp only [selectWinner_eq, FallibleRun.bind_ok] at hrun
    obtain ⟨s, hrun, -⟩ := hrun
    refine ⟨s, rounds_of_run .start hrun, (selectWinner_stable strategy found).yields (n := n) ?_⟩
    rw [selectWinner_eq, FallibleRun.bind_ok]
    exact ⟨s, hrun, rfl⟩
  · obtain ⟨hs, level, hI⟩ := h.iteration hb ho
    exact ⟨hI.homogeneous hb ho, fun t r hlater => h.frontSize_le hb ho hlater⟩

theorem oneLock_homogeneous : ∃ found, Yields (fun n => findHypotheses n oneLock 0) found ∧
    Homogeneous .lockset found Search.first ∧
    ∃ s, Iterates .lockset found s [] ∧ Homogeneous .lockset found s ∧ Search.first.frontSize ≤ s.frontSize := by
  obtain ⟨found, hy, ⟨s, hs, -⟩, hall⟩ := conflictList_homogeneous oneLock oneLock_observed .lockset 0
  obtain ⟨hfirst, hlater⟩ := hall _ _ .start
  exact ⟨found, hy, hfirst, s, hs, (hall s [] hs).1, hlater s [] hs⟩

end LockDoc.Hypothesizer
