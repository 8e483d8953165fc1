import LockDoc.Hypothesizer.TopDown

/-!
# What every selection leaves behind

Whatever the strategy and its parameters, the search keeps a list of hypotheses of the member,
each once and with the order that represents it. Without a winner this is the root alone.
-/
namespace LockDoc.Hypothesizer

open Worklist

/-- The conflict list names enumerated hypotheses, and only the root before a winner is found. -/
structure Chosen (member₀ member : Member) (maxHypoLen : Nat) (s : Search) (hs : List (List MyId)) : Prop where
  lists : Lists member s hs
  nonempty : hs ≠ []
  enumerated : ∀ h ∈ hs, Enumerated member₀ maxHypoLen h
  undecided : s.winnerFound = false → hs = [Member.rootNode]

/-- Before a winner is found the front is the root. -/
theorem Chosen.front_undecided {member₀ member : Member} {maxHypoLen : Nat} {s : Search} {hs : List (List MyId)}
    (h : Chosen member₀ member maxHypoLen s hs) (hf : s.winnerFound = false) : s.frontSize = 0 := by
  simp [Search.frontSize, h.lists.entries, h.undecided hf, Member.rootNode]

/-- What a callback may do with the current winners. -/
inductive Change (s : Search) (sorted ordered : List MyId) : Search → Prop
  | keep : Change s sorted ordered s
  | save : s.winnerFound = true → Change s sorted ordered (s.save sorted ordered)
  | replace (support : ℚ) : Change s sorted ordered { s.replace sorted ordered with relSupportWinner := support }

theorem Change.found {s t : Search} {sorted ordered : List MyId} (h : Change s sorted ordered t)
    (hw : s.winnerFound = true) : t.winnerFound = true := by
  cases h with
  | keep => exact hw
  | save => rw [Search.save_found, hw]
  | replace => rfl

/-- A callback changes the winners in one of these ways and pushes all children or none. -/
def Changes (evalCb : Callback) (member : Member) (s : Search) (sorted ordered : List MyId) (support : ℚ) : Prop :=
  ∃ t, Change s sorted ordered t ∧
    (evalCb member s sorted ordered support = (t, member.graph.children sorted) ∨
      evalCb member s sorted ordered support = (t, []))

/-- What a callback returns for a hypothesis: it is passed over, with its children or without,
becomes one more winner, or the only one with a new `rel_support_winner`. -/
inductive Reacts (member : Member) (s : Search) (sorted ordered : List MyId) (saves : Prop) (replaces : ℚ → Prop) :
    Search × List (List MyId) → Prop
  | pass : Reacts member s sorted ordered saves replaces (s, member.graph.children sorted)
  | drop : Reacts member s sorted ordered saves replaces (s, [])
  | save (h : saves) :
    Reacts member s sorted ordered saves replaces (s.save sorted ordered, member.graph.children sorted)
  | replace (r : ℚ) (h : replaces r) : Reacts member s sorted ordered saves replaces
      ({ s.replace sorted ordered with relSupportWinner := r }, member.graph.children sorted)

section

variable {member : Member} {s : Search} {sorted ordered : List MyId} {support : ℚ}

theorem reacts_sharpen (factor : ℚ) : Reacts member s sorted ordered
    (s.frontSize = sorted.length ∧ support = s.relSupportWinner) (fun r => r = support)
    (evaluateHypothesisSharpen factor member s sorted ordered support) := by
  unfold evaluateHypothesisSharpen
  dsimp only
  split
  · rename_i hsame
    exact .save hsame
  · split
    · exact .replace support rfl
    · exact .drop

theorem reacts_bottomup (accept : ℚ) : Reacts member s sorted ordered
    (s.frontSize = sorted.length ∧ support = s.relSupportWinner) (fun r => r = support)
    (evaluateHypothesisBottomup accept member s sorted ordered support) := by
  unfold evaluateHypothesisBottomup
  split
  · rename_i hsame
    exact .save hsame
  · split
    · exact .replace support rfl
    · exact .drop

theorem reacts_lockset : Reacts member s sorted ordered
    (s.frontSize = sorted.length ∧ ¬support < 1) (fun _ => ¬support < 1)
    (evaluateHypothesisLockset member s sorted ordered support) := by
  unfold evaluateHypothesisLockset
  split
  · exact .drop
  · rename_i hfull
    split
    · rename_i hsame
      exact .save ⟨hsame, hfull⟩
    · split
      · exact .replace s.relSupportWinner hfull
      · exact .drop

theorem reacts_topdown (accept : ℚ) {nolock : ℚ} (hn : ¬nolock ≤ member.nolockFraction) :
    Reacts member s sorted ordered
      (sorted ≠ [] ∧ s.frontSize = sorted.length ∧ support = s.relSupportWinner) (fun r => sorted ≠ [] ∧ r = support)
      (evaluateHypothesisTopdown accept nolock member s sorted ordered support) := by
  rw [topdown_eq hn]
  split
  · exact .pass
  · rename_i hne
    split
    · rename_i hsame
      exact .save ⟨hne, hsame⟩
    · split
      · exact .replace support ⟨hne, rfl⟩
      · exact .drop

variable {saves : Prop} {replaces : ℚ → Prop}

/-- The winners change in one of the three ways when only a found winner is joined by another. -/
theorem Reacts.changes {evalCb : Callback}
    (h : Reacts member s sorted ordered saves replaces (evalCb member s sorted ordered support))
    (hw : saves → s.winnerFound = true) : Changes evalCb member s sorted ordered support := by
  unfold Changes
  generalize evalCb member s sorted ordered support = result at h
  cases h with
  | pass => exact ⟨_, .keep, .inl rfl⟩
  | drop => exact ⟨_, .keep, .inr rfl⟩
  | save hs => exact ⟨_, .save (hw hs), .inl rfl⟩
  | replace r => exact ⟨_, .replace r, .inl rfl⟩

theorem Reacts.pushes {result : Search × List (List MyId)}
    (h : Reacts member s sorted ordered saves replaces result) :
    result.2 = member.graph.children sorted ∨ result.2 = [] := by
  cases h with
  | drop => exact .inr rfl
  | pass | save | replace => exact .inl rfl

/-- While the front is the root until a winner is found, no other hypothesis has its length before. -/
theorem found_of_front (hw : s.winnerFound = false → s.frontSize = 0) (hne : sorted ≠ [])
    (hfront : s.frontSize = sorted.length) : s.winnerFound = true := by
  by_contra hno
  have hzero := hw (Bool.eq_false_of_not_eq_true hno)
  exact hne (List.eq_nil_of_length_eq_zero (hfront.symm.trans hzero))

end

section

variable {member₀ member : Member} {maxHypoLen : Nat} (hb : Built member₀ member (Enumerated member₀ maxHypoLen))
  (ho : member₀.Observed)

include hb ho

/-- Every change keeps the list of winners in order. -/
theorem Chosen.change {s t : Search} {hs : List (List MyId)} {x : List MyId}
    (h : Chosen member₀ member maxHypoLen s hs) (hx : Enumerated member₀ maxHypoLen x)
    (hc : Change s x (member.bestOrder x) t) : ∃ hs', Chosen member₀ member maxHypoLen t hs' := by
  cases hc with
  | keep => exact ⟨hs, h⟩
  | save hw =>
    obtain ⟨hs', hl, hmem, -⟩ := h.lists.save fun e he => hb.bestOrder_inj ho (h.enumerated e he) hx
    refine ⟨hs', hl, ?_, fun e he => ?_, fun hf => ?_⟩
    · exact List.ne_nil_of_mem ((hmem x).mpr (.inr rfl))
    · rcases (hmem e).mp he with he | rfl
      · exact h.enumerated e he
      · exact hx
    · rw [Search.save_found, hw] at hf
      cases hf
  | replace support =>
    refine ⟨[x], ⟨rfl, by simp⟩, by simp, by simpa using hx, fun hf => ?_⟩
    cases hf

theorem chosen_root (found : Bool) (support : ℚ) :
    Chosen member₀ member maxHypoLen ⟨[(Member.rootNode, Member.rootNode)], found, support⟩ [Member.rootNode] := by
  refine ⟨⟨?_, by simp⟩, by simp, by simpa [Member.rootNode] using ho.enumerated_nil, fun _ => rfl⟩
  simp [Member.rootNode, hb.bestOrder_nil ho]

/-- A search whose callback changes the winners in these ways ends with such a list. -/
theorem chosen_search {evalCb : Callback} {P : Search → Prop}
    (hcb : ∀ s x hs, Chosen member₀ member maxHypoLen s hs → P s →
      Changes evalCb member s x (member.bestOrder x) (member.orderedSupport x))
    (hP : ∀ s x t, P s → Change s x (member.bestOrder x) t → P t)
    {L : Nat} {q : List (List MyId)} {s : Search} {hs : List (List MyId)}
    (hq : ∀ x ∈ q, Enumerated member₀ maxHypoLen x ∧ x.length = L)
    (h : Chosen member₀ member maxHypoLen s hs) (hs₀ : P s) :
    ∃ t hs', Yields (fun n => run Stop.outOfFuel (fun s node => .ok (examine member evalCb s node)) n s q) t ∧
      Chosen member₀ member maxHypoLen t hs' := by
  obtain ⟨_, _, t, hy, -, ⟨hs', ht⟩, -⟩ := hb.search_yields
    (I := fun _ _ s => (∃ hs, Chosen member₀ member maxHypoLen s hs) ∧ P s)
    (fun _ _ s x ⟨⟨hs, hc⟩, hPs⟩ _ hx _ => by
      obtain ⟨t, hchange, he⟩ := hcb s x hs hc hPs
      have hI := And.intro (hc.change hb ho hx hchange) (hP s x t hPs hchange)
      exact ⟨t, he.imp (And.intro · hI) (And.intro · hI)⟩)
    hq ⟨⟨hs, h⟩, hs₀⟩
  exact ⟨t, hs', hy, ht⟩

/-- A strategy without an `init_cb`. -/
theorem chosen_plain {evalCb : Callback}
    (hcb : ∀ s x, s.winnerFound = true →
      Changes evalCb member s x (member.bestOrder x) (member.orderedSupport x)) :
    ∃ t hs, Yields (fun n => determineWinningHypothesis n member evalCb none) (member.decided t) ∧
      Chosen member₀ member maxHypoLen t hs := by
  obtain ⟨t, hs, hy, ht⟩ := chosen_search hb ho (P := fun s => s.winnerFound = true)
    (fun s x _ _ hw => hcb s x hw) (fun _ _ _ hw hc => hc.found hw) (fun x hx => hb.children_root hx)
    (chosen_root hb ho true 1) rfl
  exact ⟨t, hs, determine_yields hy, ht⟩

/-- Every strategy comes to an end and leaves such a list, whatever its parameters. -/
theorem selectWinner_chosen (strategy : Strategy) :
    ∃ t hs, Yields (fun n => selectWinner n strategy member) (member.decided t) ∧
      Chosen member₀ member maxHypoLen t hs := by
  cases strategy with
  | sharpen factor => exact chosen_plain hb ho fun _ _ hw => (reacts_sharpen factor).changes fun _ => hw
  | bottomup accept => exact chosen_plain hb ho fun _ _ hw => (reacts_bottomup accept).changes fun _ => hw
  | lockset => exact chosen_plain hb ho fun _ _ hw => reacts_lockset.changes fun _ => hw
  | topdown accept nolock =>
    by_cases hn : nolock ≤ member.nolockFraction
    · exact ⟨_, _, topdown_nolock_yields hn, chosen_root hb ho true 0⟩
    · obtain ⟨t, hs, hy, ht⟩ := chosen_search hb ho (P := fun _ => True) (s := Search.undecided)
        (q := [Member.rootNode]) (L := 0)
        (fun s x hs hc _ => (reacts_topdown accept hn).changes fun hsave =>
          found_of_front hc.front_undecided hsave.1 hsave.2.1)
        (fun _ _ _ _ _ => trivial) (by simpa [Member.rootNode] using ho.enumerated_nil)
        (chosen_root hb ho false 0) trivial
      exact ⟨t, hs, hy.bind (g := fun s _ => .ok (member.decided s)) (.const _), ht⟩

end

/-- The member after the enumeration and a selection. -/
def Selects (strategy : Strategy) (maxHypoLen : Nat) (member winner : Member) : Prop :=
  ∃ found, Yields (fun n => findHypotheses n member maxHypoLen) found ∧
    Yields (fun n => selectWinner n strategy found) winner

/-- What a report relies on. -/
structure Selected (member₀ winner : Member) : Prop where
  rest : winner.datatype = member₀.datatype ∧ winner.name = member₀.name ∧
    winner.accesstype = member₀.accesstype ∧ winner.occurrences = member₀.occurrences
  evaluated : ∃ maxHypoLen, (∀ h, h ∈ winner.hypotheses ↔ Enumerated member₀ maxHypoLen h) ∧
    ∀ h x, winner.hypotheses[h]? = some x → x = evaluation member₀.combinations h
  entries : ∀ e ∈ winner.conflictList, e.1 ∈ winner.hypotheses ∧
    (winner.hypotheses.getD e.1 {}).IsMostFrequent e.2 ∧ winner.bestOrder e.1 = e.2
  nodup : (winner.conflictList.map Prod.snd).Nodup
  front : winner.winnerFound = true → ∃ w rest, winner.conflictList = (w, winner.winningHypothesis) :: rest
  undecided : winner.winnerFound = false → winner.conflictList = [(Member.rootNode, Member.rootNode)]

/-- Every member with accesses can be selected from, and any selection is like this. -/
theorem selects_exists {member : Member} (ho : member.Observed) (strategy : Strategy) (maxHypoLen : Nat) :
    ∃ winner, Selects strategy maxHypoLen member winner ∧ Selected member winner := by
  obtain ⟨-, found, hy, -, -, hb⟩ := findHypotheses_yields ho.fresh maxHypoLen
  obtain ⟨t, hs, hsel, hc⟩ := selectWinner_chosen hb ho strategy
  refine ⟨found.decided t, ⟨found, hy, hsel⟩, ?_⟩
  have hentries := hc.lists.entries
  refine ⟨by rw [hb.rest]; exact ⟨rfl, rfl, rfl, rfl⟩, ⟨maxHypoLen, hb.keys, hb.values⟩, ?_, ?_, ?_, ?_⟩
  · intro e he
    simp only [Member.decided, hentries] at he
    obtain ⟨h, hh, rfl⟩ := List.mem_map.mp he
    exact ⟨(hb.keys h).mpr (hc.enumerated h hh), hb.bestOrder_mostFrequent ho (hc.enumerated h hh), rfl⟩
  · simp only [Member.decided, hentries, List.map_map]
    exact hc.lists.nodup.map_on fun x hx y hy he => hb.bestOrder_inj ho (hc.enumerated x hx) (hc.enumerated y hy) he
  · intro hf
    have hf : t.winnerFound = true := hf
    obtain ⟨h, rest, rfl⟩ := List.exists_cons_of_ne_nil hc.nonempty
    simp [Member.decided, hentries, hf]
  · intro hf
    simp [Member.decided, hentries, hc.undecided hf, Member.rootNode, hb.bestOrder_nil ho]

theorem Selects.selected {member winner : Member} {strategy : Strategy} {maxHypoLen : Nat} (ho : member.Observed)
    (h : Selects strategy maxHypoLen member winner) : Selected member winner := by
  obtain ⟨found, hf, hw⟩ := h
  obtain ⟨winner', ⟨found', hf', hw'⟩, hsel⟩ := selects_exists ho strategy maxHypoLen
  obtain rfl := hf.unique hf'
  obtain rfl := hw.unique hw'
  exact hsel

end LockDoc.Hypothesizer
