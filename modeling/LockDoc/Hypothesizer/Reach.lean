import LockDoc.Hypothesizer.Homogeneous

/-!
# The graph seen from its root

Every edge adds one lock to an enumerated hypothesis, and following the edges that add the
last lock leads from the root to every hypothesis. Since an edge always adds a lock, a loop
that pushes the children of what it looks at, or nothing, ends, although it may look at the
same hypothesis many times.
-/
namespace LockDoc.Hypothesizer

open Worklist

/-- An edge of the graph. -/
def Member.Edge (member : Member) (p h : List MyId) : Prop := h ∈ member.graph.children p

/-- Every edge adds one lock to an enumerated hypothesis. -/
def Member.EdgesAdd (member : Member) : Prop :=
  ∀ p h, member.Edge p h → p ∈ member.hypotheses ∧ h ∈ member.hypotheses ∧ ∃ lock, lock ∉ p ∧ h.Perm (lock :: p)

/-- Every enumerated hypothesis can be reached from the root. -/
def Member.RootReaches (member : Member) : Prop :=
  ∀ h ∈ member.hypotheses, Relation.ReflTransGen member.Edge Member.rootNode h

/-- The parents of a hypothesis lack one lock. -/
theorem IsParent.adds {p h : List MyId} (hp : IsParent p h) (hnd : h.Nodup) : ∃ lock, lock ∉ p ∧ h.Perm (lock :: p) := by
  obtain ⟨hne, rfl | rfl⟩ := hp
  · have hperm : h.Perm (h.getLast hne :: h.dropLast) := by
      nth_rewrite 1 [← List.dropLast_append_getLast hne]
      exact List.perm_append_comm
    exact ⟨_, (List.nodup_cons.mp (hperm.nodup_iff.mp hnd)).1, hperm⟩
  · obtain ⟨lock, rest, rfl⟩ := List.exists_cons_of_ne_nil hne
    exact ⟨lock, (List.nodup_cons.mp hnd).1, .refl _⟩

/-- The parts of a call have been called. -/
theorem PartsFirst.mem {cs : List (List MyId)} (hparts : PartsFirst cs) {h k : List MyId} (hh : h ∈ cs)
    (hk : k <:+: h) (hlt : k.length < h.length) : k ∈ cs := by
  obtain ⟨done, rest, hcs⟩ := List.append_of_mem hh
  have hdone := hparts done h rest hcs k hk hlt
  rw [hcs]
  exact List.mem_append_left _ hdone

section

variable {member₀ member : Member} {cs : List (List MyId)}
  (hb : Built member₀ member (fun k => k ∈ cs)) (hparts : PartsFirst cs)

include hb hparts

theorem Built.edgesAdd (hnd : ∀ h ∈ cs, h.Nodup) : member.EdgesAdd := by
  intro p h hedge
  obtain ⟨hh, hp⟩ := (hb.graph p h).mp hedge
  have hin := (isParent_iff.mp hp).1
  have hlen := hp.length
  refine ⟨(hb.keys p).mpr (hparts.mem hh hin (by omega)), (hb.keys h).mpr hh, hp.adds (hnd h hh)⟩

/-- A hypothesis is reached over itself without its last lock. -/
theorem Built.rootReaches : member.RootReaches := by
  intro h hh
  induction hn : h.length generalizing h with
  | zero =>
    rw [List.length_eq_zero_iff.mp hn]
    exact .refl
  | succ n ih =>
    have hne : h ≠ [] := by
      rintro rfl
      cases hn
    have hcall := (hb.keys h).mp hh
    have hlen : h.dropLast.length = n := by
      rw [List.length_dropLast]
      omega
    have hdrop : h.dropLast ∈ cs := hparts.mem hcall h.dropLast_prefix.isInfix (by omega)
    have hpath := ih h.dropLast ((hb.keys _).mpr hdrop) hlen
    exact hpath.tail ((hb.graph _ _).mpr ⟨hcall, hne, .inl rfl⟩)

end

/-- The member after the depths below `depths`. -/
def AfterDepths (member : Member) (depths : Nat) (found : Member) : Prop :=
  Yields (fun n => (List.range depths).foldlM (findAtDepth n) member) found

/-- The member after the first calls of `evaluate_hypothesis`, whichever these are. -/
def AfterCalls (member : Member) (calls : List (List MyId)) (found : Member) : Prop :=
  Yields (fun n => calls.foldlM (evaluateHypothesis n) member) found

/-- The depths are sequences of calls. -/
theorem afterDepths_exists {member : Member} (hf : member.Fresh) (depths : Nat) :
    ∃ found, AfterDepths member depths found ∧ AfterCalls member (callsBelow member.combinations depths) found ∧
      Built member found (fun k => k ∈ callsBelow member.combinations depths) := by
  induction depths with
  | zero => exact ⟨member, .const member, .const member, hf.built.congr (by simp [callsBelow])⟩
  | succ depths ih =>
    obtain ⟨found, hd, hc, hb⟩ := ih
    obtain ⟨next, hy, hc', hb', -⟩ := depth_yields hc hb
    refine ⟨next, ?_, hc', hb'⟩
    exact (hd.bind (g := fun m n => findAtDepth n m depths) hy).congr fun n => by
      rw [List.range_succ, List.foldlM_append]
      simp only [List.foldlM_cons, List.foldlM_nil, bind_pure]

theorem PartsFirst.of_append {cs pre post : List (List MyId)} (h : PartsFirst cs) (hcs : cs = pre ++ post) :
    PartsFirst pre := by
  rw [hcs] at h
  exact h.left

theorem callsBelow_nodup {cs : List LockCombination} {depths : Nat} {h : List MyId} (hh : h ∈ callsBelow cs depths) :
    h.Nodup := (mem_callsBelow.mp hh).1.1.imp Nat.ne_of_lt

/-- `find_hypotheses` ends without an assertion. After every call of `evaluate_hypothesis` the
edges go from enumerated hypotheses to enumerated ones with one more lock, and after every depth
all hypotheses enumerated so far can be reached from the root. -/
theorem graph_insertion_safe (member : Member) (hf : member.Fresh) (maxHypoLen : Nat) :
    ∃ depths found, Yields (fun n => findHypotheses n member maxHypoLen) found ∧
      AfterDepths member depths found ∧ AfterCalls member (callsBelow member.combinations depths) found ∧
      (∀ pre post, callsBelow member.combinations depths = pre ++ post →
        ∃ m, AfterCalls member pre m ∧ m.EdgesAdd) ∧
      ∀ d ≤ depths, ∃ m, AfterDepths member d m ∧ m.EdgesAdd ∧ m.RootReaches ∧
        ∀ h, h ∈ m.hypotheses ↔ InFamily member.combinations h ∧ h.length < d := by
  obtain ⟨depths, found, hy, hcalls, -, -⟩ := findHypotheses_yields hf maxHypoLen
  obtain ⟨found', hd, hc, -⟩ := afterDepths_exists hf depths
  obtain rfl := hc.unique hcalls
  refine ⟨depths, found', hy, hd, hc, fun pre post hpre => ?_, fun d _ => ?_⟩
  · have hparts := (partsFirst_callsBelow member.combinations depths).of_append hpre
    obtain ⟨m, hm, hb⟩ := fold_yields hf hparts
    refine ⟨m, hm, hb.edgesAdd hparts fun h hh => ?_⟩
    exact callsBelow_nodup (by rw [hpre]; exact List.mem_append_left _ hh)
  · have hparts := partsFirst_callsBelow member.combinations d
    obtain ⟨m, hm, -, hb⟩ := afterDepths_exists hf d
    refine ⟨m, hm, hb.edgesAdd hparts fun h hh => callsBelow_nodup hh, hb.rootReaches hparts, fun h => ?_⟩
    rw [hb.keys h, mem_callsBelow]

theorem threeLocks_safe : ∃ depths found, Yields (fun n => findHypotheses n threeLocks 0) found ∧
    AfterDepths threeLocks depths found ∧ found.EdgesAdd ∧ found.RootReaches := by
  obtain ⟨depths, found, hy, hd, -, -, hall⟩ := graph_insertion_safe threeLocks ⟨rfl, rfl⟩ 0
  obtain ⟨m, hm, hedges, hreach, -⟩ := hall depths (Nat.le_refl depths)
  obtain rfl := hd.unique hm
  exact ⟨depths, found, hy, hd, hedges, hreach⟩

/-- A callback that pushes the children of the hypothesis it looks at, or nothing. -/
def PushesChildren (evalCb : Callback) (member : Member) : Prop :=
  ∀ s sorted ordered support, (evalCb member s sorted ordered support).2 = member.graph.children sorted ∨
    (evalCb member s sorted ordered support).2 = []

/-- All four callbacks are of this kind, whatever their parameters. -/
theorem Strategy.pushesChildren (strategy : Strategy) (member : Member) : PushesChildren strategy.evalCb member := by
  intro s sorted ordered support
  cases strategy with
  | sharpen factor => exact (reacts_sharpen factor).pushes
  | bottomup accept => exact (reacts_bottomup accept).pushes
  | lockset => exact reacts_lockset.pushes
  | topdown accept nolock =>
    by_cases hn : nolock ≤ member.nolockFraction
    · right
      simp only [Strategy.evalCb, evaluateHypothesisTopdown, not_not.mpr hn, if_false]
    · exact (reacts_topdown accept hn).pushes

section

variable {member₀ member : Member} {maxHypoLen : Nat}
  (hb : Built member₀ member (Enumerated member₀ maxHypoLen))

include hb

/-- The loop ends from any nodes of one length. The length of a hypothesis is its rank: what a
round pushes is one lock longer, and no hypothesis is longer than all locks together. -/
theorem Built.worklist_ends {evalCb : Callback} (hcb : PushesChildren evalCb member) {L : Nat}
    {q : List (List MyId)} (hq : ∀ x ∈ q, (x = Member.rootNode ∨ Enumerated member₀ maxHypoLen x) ∧ x.length = L)
    (s : Search) :
    ∃ t, Yields (fun n => run Stop.outOfFuel (fun s node => .ok (examine member evalCb s node)) n s q) t := by
  obtain ⟨_, _, t, hlev, -⟩ := @search_rule _ _ Stop (fun s node => .ok (examine member evalCb s node))
    member.graph.children List.length (fun x => x = Member.rootNode ∨ Enumerated member₀ maxHypoLen x)
    (member₀.combinations.map (fun lc => lc.locksHeld.length)).sum
    (fun x _ y hy => ⟨.inr ((hb.graph x y).mp hy).1, ((hb.graph x y).mp hy).2.length.symm⟩)
    (by
      rintro x (rfl | hx)
      · exact Nat.zero_le _
      · exact hx.1.length_le)
    (fun _ _ _ => True)
    (by
      intro seen expanded s x _ _ _ _
      refine ⟨(examine member evalCb s x).1, ?_⟩
      rcases hcb s x (member.bestOrder x) (member.orderedSupport x) with hp | hp
      · left
        rw [examine_eq, ← hp]
        exact ⟨rfl, trivial⟩
      · right
        rw [examine_eq, ← hp]
        exact ⟨rfl, trivial⟩)
    L q s hq trivial
  exact ⟨t, hlev.yields .outOfFuel⟩

end

/-- The selection ends for every member that `find_hypotheses` leaves, also for one without
accesses, with every strategy and all parameters. The loop ends from the children of the root,
and from the root, with any callback that pushes the children of a hypothesis or nothing,
however it compares supports. -/
theorem selection_terminates (member : Member) (hf : member.Fresh) (maxHypoLen : Nat) :
    ∃ found, Yields (fun n => findHypotheses n member maxHypoLen) found ∧
      (∀ strategy, ∃ winner, Yields (fun n => selectWinner n strategy found) winner) ∧
      ∀ evalCb, PushesChildren evalCb found →
        ∀ s q, q = found.graph.children Member.rootNode ∨ q = [Member.rootNode] →
          ∃ t, Yields (fun n => run Stop.outOfFuel (fun s node => .ok (examine found evalCb s node)) n s q) t := by
  obtain ⟨-, found, hy, -, -, hb⟩ := findHypotheses_yields hf maxHypoLen
  have hloop : ∀ evalCb, PushesChildren evalCb found →
      ∀ s q, q = found.graph.children Member.rootNode ∨ q = [Member.rootNode] →
        ∃ t, Yields (fun n => run Stop.outOfFuel (fun s node => .ok (examine found evalCb s node)) n s q) t := by
    rintro evalCb hcb s q (rfl | rfl)
    · exact hb.worklist_ends hcb (fun x hx => ⟨.inr (hb.children_root hx).1, (hb.children_root hx).2⟩) s
    · exact hb.worklist_ends hcb (fun x hx => by
        rw [List.mem_singleton.mp hx]
        exact ⟨.inl rfl, rfl⟩) s
  refine ⟨found, hy, fun strategy => ?_, hloop⟩
  have hq : (strategy.first found).2 = found.graph.children Member.rootNode ∨
      (strategy.first found).2 = [Member.rootNode] := by
    cases strategy with
    | topdown accept nolock => exact .inr rfl
    | sharpen | bottomup | lockset => exact .inl rfl
  obtain ⟨t, ht⟩ := hloop strategy.evalCb (strategy.pushesChildren found) (strategy.first found).1 _ hq
  refine ⟨found.decided t, ?_⟩
  exact (ht.bind (g := fun s _ => .ok (found.decided s)) (.const _)).congr fun n => selectWinner_eq n strategy found

theorem threeLocks_terminates : threeLocks.occurrences = 0 ∧
    ∃ found, Yields (fun n => findHypotheses n threeLocks 0) found ∧
      ∀ strategy, ∃ winner, Yields (fun n => selectWinner n strategy found) winner := by
  obtain ⟨found, hy, hsel, -⟩ := selection_terminates threeLocks ⟨rfl, rfl⟩ 0
  exact ⟨rfl, found, hy, hsel⟩

end LockDoc.Hypothesizer
