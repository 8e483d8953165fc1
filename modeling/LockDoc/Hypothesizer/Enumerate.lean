import LockDoc.Lib.Run
import LockDoc.Hypothesizer.Family

/-!
# Enumeration

`find_hypotheses` evaluates exactly the subsets of the combinations up to the length
limit, each of them once, and enters each into the graph below its two parents. Its loop
over the depth ends because the subsets are closed under taking parts: the first depth
that adds nothing lies above all of them.
-/
namespace LockDoc.Hypothesizer

open FallibleRun (bind_ok)
open Worklist

/-- A member whose hypotheses have not been looked for yet. -/
structure Member.Fresh {κ : Type} (member : Member κ) : Prop where
  hypotheses : member.hypotheses = ∅
  graph : member.graph = ∅

/-- The member after the hypotheses with the property `H` have been evaluated. -/
structure Built (member₀ member : Member) (H : List MyId → Prop) : Prop where
  rest : member = { member₀ with hypotheses := member.hypotheses, graph := member.graph }
  keys : ∀ h, h ∈ member.hypotheses ↔ H h
  values : ∀ h x, member.hypotheses[h]? = some x → x = evaluation member₀.combinations h
  graph : IsGraphOf member.graph H

theorem Member.Fresh.built {member : Member} (h : member.Fresh) : Built member member (fun _ => False) where
  rest := rfl
  keys k := by simp [h.hypotheses]
  values k x hx := by simp [h.hypotheses] at hx
  graph := by
    rw [h.graph]
    exact isGraphOf_empty _ (by simp)

theorem Built.combinations {member₀ member : Member} {H : List MyId → Prop} (h : Built member₀ member H) :
    member.combinations = member₀.combinations := by rw [h.rest]

theorem Built.congr {member₀ member : Member} {H H' : List MyId → Prop} (h : Built member₀ member H)
    (hH : ∀ k, H k ↔ H' k) : Built member₀ member H' where
  rest := h.rest
  keys k := (h.keys k).trans (hH k)
  values := h.values
  graph p k := by rw [h.graph p k, hH k]

/-- The value of an enumerated hypothesis. -/
theorem Built.value {member₀ member : Member} {H : List MyId → Prop} (h : Built member₀ member H) {k : List MyId}
    (hk : H k) : member.hypotheses[k]? = some (evaluation member₀.combinations k) := by
  have hm := (h.keys k).mpr hk
  obtain ⟨x, hx⟩ := Option.isSome_iff_exists.mp (Std.ExtTreeMap.mem_iff_isSome_getElem?.mp hm)
  rw [hx, h.values k x hx]

theorem evaluateHypothesis_of_mem {fuel : Nat} {member : Member} {h : List MyId} (hin : h ∈ member.hypotheses) :
    evaluateHypothesis fuel member h = .ok member := by
  rw [evaluateHypothesis, if_pos (Std.ExtTreeMap.contains_iff_mem.mpr hin)]

theorem evaluateHypothesis_of_not_mem {fuel : Nat} {member : Member} {h : List MyId} (hin : h ∉ member.hypotheses) :
    evaluateHypothesis fuel member h = addHypothesisToGraph fuel
      { member with hypotheses := member.hypotheses.insert h (evaluation member.combinations h) } h := by
  rw [evaluateHypothesis, if_neg (fun hc => hin (Std.ExtTreeMap.contains_iff_mem.mp hc))]

/-- One call, when all shorter parts of the hypothesis are there. -/
theorem evaluate_yields {member₀ member : Member} {H : List MyId → Prop} (hb : Built member₀ member H)
    {h : List MyId} (hparts : ∀ k, k <:+: h → k.length < h.length → H k) :
    ∃ member', Yields (fun n => evaluateHypothesis n member h) member' ∧
      Built member₀ member' (fun k => H k ∨ k = h) ∧
      member'.hypotheses.size = member.hypotheses.size + if h ∈ member.hypotheses then 0 else 1 := by
  by_cases hin : h ∈ member.hypotheses
  · refine ⟨member, ⟨0, fun n _ => evaluateHypothesis_of_mem hin⟩, hb.congr fun k => ?_, by simp [hin]⟩
    constructor
    · exact .inl
    · rintro (hk | rfl)
      · exact hk
      · exact (hb.keys k).mp hin
  · -- The graph afterwards, also for the empty hypothesis, which is entered nowhere.
    obtain ⟨graph', hy, hg⟩ : ∃ graph', Yields (fun n => addHypothesisToGraph n
        { member with hypotheses := member.hypotheses.insert h (evaluation member.combinations h) } h)
        { member with
          hypotheses := member.hypotheses.insert h (evaluation member.combinations h)
          graph := graph' } ∧ IsGraphOf graph' (fun k => H k ∨ k = h) := by
      by_cases hne : h = []
      · refine ⟨member.graph, ⟨0, fun n _ => by simp [addHypothesisToGraph, hne]⟩, ?_⟩
        intro p k
        rw [hb.graph p k]
        constructor
        · exact fun hk => ⟨.inl hk.1, hk.2⟩
        · rintro ⟨hk | rfl, hp⟩
          · exact ⟨hk, hp⟩
          · exact absurd hne hp.1
      · obtain ⟨graph', hy, hg⟩ := insert_yields hb.graph hne fun k hk _ hlt => hparts k hk hlt
        refine ⟨graph', ?_, hg⟩
        have hlen : h.length ≠ 0 := fun he => hne (List.length_eq_zero_iff.mp he)
        exact (hy.bind (.const _)).congr fun n => by rw [addHypothesisToGraph, if_neg hlen]
    refine ⟨_, hy.congr fun n => evaluateHypothesis_of_not_mem hin, ⟨?_, ?_, ?_, hg⟩, ?_⟩
    · rw [hb.rest]
    · intro k
      rw [Std.ExtTreeMap.mem_insert, Std.LawfulEqOrd.compare_eq_iff_eq, hb.keys k, or_comm, eq_comm]
    · intro k x hx
      rw [Std.ExtTreeMap.getElem?_insert] at hx
      split at hx
      · rename_i he
        cases hx
        rw [← Std.LawfulEqOrd.compare_eq_iff_eq.mp he, hb.combinations]
      · exact hb.values k x hx
    · simp [Std.ExtTreeMap.size_insert, hin]

/-- Every call comes after its shorter parts. -/
def PartsFirst (cs : List (List MyId)) : Prop :=
  ∀ done x rest, cs = done ++ x :: rest → ∀ k, k <:+: x → k.length < x.length → k ∈ done

theorem PartsFirst.left {cs ds : List (List MyId)} (h : PartsFirst (cs ++ ds)) : PartsFirst cs := by
  intro done x rest he
  exact h done x (rest ++ ds) (by simp [he])

/-- A sequence of calls, when parts come first. -/
theorem fold_yields {member₀ : Member} (hf : member₀.Fresh) {cs : List (List MyId)} (hcs : PartsFirst cs) :
    ∃ member, Yields (fun n => cs.foldlM (evaluateHypothesis n) member₀) member ∧
      Built member₀ member (fun k => k ∈ cs) := by
  refine Yields.foldlM (I := fun done m => Built member₀ m (fun k => k ∈ done)) ?_ (hf.built.congr (by simp))
  intro done x rest m he hb
  obtain ⟨m', hy, hb', -⟩ := evaluate_yields hb (hcs done x rest he)
  exact ⟨m', hy, hb'.congr (by simp)⟩

/-- More calls of the same kind on top of others. -/
theorem fold_more {member₀ member : Member} {cs ds : List (List MyId)} (hb : Built member₀ member (fun k => k ∈ cs))
    (hds : ∀ x ∈ ds, ∀ k, k <:+: x → k.length < x.length → k ∈ cs) :
    ∃ member', Yields (fun n => ds.foldlM (evaluateHypothesis n) member) member' ∧
      Built member₀ member' (fun k => k ∈ cs ++ ds) ∧
      (member.hypotheses.size = member'.hypotheses.size → ∀ x ∈ ds, x ∈ cs) := by
  obtain ⟨m, hy, hm, -, hsize⟩ := @Yields.foldlM _ _ _ evaluateHypothesis
    (fun done m => Built member₀ m (fun k => k ∈ cs ++ done) ∧ member.hypotheses.size ≤ m.hypotheses.size ∧
      (member.hypotheses.size = m.hypotheses.size → ∀ x ∈ done, x ∈ cs)) ds member
    (by
      rintro done x rest m he ⟨hm, hle, hsame⟩
      obtain ⟨m', hy, hb', hs⟩ := evaluate_yields hm fun k hk hlt =>
        List.mem_append_left _ (hds x (by simp [he]) k hk hlt)
      refine ⟨m', hy, hb'.congr (by simp [or_assoc]), by omega, ?_⟩
      intro heq y hy
      split at hs
      · rename_i hin
        have hsub := hsame (by omega)
        rcases List.mem_append.mp hy with hy | hy
        · exact hsub y hy
        · rw [List.mem_singleton.mp hy]
          rcases List.mem_append.mp ((hm.keys x).mp hin) with hx | hx
          · exact hx
          · exact hsub x hx
      · omega)
    ⟨hb.congr (by simp), Nat.le_refl _, by simp⟩
  exact ⟨m, hy, hm, hsize⟩

theorem partsFirst_callsBelow (cs : List LockCombination) (bound : Nat) : PartsFirst (callsBelow cs bound) := by
  induction bound with
  | zero =>
    intro done x rest he
    simp [callsBelow] at he
  | succ bound ih =>
    intro done x rest he k hk hlt
    rw [callsBelow_succ] at he
    rcases List.append_eq_append_iff.mp he with ⟨a, hd, ha⟩ | ⟨a, hb, ha⟩
    · -- The call is of the last depth, its parts are of the depths before.
      have hx : x ∈ callsAt cs bound := by rw [ha]; simp
      obtain ⟨hfam, hlen⟩ := mem_callsAt.mp hx
      rw [hd]
      exact List.mem_append_left _ (mem_callsBelow.mpr ⟨hfam.sublist hk.sublist, by omega⟩)
    · cases a with
      | nil =>
        simp only [List.append_nil] at hb
        have hx : x ∈ callsAt cs bound := by
          rw [List.nil_append] at ha
          rw [← ha]
          simp
        obtain ⟨hfam, hlen⟩ := mem_callsAt.mp hx
        rw [← hb]
        exact mem_callsBelow.mpr ⟨hfam.sublist hk.sublist, by omega⟩
      | cons y a =>
        obtain ⟨rfl, -⟩ := List.cons.inj ha
        exact ih done x a hb k hk hlt

/-- The subsets up to the length limit. -/
def Enumerated (member : Member) (maxHypoLen : Nat) (s : List MyId) : Prop :=
  InFamily member.combinations s ∧ (0 < maxHypoLen → s.length ≤ maxHypoLen)

/-- One depth. It adds something if it has any call at all. -/
theorem depth_yields {member₀ member : Member} {depth : Nat}
    (hy : Yields (fun n => (callsBelow member₀.combinations depth).foldlM (evaluateHypothesis n) member₀) member)
    (hb : Built member₀ member (fun k => k ∈ callsBelow member₀.combinations depth)) :
    ∃ found, Yields (fun n => findAtDepth n member depth) found ∧
      Yields (fun n => (callsBelow member₀.combinations (depth + 1)).foldlM (evaluateHypothesis n) member₀) found ∧
      Built member₀ found (fun k => k ∈ callsBelow member₀.combinations (depth + 1)) ∧
      (member.hypotheses.size = found.hypotheses.size → callsAt member₀.combinations depth = []) := by
  have hparts : ∀ x ∈ callsAt member₀.combinations depth, ∀ k, k <:+: x → k.length < x.length →
      k ∈ callsBelow member₀.combinations depth := by
    intro x hx k hk hlt
    obtain ⟨hfam, hlen⟩ := mem_callsAt.mp hx
    exact mem_callsBelow.mpr ⟨hfam.sublist hk.sublist, by omega⟩
  obtain ⟨found, hyd, hbd, hsize⟩ := fold_more hb hparts
  refine ⟨found, hyd.congr fun n => by rw [findAtDepth_eq, hb.combinations], ?_, ?_, ?_⟩
  · exact (hy.bind (g := fun m n => (callsAt member₀.combinations depth).foldlM (evaluateHypothesis n) m) hyd).congr
      fun n => by rw [callsBelow_succ, List.foldlM_append]
  · exact hbd.congr (by simp [callsBelow_succ])
  · intro hs
    rw [List.eq_nil_iff_forall_not_mem]
    intro x hx
    have hlt := (mem_callsBelow.mp (hsize hs x hx)).2
    have hlen := (mem_callsAt.mp hx).2
    omega

/-- Where the depth loop stops, everything has been enumerated. -/
theorem enumerated_of_stop {member₀ : Member} {maxHypoLen depth : Nat}
    (hle : 0 < maxHypoLen → depth ≤ maxHypoLen)
    (h : callsAt member₀.combinations depth = [] ∨ (0 < maxHypoLen ∧ maxHypoLen ≤ depth)) (s : List MyId) :
    s ∈ callsBelow member₀.combinations (depth + 1) ↔ Enumerated member₀ maxHypoLen s := by
  rw [mem_callsBelow, Enumerated, and_congr_right_iff]
  intro hfam
  constructor
  · intro hlen hpos
    have := hle hpos
    omega
  · intro hlen
    rcases h with h | ⟨hpos, hd⟩
    · -- A longer subset would have a part of this depth.
      by_contra hlong
      have hpart : s.take depth ∈ callsAt member₀.combinations depth :=
        mem_callsAt.mpr ⟨hfam.sublist (List.take_sublist depth s), by rw [List.length_take]; omega⟩
      simp [h] at hpart
    · have := hlen hpos
      omega

/-- The depth loop, from a depth below which everything has been evaluated. -/
theorem findFrom_yields {member₀ : Member} (maxHypoLen : Nat) {D : Nat}
    (hD : ∀ s, InFamily member₀.combinations s → s.length ≤ D) (m : Nat) : ∀ depth member,
    D + 1 - depth ≤ m → (0 < maxHypoLen → depth ≤ maxHypoLen) →
    Yields (fun n => (callsBelow member₀.combinations depth).foldlM (evaluateHypothesis n) member₀) member →
    Built member₀ member (fun k => k ∈ callsBelow member₀.combinations depth) →
    ∃ d member', Yields (fun n => (callsBelow member₀.combinations d).foldlM (evaluateHypothesis n) member₀) member' ∧
      Built member₀ member' (fun k => k ∈ callsBelow member₀.combinations d) ∧
      (∀ s, s ∈ callsBelow member₀.combinations d ↔ Enumerated member₀ maxHypoLen s) ∧
      ∃ n₀, ∀ n, n₀ ≤ n → ∀ rounds, m < rounds → findFrom n maxHypoLen rounds depth member = .ok member' := by
  induction m with
  | zero =>
    intro depth member hm hle hy hb
    obtain ⟨found, ⟨n₀, hn⟩, hy', hb', -⟩ := depth_yields hy hb
    have hnone : callsAt member₀.combinations depth = [] := by
      rw [List.eq_nil_iff_forall_not_mem]
      intro x hx
      obtain ⟨hfam, hlen⟩ := mem_callsAt.mp hx
      have := hD x hfam
      omega
    refine ⟨depth + 1, found, hy', hb', enumerated_of_stop hle (.inl hnone), n₀, fun n hn₀ rounds hr => ?_⟩
    have hsame : found = member := by
      have := hn n hn₀
      simp only [findAtDepth_eq, hb.combinations, hnone, List.foldlM_nil] at this
      exact (Except.ok.inj this).symm
    obtain ⟨r, rfl⟩ : ∃ r, rounds = r + 1 := ⟨rounds - 1, by omega⟩
    have hfd : findAtDepth n member depth = .ok found := hn n hn₀
    rw [findFrom, hfd]
    simp [bind, Except.bind, hsame]
  | succ m ih =>
    intro depth member hm hle hy hb
    obtain ⟨found, ⟨n₀, hn⟩, hy', hb', hsize⟩ := depth_yields hy hb
    by_cases hstop : member.hypotheses.size = found.hypotheses.size ∨ (0 < maxHypoLen ∧ maxHypoLen ≤ depth)
    · refine ⟨depth + 1, found, hy', hb', enumerated_of_stop hle (hstop.imp_left hsize), n₀, fun n hn₀ rounds hr => ?_⟩
      obtain ⟨r, rfl⟩ : ∃ r, rounds = r + 1 := ⟨rounds - 1, by omega⟩
      have hfd : findAtDepth n member depth = .ok found := hn n hn₀
      rw [findFrom, hfd]
      simp only [bind, Except.bind, hstop, if_true]
    · obtain ⟨d, member', hyd, hbd, henum, n₁, hn₁⟩ := ih (depth + 1) found (by omega) (by omega) hy' hb'
      refine ⟨d, member', hyd, hbd, henum, max n₀ n₁, fun n hle' rounds hr => ?_⟩
      obtain ⟨r, rfl⟩ : ∃ r, rounds = r + 1 := ⟨rounds - 1, by omega⟩
      have hfd : findAtDepth n member depth = .ok found := hn n (Nat.le_trans (Nat.le_max_left _ _) hle')
      rw [findFrom, hfd]
      simp only [bind, Except.bind, hstop, if_false]
      exact hn₁ n (Nat.le_trans (Nat.le_max_right _ _) hle') r (by omega)

/-- What `find_hypotheses` leaves behind: a run is the calls up to some depth. -/
theorem findHypotheses_yields {member₀ : Member} (hf : member₀.Fresh) (maxHypoLen : Nat) :
    ∃ d member, Yields (fun n => findHypotheses n member₀ maxHypoLen) member ∧
      Yields (fun n => (callsBelow member₀.combinations d).foldlM (evaluateHypothesis n) member₀) member ∧
      (∀ s, s ∈ callsBelow member₀.combinations d ↔ Enumerated member₀ maxHypoLen s) ∧
      Built member₀ member (Enumerated member₀ maxHypoLen) := by
  have hnil : callsBelow member₀.combinations 0 = [] := rfl
  have hD : ∀ s, InFamily member₀.combinations s →
      s.length ≤ (member₀.combinations.map (fun lc => lc.locksHeld.length)).sum := fun s hs => hs.length_le
  generalize (member₀.combinations.map (fun lc => lc.locksHeld.length)).sum = D at hD
  obtain ⟨d, member, hy, hb, henum, n₀, hn⟩ := findFrom_yields maxHypoLen hD (D + 1) 0 member₀ (Nat.le_refl _)
    (fun _ => Nat.zero_le _) (by rw [hnil]; exact .const member₀) (hf.built.congr (by simp [hnil]))
  refine ⟨d, member, ⟨max n₀ (D + 2), fun n hle => ?_⟩, hy, henum, hb.congr henum⟩
  exact hn n (by omega) n (by omega)

theorem evaluateHypothesis_stable (member : Member) (h : List MyId) : Stable (fun n => evaluateHypothesis n member h) := by
  unfold evaluateHypothesis addHypothesisToGraph
  split
  · exact .const _
  · split
    · exact .const _
    · exact (run_stable _ _ _ _).bind fun _ => .const _

theorem findAtDepth_stable (member : Member) (depth : Nat) : Stable (fun n => findAtDepth n member depth) := by
  simp only [findAtDepth_eq]
  exact Stable.foldlM evaluateHypothesis_stable _ _

/-- A result of `find_hypotheses` does not depend on the bounds. -/
theorem findHypotheses_stable (member : Member) (maxHypoLen : Nat) :
    Stable (fun n => findHypotheses n member maxHypoLen) := by
  have main : ∀ rounds n depth m found, findFrom n maxHypoLen rounds depth m = .ok found →
      findFrom (n + 1) maxHypoLen (rounds + 1) depth m = .ok found := by
    intro rounds
    induction rounds with
    | zero =>
      intro n depth m found h
      cases h
    | succ rounds ih =>
      intro n depth m found h
      obtain ⟨m', hm, h⟩ := bind_ok.mp h
      refine bind_ok.mpr ⟨m', findAtDepth_stable m depth n m' hm, ?_⟩
      split at h
      · rename_i hstop
        rw [if_pos hstop]
        exact h
      · rename_i hstop
        rw [if_neg hstop]
        exact ih n (depth + 1) m' found h
  exact fun n found h => main n n 0 member found h

/-- Of several calls with one hypothesis, exactly the first one evaluates it. -/
theorem evaluated_once {member₀ : Member} (hf : member₀.Fresh) {cs : List (List MyId)} (hcs : PartsFirst cs)
    {s : List MyId} (hs : s ∈ cs) :
    ∃! i, cs[i]? = some s ∧ ∃ before, Yields (fun n => (cs.take i).foldlM (evaluateHypothesis n) member₀) before ∧
      s ∉ before.hypotheses := by
  have hbefore : ∀ i, ∃ before, Yields (fun n => (cs.take i).foldlM (evaluateHypothesis n) member₀) before ∧
      Built member₀ before (fun k => k ∈ cs.take i) := by
    intro i
    refine fold_yields hf ?_
    rw [← List.take_append_drop i cs] at hcs
    exact hcs.left
  have hfirst : ∀ i, (∃ before, Yields (fun n => (cs.take i).foldlM (evaluateHypothesis n) member₀) before ∧
      s ∉ before.hypotheses) ↔ s ∉ cs.take i := by
    intro i
    obtain ⟨before, hy, hb⟩ := hbefore i
    constructor
    · rintro ⟨b, hyb, hnot⟩ hm
      rw [hyb.unique hy] at hnot
      exact hnot ((hb.keys s).mpr hm)
    · exact fun hnot => ⟨before, hy, fun hm => hnot ((hb.keys s).mp hm)⟩
  have hlt : cs.idxOf s < cs.length := List.idxOf_lt_length_iff.mpr hs
  have hmin : ∀ j (hj : j < cs.length), j < cs.idxOf s → cs[j] ≠ s := by
    intro j hj hji
    have hne : (cs[j] == s) = false := List.not_of_lt_findIdx hji
    simpa using hne
  refine ⟨cs.idxOf s, ⟨by rw [List.getElem?_eq_getElem hlt, List.getElem_idxOf], ?_⟩, ?_⟩
  · rw [hfirst]
    intro hm
    obtain ⟨j, hj, he⟩ := List.getElem_of_mem hm
    rw [List.length_take] at hj
    rw [List.getElem_take] at he
    exact hmin j (by omega) (by omega) he
  · rintro j ⟨hj, hnot⟩
    rw [hfirst] at hnot
    obtain ⟨hjl, he⟩ := List.getElem?_eq_some_iff.mp hj
    have hle : cs.idxOf s ≤ j := by
      by_contra hgt
      exact hmin j hjl (by omega) he
    rcases Nat.lt_or_eq_of_le hle with hlt' | heq
    · exfalso
      apply hnot
      rw [List.mem_take_iff_getElem]
      exact ⟨cs.idxOf s, by omega, List.getElem_idxOf hlt⟩
    · exact heq.symm

/-- The enumeration is exactly the family of subsets: `find_hypotheses` ends, its keys are
the sorted duplicate-free lists of locks of one combination up to the length limit, and of
all calls of `evaluate_hypothesis` exactly one evaluates each of them. -/
theorem hypotheses_are_subsets (member : Member) (maxHypoLen : Nat) (hf : member.Fresh) :
    ∃ depths found, Yields (fun n => findHypotheses n member maxHypoLen) found ∧
      (∀ s, s ∈ found.hypotheses ↔ s.Pairwise (· < ·) ∧
        (∃ lc ∈ member.combinations, ∀ x ∈ s, x ∈ lc.locksHeld) ∧ (0 < maxHypoLen → s.length ≤ maxHypoLen)) ∧
      Yields (fun n => (callsBelow member.combinations depths).foldlM (evaluateHypothesis n) member) found ∧
      ∀ s ∈ found.hypotheses, ∃! i, (callsBelow member.combinations depths)[i]? = some s ∧
        ∃ before, Yields (fun n => ((callsBelow member.combinations depths).take i).foldlM (evaluateHypothesis n) member)
          before ∧ s ∉ before.hypotheses := by
  obtain ⟨depths, found, hy, hyc, henum, hb⟩ := findHypotheses_yields hf maxHypoLen
  refine ⟨depths, found, hy, fun s => (hb.keys s).trans and_assoc, hyc, fun s hs => ?_⟩
  exact evaluated_once hf (partsFirst_callsBelow _ _) ((henum s).mpr ((hb.keys s).mp hs))

/-- A member with a combination that holds a lock twice. -/
def doubledLock : Member :=
  { Member.new "inode".toList "r:i_mode".toList with combinations := [⟨1, [3, 2, 3]⟩, ⟨2, [2]⟩] }

theorem doubledLock_subsets : ∃ depths found, Yields (fun n => findHypotheses n doubledLock 0) found ∧
    callsBelow doubledLock.combinations depths ≠ [] ∧
    (∀ s, s ∈ found.hypotheses ↔ s.Pairwise (· < ·) ∧
      (∃ lc ∈ doubledLock.combinations, ∀ x ∈ s, x ∈ lc.locksHeld) ∧ (0 < 0 → s.length ≤ 0)) := by
  obtain ⟨depths, found, hy, hkeys, -, honce⟩ := hypotheses_are_subsets doubledLock 0 ⟨rfl, rfl⟩
  refine ⟨depths, found, hy, ?_, hkeys⟩
  obtain ⟨i, ⟨hi, -⟩, -⟩ := honce [2, 3] ((hkeys _).mpr (by decide))
  intro hnil
  simp [hnil] at hi

/-- The graph is the covering relation between the enumerated hypotheses. -/
def Covers (member : Member) : Prop :=
  ∀ p ∈ member.hypotheses, ∀ h ∈ member.hypotheses,
    (h ∈ member.graph.children p ↔ (∀ x ∈ p, x ∈ h) ∧ h.length = p.length + 1)

/-- Between hypotheses of at most two locks every missing lock is the first or the last. -/
theorem isParent_iff_covered {p h : List MyId} (hh : h.length ≤ 2) :
    IsParent p h ↔ (∀ x ∈ p, x ∈ h) ∧ h.length = p.length + 1 := by
  constructor
  · intro hpar
    exact ⟨fun x hx => (isParent_iff.mp hpar).1.subset hx, hpar.length.symm⟩
  · rintro ⟨hsub, hlen⟩
    match h, p with
    | [], _ => simp at hlen
    | [a], [] => exact ⟨by simp, .inl rfl⟩
    | [a], _ :: _ => simp at hlen
    | [a, b], [] => simp at hlen
    | [a, b], [x] =>
      refine ⟨by simp, ?_⟩
      have := hsub x (by simp)
      simpa using this
    | [a, b], _ :: _ :: _ => simp at hlen
    | _ :: _ :: _ :: _, _ => simp at hh

/-- A list with three different locks has three of them in ascending order. -/
theorem exists_triple {held : List MyId} (h : 2 < held.dedup.length) :
    ∃ a b c, [a, b, c].Pairwise (· < ·) ∧ ∀ x ∈ [a, b, c], x ∈ held := by
  have hnd : (held.dedup.insertionSort (· ≤ ·)).Nodup :=
    (List.perm_insertionSort _ _).nodup_iff.mpr (List.nodup_dedup _)
  have hsorted : (held.dedup.insertionSort (· ≤ ·)).Pairwise (· < ·) :=
    (List.pairwise_insertionSort _ _).imp₂ (fun _ _ hle hne => Nat.lt_of_le_of_ne hle hne) hnd
  have hheld : ∀ x ∈ held.dedup.insertionSort (· ≤ ·), x ∈ held :=
    fun x hx => List.mem_dedup.mp ((List.mem_insertionSort _).mp hx)
  have hlen : 2 < (held.dedup.insertionSort (· ≤ ·)).length := by
    rw [List.length_insertionSort]
    exact h
  match hs : held.dedup.insertionSort (· ≤ ·) with
  | [] | [_] | [_, _] => simp [hs] at hlen
  | a :: b :: c :: rest =>
    rw [hs] at hsorted hheld
    exact ⟨a, b, c, hsorted.sublist (List.prefix_append [a, b, c] rest).sublist,
      fun x hx => hheld x ((List.prefix_append [a, b, c] rest).subset hx)⟩

/-- The graph is the covering relation exactly if no hypothesis has three locks. -/
theorem graph_covers_iff (member : Member) (maxHypoLen : Nat) (hf : member.Fresh) :
    ∃ found, Yields (fun n => findHypotheses n member maxHypoLen) found ∧
      (Covers found ↔ (0 < maxHypoLen ∧ maxHypoLen ≤ 2) ∨
        ∀ lc ∈ member.combinations, lc.locksHeld.dedup.length ≤ 2) := by
  obtain ⟨-, found, hy, -, -, hb⟩ := findHypotheses_yields hf maxHypoLen
  refine ⟨found, hy, ?_, ?_⟩
  · intro hcov
    by_contra hcon
    rw [not_or] at hcon
    obtain ⟨hmax, hlong⟩ := hcon
    push Not at hlong
    obtain ⟨lc, hlc, hlen⟩ := hlong
    obtain ⟨a, b, c, hlt, hheld⟩ := exists_triple hlen
    have hall : Enumerated member maxHypoLen [a, b, c] := by
      refine ⟨⟨hlt, lc, hlc, hheld⟩, fun hpos => ?_⟩
      simp only [List.length_cons, List.length_nil]
      omega
    have hpart : Enumerated member maxHypoLen [a, c] := by
      refine ⟨hall.1.sublist (by simp), fun hpos => ?_⟩
      have := hall.2 hpos
      simp only [List.length_cons, List.length_nil] at this ⊢
      omega
    -- The lock in the middle is missing, so that there is no edge.
    have hedge := (hcov _ ((hb.keys _).mpr hpart) _ ((hb.keys _).mpr hall)).mpr ⟨by simp, rfl⟩
    have hab : a < b := (List.pairwise_cons.mp hlt).1 b (by simp)
    have hbc : b < c := (List.pairwise_cons.mp (List.pairwise_cons.mp hlt).2).1 c (by simp)
    obtain ⟨-, hp | hp⟩ := ((hb.graph _ _).mp hedge).2
    · have he : c = b := by simpa using hp
      exact Nat.ne_of_lt hbc he.symm
    · have he : a = b := by simpa using hp
      exact Nat.ne_of_lt hab he
  · intro hcond p hp h hh
    have hen := (hb.keys h).mp hh
    have hlen : h.length ≤ 2 := by
      rcases hcond with ⟨hpos, hle⟩ | hshort
      · exact Nat.le_trans (hen.2 hpos) hle
      · obtain ⟨⟨hlt, lc, hlc, hheld⟩, -⟩ := hen
        have hnd : h.Nodup := hlt.imp Nat.ne_of_lt
        have hsub : h ⊆ lc.locksHeld.dedup := fun x hx => List.mem_dedup.mpr (hheld x hx)
        exact Nat.le_trans (hnd.subperm hsub).length_le (hshort lc hlc)
    rw [hb.graph p h, ← isParent_iff_covered hlen]
    exact and_iff_right hen

theorem doubledLock_covers : ∃ found, Yields (fun n => findHypotheses n doubledLock 0) found ∧
    (Covers found ↔ (0 < 0 ∧ 0 ≤ 2) ∨ ∀ lc ∈ doubledLock.combinations, lc.locksHeld.dedup.length ≤ 2) :=
  graph_covers_iff doubledLock 0 ⟨rfl, rfl⟩

/-- A member with three locks that are always held together. -/
def threeLocks : Member :=
  { Member.new "inode".toList "r:i_mode".toList with combinations := [⟨1, [1, 2, 3]⟩] }

/-- There is no edge from the first and the last of three locks to all three. -/
theorem threeLocks_uncovered : threeLocks.Fresh ∧
    ∃ found, Yields (fun n => findHypotheses n threeLocks 0) found ∧ ¬Covers found := by
  refine ⟨⟨rfl, rfl⟩, ?_⟩
  have hcheck : okAnd (findHypotheses 30 threeLocks 0) (fun found =>
      found.hypotheses.contains [1, 3] && found.hypotheses.contains [1, 2, 3] &&
        decide ([1, 2, 3] ∉ found.graph.children [1, 3])) = true := by decide +kernel
  obtain ⟨found, hf, hcheck⟩ := okAnd_iff.mp hcheck
  simp only [Bool.and_eq_true, decide_eq_true_eq, Std.ExtTreeMap.contains_iff_mem] at hcheck
  obtain ⟨⟨hp, hh⟩, hedge⟩ := hcheck
  refine ⟨found, (findHypotheses_stable _ _).yields hf, fun hcov => ?_⟩
  exact hedge ((hcov _ hp _ hh).mpr ⟨by simp, rfl⟩)

end LockDoc.Hypothesizer
