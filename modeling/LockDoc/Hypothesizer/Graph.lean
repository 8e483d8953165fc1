import LockDoc.Hypothesizer.Member

/-!
# The graph of hypotheses

`diff_hypotheses` looks for a hypothesis as a contiguous part of a longer one. A new
hypothesis therefore becomes a child of exactly two nodes, itself without its last lock
and itself without its first lock, and the search for them visits all contiguous parts.
-/
namespace LockDoc.Hypothesizer

open Worklist

theorem agreements_eq_length {lhs rhs : List MyId} {i : Nat} :
    agreements lhs rhs i = lhs.length ↔ ∀ k (h : k < lhs.length), rhs[k + i]? = some lhs[k] := by
  have hlen : (List.range lhs.length).length = lhs.length := List.length_range
  rw [agreements]
  nth_rewrite 2 [← hlen]
  rw [List.countP_eq_length]
  simp only [List.mem_range, decide_eq_true_eq]
  constructor
  · intro h k hk
    rw [← h k hk, List.getElem?_eq_getElem hk]
  · intro h k hk
    rw [h k hk, List.getElem?_eq_getElem hk]

/-- The difference in length if the left hypothesis is a contiguous part of the right one. -/
theorem diffHypotheses_eq {lhs rhs : List MyId} (h : lhs.length ≤ rhs.length) :
    diffHypotheses lhs rhs = .ok (if lhs <:+: rhs then ((rhs.length - lhs.length : Nat) : Int) else -1) := by
  have hany : ((List.range (rhs.length - lhs.length + 1)).any (fun i => agreements lhs rhs i = lhs.length) = true) ↔
      lhs <:+: rhs := by
    rw [List.infix_iff_getElem?, List.any_eq_true]
    simp only [List.mem_range, decide_eq_true_eq, agreements_eq_length]
    constructor
    · rintro ⟨i, hi, hk⟩
      exact ⟨i, by omega, hk⟩
    · rintro ⟨i, hi, hk⟩
      exact ⟨i, by omega, hk⟩
  rw [diffHypotheses, if_pos h]
  by_cases hin : lhs <:+: rhs
  · rw [if_pos (hany.mpr hin), if_pos hin]
  · rw [if_neg (fun he => hin (hany.mp he)), if_neg hin]

theorem insertStep_far {h node : List MyId} {graph : Graph} (hn : node.length + 1 < h.length) :
    insertStep h graph node = .ok (graph, if node <:+: h then graph.children node else []) := by
  rw [insertStep, diffHypotheses_eq (by omega)]
  by_cases hin : node <:+: h
  · have h0 : ((h.length - node.length : Nat) : Int) ≠ 0 := by omega
    have h1 : ((h.length - node.length : Nat) : Int) ≠ 1 := by omega
    have h2 : 0 < ((h.length - node.length : Nat) : Int) := by omega
    simp only [hin, if_true, bind, Except.bind, h0, h1, h2, if_false]
  · simp [hin, bind, Except.bind]

theorem insertStep_near {h node : List MyId} {graph : Graph} (hn : node.length + 1 = h.length) :
    insertStep h graph node =
      .ok (if node <:+: h then graph.insert node ((graph.getD node ∅).insert h) else graph, []) := by
  rw [insertStep, diffHypotheses_eq (by omega)]
  by_cases hin : node <:+: h
  · have h1 : ((h.length - node.length : Nat) : Int) = 1 := by omega
    simp [hin, bind, Except.bind, h1]
  · simp [hin, bind, Except.bind]

theorem mem_children {graph : Graph} {p h : List MyId} : h ∈ graph.children p ↔ h ∈ graph.getD p ∅ :=
  Std.ExtTreeSet.mem_toList

theorem mem_children_insert {graph : Graph} {p q h k : List MyId} :
    k ∈ Graph.children (graph.insert q ((graph.getD q ∅).insert h)) p ↔
      k ∈ graph.children p ∨ (p = q ∧ k = h) := by
  rw [mem_children, mem_children, OrdMap.getD_insert_eq]
  by_cases hp : p = q
  · subst hp
    simp only [if_true, Std.ExtTreeSet.mem_insert, Std.LawfulEqOrd.compare_eq_iff_eq, true_and]
    rw [or_comm, eq_comm]
  · simp [hp]

/-- The two nodes below which a hypothesis hangs. -/
def IsParent (p h : List MyId) : Prop := h ≠ [] ∧ (p = h.dropLast ∨ p = h.tail)

theorem IsParent.length {p h : List MyId} (hp : IsParent p h) : p.length + 1 = h.length := by
  have := List.length_pos_iff.mpr hp.1
  rcases hp.2 with rfl | rfl
  · rw [List.length_dropLast]
    omega
  · rw [List.length_tail]
    omega

theorem isParent_iff {p h : List MyId} : IsParent p h ↔ p <:+: h ∧ p.length + 1 = h.length := by
  constructor
  · intro hp
    refine ⟨?_, hp.length⟩
    rcases hp.2 with rfl | rfl
    · exact h.dropLast_prefix.isInfix
    · exact h.tail_suffix.isInfix
  · rintro ⟨⟨s, t, rfl⟩, hlen⟩
    refine ⟨by rintro he; simp [he] at hlen, ?_⟩
    simp only [List.length_append] at hlen
    cases s with
    | nil =>
      obtain ⟨a, rfl⟩ : ∃ a, t = [a] := List.length_eq_one_iff.mp (by simp at hlen; omega)
      exact .inl (by simp)
    | cons b s =>
      have hs : s = [] := List.length_eq_zero_iff.mp (by simp at hlen; omega)
      have ht : t = [] := List.length_eq_zero_iff.mp (by simp at hlen; omega)
      subst hs ht
      exact .inr (by simp)

/-- The graph of a set of hypotheses. -/
def IsGraphOf (graph : Graph) (H : List MyId → Prop) : Prop :=
  ∀ p h, h ∈ graph.children p ↔ H h ∧ IsParent p h

theorem isGraphOf_empty (H : List MyId → Prop) (h : ∀ k, H k → k = []) : IsGraphOf ∅ H := by
  intro p k
  rw [mem_children]
  constructor
  · intro hk
    simp [OrdMap.getD_eq] at hk
  · rintro ⟨hk, hp⟩
    exact absurd (h k hk) hp.1

/-- A level before the last one enters nothing and pushes the children of all parts. -/
theorem sweep_far {graph : Graph} {h : List MyId} {q : List (List MyId)}
    (hlen : ∀ x ∈ q, x.length + 1 < h.length) :
    ∃ p, sweep (insertStep h) graph q = .ok (graph, p) ∧
      ∀ y, y ∈ p ↔ ∃ x ∈ q, x <:+: h ∧ y ∈ graph.children x := by
  obtain ⟨t, p, hsw, rfl, hp⟩ := @sweep_rule _ _ _ (insertStep h)
    (fun done t p => t = graph ∧ ∀ y, y ∈ p ↔ ∃ x ∈ done, x <:+: h ∧ y ∈ graph.children x) q graph
    (by
      rintro done x rest t p hq ⟨rfl, hp⟩
      refine ⟨_, _, insertStep_far (hlen x (by simp [hq])), rfl, ?_⟩
      intro y
      simp only [List.mem_append, hp, List.mem_singleton]
      constructor
      · rintro (⟨z, hz, hrest⟩ | hy)
        · exact ⟨z, .inl hz, hrest⟩
        · split at hy
          · rename_i hin
            exact ⟨x, .inr rfl, hin, hy⟩
          · simp at hy
      · rintro ⟨z, hz | rfl, hin, hy⟩
        · exact .inl ⟨z, hz, hin, hy⟩
        · exact .inr (by rw [if_pos hin]; exact hy))
    ⟨rfl, by simp⟩
  exact ⟨p, hsw, hp⟩

/-- The last level makes the hypothesis a child of every part and pushes nothing. -/
theorem sweep_near {graph : Graph} {h : List MyId} {q : List (List MyId)}
    (hlen : ∀ x ∈ q, x.length + 1 = h.length) :
    ∃ graph' : Graph, sweep (insertStep h) graph q = .ok (graph', []) ∧
      ∀ p k, k ∈ graph'.children p ↔ k ∈ graph.children p ∨ (p ∈ q ∧ p <:+: h ∧ k = h) := by
  obtain ⟨t, p, hsw, rfl, ht⟩ := @sweep_rule _ _ _ (insertStep h)
    (fun done t p => p = [] ∧ ∀ p k, k ∈ Graph.children t p ↔
      k ∈ graph.children p ∨ (p ∈ done ∧ p <:+: h ∧ k = h)) q graph
    (by
      rintro done x rest t p hq ⟨rfl, ht⟩
      refine ⟨_, _, insertStep_near (hlen x (by simp [hq])), rfl, ?_⟩
      intro p k
      have hsplit : k ∈ Graph.children (if x <:+: h then t.insert x ((t.getD x ∅).insert h) else t) p ↔
          k ∈ Graph.children t p ∨ (p = x ∧ x <:+: h ∧ k = h) := by
        split
        · rename_i hin
          rw [mem_children_insert]
          simp [hin]
        · rename_i hin
          simp [hin]
      rw [hsplit, ht]
      simp only [List.mem_append, List.mem_singleton]
      constructor
      · rintro ((hk | ⟨hp, hrest⟩) | ⟨rfl, hrest⟩)
        · exact .inl hk
        · exact .inr ⟨.inl hp, hrest⟩
        · exact .inr ⟨.inr rfl, hrest⟩
      · rintro (hk | ⟨hp | rfl, hrest⟩)
        · exact .inl (.inl hk)
        · exact .inl (.inr ⟨hp, hrest⟩)
        · exact .inr ⟨rfl, hrest⟩)
    ⟨rfl, by simp⟩
  exact ⟨t, hsw, ht⟩

/-- Entering a hypothesis all of whose proper contiguous parts have been entered. -/
theorem insert_yields {graph : Graph} {H : List MyId → Prop} {h : List MyId} (hg : IsGraphOf graph H) (hne : h ≠ [])
    (hparts : ∀ k, k <:+: h → k ≠ [] → k.length < h.length → H k) :
    ∃ graph', Yields (fun n => run .outOfFuel (insertStep h) n graph [Member.rootNode]) graph' ∧
      IsGraphOf graph' (fun k => H k ∨ k = h) := by
  have hpos := List.length_pos_iff.mpr hne
  -- Before the last level the queue has all parts of the length of the level.
  let I : Nat → Graph → List (List MyId) → Prop := fun k g q =>
    (k < h.length ∧ g = graph ∧ (∀ x ∈ q, x.length = k) ∧ ∀ p, p <:+: h → p.length = k → p ∈ q) ∨
      (h.length ≤ k ∧ q = [] ∧ IsGraphOf g (fun k => H k ∨ k = h))
  have hstart : I 0 graph [Member.rootNode] := by
    refine .inl ⟨hpos, rfl, by simp [Member.rootNode], ?_⟩
    intro p _ hp
    rw [List.length_eq_zero_iff.mp hp]
    exact List.mem_singleton_self _
  have hnext : ∀ k g q, I k g q → ∃ t p, sweep (insertStep h) g q = .ok (t, p) ∧ I (k + 1) t p := by
    rintro k g q (⟨hk, rfl, hlen, hall⟩ | ⟨hk, rfl, hG⟩)
    · by_cases hlast : k + 1 = h.length
      · obtain ⟨t, hsw, ht⟩ := @sweep_near g h q fun x hx => by rw [hlen x hx, hlast]
        refine ⟨t, [], hsw, .inr ⟨by omega, rfl, ?_⟩⟩
        intro p k'
        rw [ht, hg]
        constructor
        · rintro (⟨hH, hp⟩ | ⟨hp, hin, rfl⟩)
          · exact ⟨.inl hH, hp⟩
          · exact ⟨.inr rfl, isParent_iff.mpr ⟨hin, by rw [hlen p hp, hlast]⟩⟩
        · rintro ⟨hH | rfl, hp⟩
          · exact .inl ⟨hH, hp⟩
          · obtain ⟨hin, hpl⟩ := isParent_iff.mp hp
            exact .inr ⟨hall p hin (by omega), hin, rfl⟩
      · obtain ⟨p, hsw, hp⟩ := @sweep_far g h q fun x hx => by rw [hlen x hx]; omega
        refine ⟨g, p, hsw, .inl ⟨by omega, rfl, ?_, ?_⟩⟩
        · intro y hy
          obtain ⟨x, hx, -, hyx⟩ := (hp y).mp hy
          have := ((hg x y).mp hyx).2.length
          have := hlen x hx
          omega
        · intro y hy hyl
          have hyne : y ≠ [] := by rintro rfl; simp at hyl
          have hpar : IsParent y.dropLast y := ⟨hyne, .inl rfl⟩
          have hdl : y.dropLast <:+: h := y.dropLast_prefix.isInfix.trans hy
          have := hpar.length
          exact (hp y).mpr ⟨y.dropLast, hall _ hdl (by omega), hdl,
            (hg _ _).mpr ⟨hparts y hy hyne (by omega), hpar⟩⟩
    · exact ⟨g, [], rfl, .inr ⟨by omega, rfl, hG⟩⟩
  obtain ⟨k, t, hl, ht⟩ := levels_rule h.length hnext
    (by
      rintro k g q (⟨hk, -⟩ | ⟨-, rfl, -⟩) hD
      · omega
      · rfl) hstart
  refine ⟨t, hl.yields .outOfFuel, ?_⟩
  rcases ht with ⟨hk, -, -, hall⟩ | ⟨-, -, hG⟩
  · -- An empty level of this kind cannot be: the hypothesis has a part of every length.
    have := hall (h.take k) (h.take_prefix k).isInfix (by rw [List.length_take]; omega)
    simp at this
  · exact hG

end LockDoc.Hypothesizer
