import LockDoc.Lib.Double
import LockDoc.Hypothesizer.Enumerate
import LockDoc.Hypothesizer.Uint64

/-!
# Support counts

From the lines of the input to the counts of a hypothesis: equal held-lock sequences of a
member are merged when the input is read, and one pass over the merged combinations adds
up, for every order in which the locks of a hypothesis are first held, the accesses of all
mentions of the member that show this order. The counters hold the sums modulo 2^64.
-/
namespace LockDoc.Hypothesizer

open Worklist

/-- The accesses of the mentions with a property. -/
def mentionedOccurrences (ms : List Mention) (p : Mention → Bool) : Nat :=
  ((ms.filter p).map Mention.occurrences).sum

theorem mentionedOccurrences_append (ms : List Mention) (m : Mention) (p : Mention → Bool) :
    mentionedOccurrences (ms ++ [m]) p = mentionedOccurrences ms p + if p m then m.occurrences else 0 := by
  by_cases h : p m <;> simp [mentionedOccurrences, h]

/-- What is counted in the entry of a member. -/
structure EntryCounts (ms : List Mention) (key : MemberKey) (e : Entry) : Prop where
  fresh : e.member.Fresh
  uncopied : e.member.combinations = []
  occurrences : e.member.occurrences = mentionedOccurrences ms (fun m => m.key = key)
  withLocks : e.member.occurrencesWithLocks =
    mentionedOccurrences ms (fun m => m.key = key && decide (0 < m.locksHeld.length))
  sums : ∀ p : List MyId → Bool,
    OrdMap.sumWhere p e.combinations = mentionedOccurrences ms (fun m => m.key = key && p m.locksHeld)
  keys : ∀ held, held ∈ e.combinations ↔ ∃ m ∈ ms, m.key = key ∧ m.locksHeld = held

theorem entryOf_counts (ms : List Mention) (key : MemberKey) : EntryCounts ms key (entryOf ms key) := by
  induction ms using List.reverseRecOn with
  | nil => exact ⟨⟨rfl, rfl⟩, rfl, rfl, rfl, fun p => rfl, by simp [entryOf, Entry.new]⟩
  | append_singleton ms m ih =>
    rw [entryOf_append]
    by_cases hk : m.key = key
    · rw [if_pos hk]
      refine ⟨⟨ih.fresh.hypotheses, ih.fresh.graph⟩, ih.uncopied, ?_, ?_, ?_, ?_⟩
      · rw [mentionedOccurrences_append, ← ih.occurrences]
        simp [Entry.add, hk]
      · rw [mentionedOccurrences_append, ← ih.withLocks]
        simp [Entry.add, hk]
      · intro p
        rw [mentionedOccurrences_append, ← ih.sums p, Entry.add]
        simp only [hk, decide_true, Bool.true_and]
        exact OrdMap.sumWhere_insert p _ _ _
      · intro held
        simp only [Entry.add, Std.ExtTreeMap.mem_insert, Std.LawfulEqOrd.compare_eq_iff_eq, ih.keys, List.mem_append,
          List.mem_singleton]
        constructor
        · rintro (rfl | ⟨x, hx, hrest⟩)
          · exact ⟨m, .inr rfl, hk, rfl⟩
          · exact ⟨x, .inl hx, hrest⟩
        · rintro ⟨x, hx | rfl, hkx, hh⟩
          · exact .inr ⟨x, hx, hkx, hh⟩
          · exact .inl hh
    · rw [if_neg hk]
      have hsame : ∀ p : Mention → Bool, p m = false →
          mentionedOccurrences (ms ++ [m]) p = mentionedOccurrences ms p := by
        intro p hp
        rw [mentionedOccurrences_append, hp]
        rfl
      refine ⟨ih.fresh, ih.uncopied, ?_, ?_, ?_, ?_⟩
      · rw [hsame _ (by simp [hk]), ih.occurrences]
      · rw [hsame _ (by simp [hk]), ih.withLocks]
      · intro p
        rw [hsame _ (by simp [hk]), ih.sums p]
      · intro held
        rw [ih.keys]
        constructor
        · rintro ⟨x, hx, hrest⟩
          exact ⟨x, List.mem_append_left _ hx, hrest⟩
        · rintro ⟨x, hx, hkx, hh⟩
          rcases List.mem_append.mp hx with hx | hx
          · exact ⟨x, hx, hkx, hh⟩
          · rw [List.mem_singleton.mp hx] at hkx
            exact absurd hkx hk

theorem occurrencesOf_toList (t : Std.ExtTreeMap (List MyId) Nat) (p : List MyId → Bool) :
    occurrencesOf (t.toList.map (fun kv => ⟨kv.2, kv.1⟩)) (fun lc => p lc.locksHeld) = OrdMap.sumWhere p t := by
  simp [occurrencesOf, OrdMap.sumWhere, List.filter_map, Function.comp_def]

/-- The member of a loaded entry, in terms of the mentions. -/
structure MemberCounts (ms : List Mention) (key : MemberKey) (member : Member) : Prop where
  fresh : member.Fresh
  occurrences : member.occurrences = mentionedOccurrences ms (fun m => m.key = key)
  withLocks : member.occurrencesWithLocks =
    mentionedOccurrences ms (fun m => m.key = key && decide (0 < m.locksHeld.length))
  sums : ∀ p : List MyId → Bool, occurrencesOf member.combinations (fun lc => p lc.locksHeld) =
    mentionedOccurrences ms (fun m => m.key = key && p m.locksHeld)
  combinations : ∀ held, (∃ lc ∈ member.combinations, lc.locksHeld = held) ↔
    ∃ m ∈ ms, m.key = key ∧ m.locksHeld = held

theorem EntryCounts.copied {ms : List Mention} {key : MemberKey} {e : Entry} (h : EntryCounts ms key e) :
    MemberCounts ms key e.copy.member := by
  have hc : e.copy.member.combinations = e.combinations.toList.map (fun kv => ⟨kv.2, kv.1⟩) := by
    simp [Entry.copy, h.uncopied]
  refine ⟨⟨h.fresh.hypotheses, h.fresh.graph⟩, h.occurrences, h.withLocks, ?_, ?_⟩
  · intro p
    rw [hc, occurrencesOf_toList, h.sums]
  · intro held
    rw [← h.keys, hc]
    simp only [List.mem_map, Prod.exists]
    constructor
    · rintro ⟨lc, ⟨k, v, hkv, rfl⟩, rfl⟩
      rw [Std.ExtTreeMap.mem_iff_isSome_getElem?, Std.ExtTreeMap.mem_toList_iff_getElem?_eq_some.mp hkv]
      rfl
    · intro hm
      obtain ⟨v, hv⟩ := Option.isSome_iff_exists.mp (Std.ExtTreeMap.mem_iff_isSome_getElem?.mp hm)
      exact ⟨⟨v, held⟩, ⟨held, v, Std.ExtTreeMap.mem_toList_iff_getElem?_eq_some.mpr hv, rfl⟩, rfl⟩

theorem Loaded.counts {lines : List (List Char)} {input : Input} (h : Loaded lines input) {e : Entry}
    (he : e ∈ input.members) : MemberCounts (mentionsIn input.locks lines) e.key e.member := by
  rw [h.members] at he
  obtain ⟨key, -, rfl⟩ := List.mem_map.mp he
  have hkey : (entryOf (mentionsIn input.locks lines) key).copy.key = key := entryOf_key _ key
  rw [hkey]
  exact (entryOf_counts _ key).copied

/-- Every member that is mentioned has an entry, and no other has. -/
theorem Loaded.mem_keys {lines : List (List Char)} {input : Input} (h : Loaded lines input) (key : MemberKey) :
    (∃ e ∈ input.members, e.key = key) ↔ ∃ m ∈ mentionsIn input.locks lines, m.key = key := by
  rw [h.members]
  constructor
  · rintro ⟨e, he, rfl⟩
    obtain ⟨k, hk, rfl⟩ := List.mem_map.mp he
    rw [List.mem_eraseDups] at hk
    obtain ⟨m, hm, rfl⟩ := List.mem_map.mp hk
    exact ⟨m, hm, (entryOf_key _ m.key).symm⟩
  · rintro ⟨m, hm, rfl⟩
    exact ⟨_, List.mem_map_of_mem (List.mem_eraseDups.mpr (List.mem_map_of_mem hm)), entryOf_key _ m.key⟩

/-- The mention shows the locks of a hypothesis in an order. -/
def Mention.shows (m : Mention) (h v : List MyId) : Bool :=
  h.all (· ∈ m.locksHeld) && firstOccurrences h m.locksHeld = v

/-- What `evaluate_hypothesis` looks for in a combination, in terms of the sequence held. -/
theorem containsLocks_lockOrder_eq {h : List MyId} (hh : h.Pairwise (· < ·)) (v : List MyId) :
    (fun lc : LockCombination => lc.containsLocks h && decide (lc.lockOrder h = v)) =
      fun lc => h.all (· ∈ lc.locksHeld) && decide (firstOccurrences h lc.locksHeld = v) := by
  funext lc
  rw [LockCombination.lockOrder_eq (hh.imp Nat.ne_of_lt)]
  congr 1
  rw [Bool.eq_iff_iff, LockCombination.containsLocks_iff hh]
  simp

theorem evaluation_shows {ms : List Mention} {key : MemberKey} {member : Member} (hm : MemberCounts ms key member)
    {h : List MyId} (hh : h.Pairwise (· < ·)) (v : List MyId) :
    (evaluation member.combinations h).orderMatches.getD v 0 =
      mentionedOccurrences ms (fun m => m.key = key && m.shows h v) := by
  rw [evaluation_matches, containsLocks_lockOrder_eq hh]
  rw [hm.sums fun held => h.all (· ∈ held) && decide (firstOccurrences h held = v)]
  rfl

theorem occurrencesOf_le (cs : List LockCombination) (p q : LockCombination → Bool) (h : ∀ lc, p lc → q lc) :
    occurrencesOf cs p ≤ occurrencesOf cs q := by
  induction cs with
  | nil => exact Nat.le_refl _
  | cons lc cs ih =>
    rw [← List.singleton_append, occurrencesOf_append, occurrencesOf_append, occurrencesOf_singleton,
      occurrencesOf_singleton]
    refine Nat.add_le_add ?_ ih
    by_cases hp : p lc
    · simp [hp, h lc hp]
    · simp [hp]

theorem MemberCounts.all {ms : List Mention} {key : MemberKey} {member : Member} (hm : MemberCounts ms key member) :
    occurrencesOf member.combinations (fun _ => true) = member.occurrences := by
  rw [hm.occurrences, hm.sums fun _ => true]
  simp

/-- The counts of a searched member in natural numbers. -/
theorem Loaded.searched {lines : List (List Char)} {input : Input} (hl : Loaded lines input) {e : Entry}
    (he : e ∈ input.members) (maxHypoLen : Nat) :
    ∃ found, Yields (fun n => findHypotheses n e.member maxHypoLen) found ∧
      found.occurrences = mentionedOccurrences (mentionsIn input.locks lines) (fun m => m.key = e.key) ∧
      (∀ h x, found.hypotheses[h]? = some x → h.Pairwise (· < ·) ∧
        (∀ v, x.orderMatches.getD v 0 = mentionedOccurrences (mentionsIn input.locks lines)
          (fun m => m.key = e.key && m.shows h v)) ∧
        (∀ v ∈ x.orderMatches, v.Perm h) ∧ OrdMap.total id x.orderMatches = x.occurrences ∧
        x.occurrences ≤ found.occurrences) ∧
      ∃ x, found.hypotheses[Member.rootNode]? = some x ∧ x.occurrences = found.occurrences := by
  have hm := hl.counts he
  obtain ⟨-, found, hy, -, -, hb⟩ := findHypotheses_yields hm.fresh maxHypoLen
  have hocc : found.occurrences = e.member.occurrences := by rw [hb.rest]
  refine ⟨found, hy, hocc.trans hm.occurrences, ?_, ?_⟩
  · intro h x hx
    have hmem : h ∈ found.hypotheses := by rw [Std.ExtTreeMap.mem_iff_isSome_getElem?, hx]; rfl
    have hh := ((hb.keys h).mp hmem).1.1
    have hval := hb.values h x hx
    refine ⟨hh, ?_, ?_, by rw [hval]; exact evaluation_total _ _, ?_⟩
    · intro v
      rw [hval, evaluation_shows hm hh]
    · intro v hv
      rw [hval] at hv
      obtain ⟨lc, -, hc, rfl⟩ := (evaluation_keys _ _ _).mp hv
      exact LockCombination.lockOrder_perm hh hc
    · rw [hval, evaluation_occurrences, hocc, ← hm.all]
      exact occurrencesOf_le _ _ _ fun _ _ => rfl
  · obtain ⟨m, hmm, hkey⟩ := (hl.mem_keys e.key).mp ⟨e, he, rfl⟩
    obtain ⟨lc, hlc, -⟩ := (hm.combinations m.locksHeld).mpr ⟨m, hmm, hkey, rfl⟩
    refine ⟨_, hb.value ⟨⟨List.Pairwise.nil, lc, hlc, by simp [Member.rootNode]⟩, by simp [Member.rootNode]⟩, ?_⟩
    rw [evaluation_occurrences, hocc, ← hm.all]
    congr 1
    funext c
    exact (LockCombination.containsLocks_iff List.Pairwise.nil).mpr (by simp)

/-- The counts of a searched member are those of its mentions: every count of a lock order is
the sum over the mentions that hold all locks of the hypothesis and first hold them in this
order; orders are permutations of the hypothesis and their counts add up to its occurrences;
the empty hypothesis occurs as often as the member, and all relative supports lie between 0 and
1, as exact quotients and as doubles. -/
structure SupportExact (ms : List Mention) (key : MemberKey) (found : Member UInt64) : Prop where
  sorted : ∀ h ∈ found.hypotheses, h.Pairwise (· < ·)
  counts : ∀ (h : List MyId) (x : LockingHypothesisMatches UInt64), found.hypotheses[h]? = some x →
    (∀ v, (x.orderMatches.getD v 0).toNat = mentionedOccurrences ms (fun m => m.key = key && m.shows h v)) ∧
      (∀ v ∈ x.orderMatches, v.Perm h) ∧ OrdMap.total UInt64.toNat x.orderMatches = x.occurrences.toNat
  root : ∃ x, found.hypotheses[Member.rootNode]? = some x ∧ x.occurrences = found.occurrences
  unit : 0 < found.occurrences → ∀ (h : List MyId) (x : LockingHypothesisMatches UInt64),
    found.hypotheses[h]? = some x → ∀ n, (n = x.occurrences ∨ ∃ v, n = x.orderMatches.getD v 0) →
      (n.toNat : ℚ) / found.occurrences.toNat ∈ Set.Icc 0 1 ∧
        Double.quotient n.toNat found.occurrences.toNat ∈ Set.Icc 0 1

/-- Counts that fit into 64 bits add up to the same. -/
theorem LockingHypothesisMatches.total_ofNat {m : LockingHypothesisMatches}
    (h : ∀ v, m.orderMatches.getD v 0 < 2 ^ 64) :
    OrdMap.total UInt64.toNat (m.map UInt64.ofNat).orderMatches = OrdMap.total id m.orderMatches := by
  rw [LockingHypothesisMatches.map, OrdMap.total_map]
  unfold OrdMap.total
  congr 1
  apply List.map_congr_left
  rintro ⟨v, n⟩ hvn
  have hn := h v
  rw [LockingHypothesisMatches.getD_of_mem_toList hvn] at hn
  exact toNat_ofNat hn

/-- A part of a number of accesses is between none and all of it, also as a double. -/
theorem quotients_mem_Icc {n m : Nat} (hle : n ≤ m) (hpos : 0 < m) :
    (n : ℚ) / m ∈ Set.Icc 0 1 ∧ Double.quotient n m ∈ Set.Icc 0 1 :=
  ⟨⟨div_nonneg (Nat.cast_nonneg _) (Nat.cast_nonneg _),
    div_le_one_of_le₀ (Nat.cast_le.mpr hle) (Nat.cast_nonneg _)⟩, Double.quotient_mem_Icc hle hpos⟩

/-- Support counts are exact for every member of a file whose occurrences add up to less than
2^64, and exactly the members that are mentioned are there. -/
theorem support_counts_exact (file : List Char) (maxHypoLen : Nat) (input : Input UInt64)
    (hload : Yields (fun n => load n file) input) :
    (∀ key, (∃ e ∈ input.members, e.key = key) ↔
      ∃ m ∈ mentionsIn input.locks (dataLines file), m.key = key) ∧
    ∀ e ∈ input.members,
      mentionedOccurrences (mentionsIn input.locks (dataLines file)) (fun m => m.key = e.key) < 2 ^ 64 →
      ∃ found, Yields (fun n => findHypotheses n e.member maxHypoLen) found ∧
        SupportExact (mentionsIn input.locks (dataLines file)) e.key found := by
  obtain ⟨input, hload', rfl⟩ := load_uint64 hload
  have hl := loaded_of_yields hload'
  refine ⟨?_, ?_⟩
  · intro key
    refine Iff.trans ?_ (hl.mem_keys key)
    simp only [Input.map, List.mem_map, exists_exists_and_eq_and]
    rfl
  · intro e' he' hsmall
    obtain ⟨e, he, rfl⟩ := List.mem_map.mp he'
    obtain ⟨found, hy, hocc, hcounts, x₀, hx₀, hroot⟩ := hl.searched he maxHypoLen
    change mentionedOccurrences (mentionsIn input.locks (dataLines file)) (fun m => m.key = e.key) < 2 ^ 64 at hsmall
    rw [← hocc] at hsmall
    have hfound : (found.map UInt64.ofNat).occurrences.toNat = found.occurrences := toNat_ofNat hsmall
    -- No counter of a hypothesis exceeds the one of the member.
    have hbound : ∀ (h : List MyId) (x : LockingHypothesisMatches), found.hypotheses[h]? = some x →
        x.occurrences ≤ found.occurrences ∧ ∀ v, x.orderMatches.getD v 0 ≤ found.occurrences := by
      intro h x hx
      obtain ⟨-, -, -, htotal, hle⟩ := hcounts h x hx
      refine ⟨hle, fun v => Nat.le_trans ?_ hle⟩
      rw [← htotal]
      exact OrdMap.le_total id _ v 0 rfl
    refine ⟨_, findHypotheses_ofNat hy, ?_, ?_, ?_, ?_⟩
    · intro h hh
      rw [Std.ExtTreeMap.mem_iff_isSome_getElem?, Option.isSome_iff_exists] at hh
      obtain ⟨y, hy⟩ := hh
      obtain ⟨x, hx, rfl⟩ := Member.getElem?_map.mp hy
      exact (hcounts h x hx).1
    · intro h y hy
      obtain ⟨x, hx, rfl⟩ := Member.getElem?_map.mp hy
      obtain ⟨-, hshows, hperm, htotal, hle⟩ := hcounts h x hx
      refine ⟨?_, ?_, ?_⟩
      · intro v
        rw [LockingHypothesisMatches.getD_ofNat, toNat_ofNat (Nat.lt_of_le_of_lt ((hbound h x hx).2 v) hsmall)]
        exact hshows v
      · exact fun v hv => hperm v (Std.ExtTreeMap.mem_map.mp hv)
      · have hfits : ∀ v, x.orderMatches.getD v 0 < 2 ^ 64 := fun v => Nat.lt_of_le_of_lt ((hbound h x hx).2 v) hsmall
        rw [LockingHypothesisMatches.total_ofNat hfits, htotal, LockingHypothesisMatches.map,
          toNat_ofNat (Nat.lt_of_le_of_lt hle hsmall)]
    · exact ⟨_, Member.getElem?_map.mpr ⟨x₀, hx₀, rfl⟩, congrArg UInt64.ofNat hroot⟩
    · intro hpos h y hy n hn
      obtain ⟨x, hx, rfl⟩ := Member.getElem?_map.mp hy
      obtain ⟨hle, hles⟩ := hbound h x hx
      have hcount : n.toNat ≤ found.occurrences := by
        rcases hn with rfl | ⟨v, rfl⟩
        · rwa [LockingHypothesisMatches.map, toNat_ofNat (Nat.lt_of_le_of_lt hle hsmall)]
        · rw [LockingHypothesisMatches.getD_ofNat, toNat_ofNat (Nat.lt_of_le_of_lt (hles v) hsmall)]
          exact hles v
      have hpos' : 0 < found.occurrences := by
        have := UInt64.lt_iff_toNat_lt.mp hpos
        rwa [hfound] at this
      rw [hfound]
      exact quotients_mem_Icc hcount hpos'

/-- A file that repeats a line, a lock within a line, and a member within a line. -/
def repetitive : List Char :=
  "type\tmembers\tlocks\tcount\ninode\tr:i_mode,r:i_mode\trcu,i_lock,rcu\t2\ninode\tr:i_mode\trcu,i_lock,rcu\t3\n".toList

theorem mentionedOccurrences_le (ms : List Mention) (p : Mention → Bool) :
    mentionedOccurrences ms p ≤ (ms.map Mention.occurrences).sum :=
  (List.filter_sublist.map _).sum_le_sum fun _ _ => Nat.zero_le _

theorem repetitive_exact : ∃ input : Input UInt64, Yields (fun n => load n repetitive) input ∧
    input.locks = ["rcu".toList, "i_lock".toList] ∧ input.members ≠ [] ∧
    ∀ e ∈ input.members, ∃ found, Yields (fun n => findHypotheses n e.member 0) found ∧
      SupportExact (mentionsIn input.locks (dataLines repetitive)) e.key found := by
  have hread : ∃ input₀ : Input, (dataLines repetitive).foldlM readLine ⟨[], []⟩ = .ok input₀ ∧
      input₀.members.length = 1 ∧ input₀.locks = ["rcu".toList, "i_lock".toList] ∧
      ((mentionsIn input₀.locks (dataLines repetitive)).map Mention.occurrences).sum < 2 ^ 64 :=
    ⟨_, rfl, by decide +kernel, by decide +kernel, by decide +kernel⟩
  obtain ⟨input₀, hr, hlen, hlocks, hsum⟩ := hread
  have hload := load_ofNat (load_yields hr (by omega))
  refine ⟨_, hload, hlocks, ?_, ?_⟩
  · intro hnil
    have := congrArg List.length hnil
    simp [Input.map, hlen] at this
  · intro e he
    exact (support_counts_exact repetitive 0 _ hload).2 e he (Nat.lt_of_le_of_lt (mentionedOccurrences_le _ _) hsum)

/-- The same line twice, with half of what a counter holds. -/
def wrapping : List Char :=
  "inode\tr:i_mode\trcu\t9223372036854775808\ninode\tr:i_mode\trcu\t9223372036854775808\n".toList

/-- No counter holds more than 64 bits. -/
theorem SupportExact.small {ms : List Mention} {key : MemberKey} {found : Member UInt64}
    (h : SupportExact ms key found) : mentionedOccurrences ms (fun m => m.key = key) < 2 ^ 64 := by
  obtain ⟨x, hx, -⟩ := h.root
  have hcount := (h.counts _ x hx).1 []
  have hall : ∀ m : Mention, m.shows Member.rootNode [] = true := fun m => by
    simp [Mention.shows, Member.rootNode, firstOccurrences]
  simp only [hall, Bool.and_true] at hcount
  rw [← hcount]
  exact UInt64.toNat_lt _

/-- The counters of the member and of its hypotheses wrap around to 0. -/
theorem wrapping_inexact : ∃ input : Input UInt64, Yields (fun n => load n wrapping) input ∧
    ∃ e ∈ input.members, e.member.occurrences = 0 ∧
      ¬∃ found, Yields (fun n => findHypotheses n e.member 0) found ∧
        SupportExact (mentionsIn input.locks (dataLines wrapping)) e.key found := by
  have hread : ∃ input₀ : Input, (dataLines wrapping).foldlM readLine ⟨[], []⟩ = .ok input₀ ∧
      ∃ e, input₀.members = [e] ∧ e.member.occurrences = 2 ^ 64 ∧
        mentionedOccurrences (mentionsIn input₀.locks (dataLines wrapping)) (fun m => m.key = e.key) = 2 ^ 64 :=
    ⟨_, rfl, _, rfl, by decide +kernel, by decide +kernel⟩
  obtain ⟨input₀, hr, e, he, hocc, hsum⟩ := hread
  refine ⟨_, load_ofNat (load_yields hr (by simp [he])), e.copy.map UInt64.ofNat, by simp [Input.map, he], ?_, ?_⟩
  · show UInt64.ofNat e.member.occurrences = 0
    rw [hocc]
    rfl
  · rintro ⟨found, -, hexact⟩
    exact absurd hsum (Nat.ne_of_lt hexact.small)

end LockDoc.Hypothesizer
