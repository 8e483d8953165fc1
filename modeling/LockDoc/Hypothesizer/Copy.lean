import LockDoc.Hypothesizer.Support

/-!
# Copying the combinations

The loop of `main` that moves `members_combinations` into the members counts with a
`myid_t`. The guards of the line loop admit as many members as a `myid_t` has values, one
more than the loop can count to. The counts that are moved are sums modulo 2^64.
-/
namespace LockDoc.Hypothesizer

open FallibleRun (bind_ok)
open Worklist

/-- The distinct members that the lines of a file name, each with its data type. -/
def memberKeys (lines : List (List Char)) : List MemberKey :=
  ((parsed lines).flatMap (fun d => d.members.map (fun element => (d.datatype, element)))).eraseDups

theorem mentionsIn_keys (locks lines : List (List Char)) :
    ((mentionsIn locks lines).map Mention.key).eraseDups = memberKeys lines := by
  rw [memberKeys, mentionsIn, List.map_flatMap]
  congr 2
  funext d
  simp [DataLine.mentions]

/-- The accesses that the lines of a file count for a member under one held-lock sequence. -/
def sequenceOccurrences (lines : List (List Char)) (key : MemberKey) (names : List (List Char)) : Nat :=
  (((parsed lines).filter (fun d => d.datatype = key.1 && d.locks = names)).map
    (fun d => d.members.count key.2 * d.occurrences)).sum

theorem sequenceOccurrences_le (lines : List (List Char)) (key : MemberKey) (names : List (List Char)) :
    sequenceOccurrences lines key names ≤ ((parsed lines).map (fun d => d.members.length * d.occurrences)).sum := by
  unfold sequenceOccurrences
  induction parsed lines with
  | nil => exact Nat.le_refl _
  | cons d ds ih =>
    have hone := Nat.mul_le_mul_right d.occurrences (@List.count_le_length _ _ key.2 d.members)
    rw [List.filter_cons, List.map_cons, List.sum_cons]
    split
    · rw [List.map_cons, List.sum_cons]
      exact Nat.add_le_add hone ih
    · exact Nat.le_trans ih (Nat.le_add_left _ _)

/-- A sequence of numbered locks has the numbers of no other sequence. -/
theorem map_idxOf_inj {locks xs ys : List (List Char)} (hx : ∀ x ∈ xs, x ∈ locks) (hy : ∀ y ∈ ys, y ∈ locks) :
    xs.map (fun name => locks.idxOf name) = ys.map (fun name => locks.idxOf name) ↔ xs = ys := by
  have hback : ∀ zs : List (List Char), (∀ z ∈ zs, z ∈ locks) →
      (zs.map (fun name => locks.idxOf name)).map (fun i => locks[i]?) = zs.map some := by
    intro zs hz
    rw [List.map_map]
    exact List.map_congr_left fun z hm => List.getElem?_idxOf (hz z hm)
  constructor
  · intro h
    have := congrArg (List.map (fun i => locks[i]?)) h
    rw [hback xs hx, hback ys hy] at this
    exact (List.map_inj_right fun _ _ => Option.some.inj).mp this
  · rintro rfl
    rfl

theorem mentionedOccurrences_mentions (locks : List (List Char)) (d : DataLine) (key : MemberKey)
    (p : List MyId → Bool) :
    mentionedOccurrences (d.mentions locks) (fun m => m.key = key && p m.locksHeld) =
      if d.datatype = key.1 ∧ p (d.locksHeld locks) then d.members.count key.2 * d.occurrences else 0 := by
  unfold DataLine.mentions
  induction d.members with
  | nil => simp [mentionedOccurrences]
  | cons element rest ih =>
    have hcons : ∀ (m : Mention) (ms : List Mention) (q : Mention → Bool),
        mentionedOccurrences (m :: ms) q = (if q m then m.occurrences else 0) + mentionedOccurrences ms q := by
      intro m ms q
      by_cases h : q m <;> simp [mentionedOccurrences, h]
    rw [List.map_cons, hcons, ih, List.count_cons]
    obtain ⟨datatype, name⟩ := key
    by_cases hd : d.datatype = datatype <;> by_cases hp : p (d.locksHeld locks) <;> by_cases he : element = name <;>
      simp [hd, hp, he, Nat.add_mul, Nat.add_comm]

/-- What is mentioned under a numbered sequence is what the lines count for it. -/
theorem mentionedOccurrences_sequence {locks lines : List (List Char)}
    (hknown : ∀ d ∈ parsed lines, ∀ name ∈ d.locks, name ∈ locks) (key : MemberKey) {names : List (List Char)}
    (hnames : ∀ name ∈ names, name ∈ locks) :
    mentionedOccurrences (mentionsIn locks lines)
        (fun m => m.key = key && m.locksHeld = names.map (fun name => locks.idxOf name)) =
      sequenceOccurrences lines key names := by
  unfold mentionsIn sequenceOccurrences
  generalize parsed lines = ds at hknown ⊢
  induction ds with
  | nil => rfl
  | cons d ds ih =>
    have hd := hknown d List.mem_cons_self
    have hsame : d.locksHeld locks = names.map (fun name => locks.idxOf name) ↔ d.locks = names :=
      map_idxOf_inj hd hnames
    have hone := mentionedOccurrences_mentions locks d key
      (fun held => held = names.map (fun name => locks.idxOf name))
    have hrest := ih fun d' hd' => hknown d' (List.mem_cons_of_mem _ hd')
    simp only [decide_eq_true_eq, hsame] at hone
    have happend : ∀ (xs ys : List Mention) (q : Mention → Bool),
        mentionedOccurrences (xs ++ ys) q = mentionedOccurrences xs q + mentionedOccurrences ys q := by
      simp [mentionedOccurrences]
    rw [List.flatMap_cons, happend, hone, hrest]
    by_cases h : d.datatype = key.1 ∧ d.locks = names
    · rw [if_pos h, List.filter_cons_of_pos (by simpa using h), List.map_cons, List.sum_cons]
    · rw [if_neg h, List.filter_cons_of_neg (by simpa using h), Nat.zero_add]

/-- Every member is there once, and its combinations list every held-lock sequence that was
observed for it exactly once, with the sum of its occurrences. -/
structure Copied (lines : List (List Char)) (input : Input UInt64) : Prop where
  numbered : input.locks.Nodup ∧ ∀ d ∈ parsed lines, ∀ name ∈ d.locks, name ∈ input.locks
  members : input.members.map Entry.key = memberKeys lines
  once : ∀ e ∈ input.members, (e.member.combinations.map LockCombination.locksHeld).Nodup
  observed : ∀ e ∈ input.members, ∀ held, (∃ lc ∈ e.member.combinations, lc.locksHeld = held) ↔
    ∃ m ∈ mentionsIn input.locks lines, m.key = e.key ∧ m.locksHeld = held
  summed : ∀ e ∈ input.members, ∀ lc ∈ e.member.combinations, lc.occurrences.toNat =
    mentionedOccurrences (mentionsIn input.locks lines) (fun m => m.key = e.key && m.locksHeld = lc.locksHeld)

/-- A sum over one of several distinct sequences is its own count. -/
theorem occurrencesOf_locksHeld {cs : List LockCombination} (hnd : (cs.map LockCombination.locksHeld).Nodup)
    {lc : LockCombination} (hlc : lc ∈ cs) :
    occurrencesOf cs (fun c => c.locksHeld = lc.locksHeld) = lc.occurrences := by
  induction cs with
  | nil => cases hlc
  | cons c cs ih =>
    rw [List.map_cons, List.nodup_cons] at hnd
    rw [← List.singleton_append, occurrencesOf_append, occurrencesOf_singleton]
    rcases List.mem_cons.mp hlc with rfl | hlc
    · have hrest : occurrencesOf cs (fun c => c.locksHeld = lc.locksHeld) = 0 := by
        rw [occurrencesOf, List.filter_eq_nil_iff.mpr ?_]
        · rfl
        · intro d hd he
          exact hnd.1 (decide_eq_true_eq.mp he ▸ List.mem_map_of_mem hd)
      simp [hrest]
    · have hne : c.locksHeld ≠ lc.locksHeld := fun he => hnd.1 (he ▸ List.mem_map_of_mem hlc)
      simp [hne, ih hnd.2 hlc]

/-- Every sequence of a member is listed once. -/
theorem Loaded.once {lines : List (List Char)} {input : Input} (h : Loaded lines input) {e : Entry}
    (he : e ∈ input.members) : (e.member.combinations.map LockCombination.locksHeld).Nodup := by
  rw [h.members] at he
  obtain ⟨key, -, rfl⟩ := List.mem_map.mp he
  rw [Entry.copy, (entryOf_counts _ key).uncopied, List.nil_append, List.map_map]
  have hkeys := @Std.ExtTreeMap.distinct_keys_toList _ _ compare
    (entryOf (mentionsIn input.locks lines) key).combinations _
  rw [List.Nodup, List.pairwise_map]
  exact hkeys.imp fun hne he => hne (Std.LawfulEqOrd.compare_eq_iff_eq.mpr he)

theorem Loaded.keys {lines : List (List Char)} {input : Input} (h : Loaded lines input) :
    input.members.map Entry.key = memberKeys lines := by
  rw [h.members, mentionsIn_keys, List.map_map]
  exact List.map_id'' (fun key => entryOf_key _ key) _

/-- The count of a sequence is what the lines count for it. -/
theorem Loaded.summed {lines : List (List Char)} {input : Input} (h : Loaded lines input) {e : Entry}
    (he : e ∈ input.members) {lc : LockCombination} (hlc : lc ∈ e.member.combinations) :
    lc.occurrences = mentionedOccurrences (mentionsIn input.locks lines)
        (fun m => m.key = e.key && m.locksHeld = lc.locksHeld) ∧
      ∃ names, lc.occurrences = sequenceOccurrences lines e.key names := by
  have hsum : lc.occurrences = mentionedOccurrences (mentionsIn input.locks lines)
      (fun m => m.key = e.key && m.locksHeld = lc.locksHeld) := by
    rw [← occurrencesOf_locksHeld (h.once he) hlc]
    exact (h.counts he).sums fun held => held = lc.locksHeld
  refine ⟨hsum, ?_⟩
  obtain ⟨m, hm, -, hheld⟩ := ((h.counts he).combinations lc.locksHeld).mp ⟨lc, hlc, rfl⟩
  obtain ⟨d, hd, hm⟩ := List.mem_flatMap.mp hm
  obtain ⟨element, -, rfl⟩ := List.mem_map.mp hm
  refine ⟨d.locks, ?_⟩
  rw [hsum, ← hheld]
  exact mentionedOccurrences_sequence h.known e.key (h.known d hd)

/-- A sequence that is counted for a member is among its combinations. -/
theorem Loaded.listed {lines : List (List Char)} {input : Input} (h : Loaded lines input) {key : MemberKey}
    {names : List (List Char)} (hpos : 0 < sequenceOccurrences lines key names) :
    ∃ e ∈ input.members, ∃ lc ∈ e.member.combinations,
      lc.occurrences = sequenceOccurrences lines key names := by
  obtain ⟨n, hn, hne⟩ := List.exists_mem_ne_zero_of_sum_ne_zero (Nat.ne_of_gt hpos)
  obtain ⟨d, hfilter, rfl⟩ := List.mem_map.mp hn
  obtain ⟨hd, hshape⟩ := List.mem_filter.mp hfilter
  simp only [Bool.and_eq_true, decide_eq_true_eq] at hshape
  obtain ⟨hkey, rfl⟩ := hshape
  have helement : key.2 ∈ d.members := List.count_pos_iff.mp (Nat.pos_of_ne_zero (Nat.ne_zero_of_mul_ne_zero_left hne))
  have hm : (⟨key, d.locksHeld input.locks, d.occurrences⟩ : Mention) ∈ mentionsIn input.locks lines :=
    List.mem_flatMap.mpr ⟨d, hd, List.mem_map.mpr ⟨key.2, helement, by rw [hkey]⟩⟩
  obtain ⟨e, he, rfl⟩ := (h.mem_keys key).mpr ⟨_, hm, rfl⟩
  obtain ⟨lc, hlc, hheld⟩ := ((h.counts he).combinations _).mpr ⟨_, hm, rfl, rfl⟩
  refine ⟨e, he, lc, hlc, ?_⟩
  rw [(h.summed he hlc).1, hheld]
  exact mentionedOccurrences_sequence h.known e.key (h.known d hd)

theorem Loaded.copied {lines : List (List Char)} {input : Input} (h : Loaded lines input)
    (hsmall : ∀ key names, sequenceOccurrences lines key names < 2 ^ 64) :
    Copied lines (input.map UInt64.ofNat) := by
  have hlocks : ∀ e : Entry, (e.map UInt64.ofNat).member.combinations.map LockCombination.locksHeld =
      e.member.combinations.map LockCombination.locksHeld := fun e => List.map_map
  refine ⟨⟨h.nodup, h.known⟩, ?_, ?_, ?_, ?_⟩
  · rw [← h.keys]
    exact List.map_map
  · intro e' he'
    obtain ⟨e, he, rfl⟩ := List.mem_map.mp he'
    rw [hlocks]
    exact h.once he
  · intro e' he' held
    obtain ⟨e, he, rfl⟩ := List.mem_map.mp he'
    rw [← List.mem_map, hlocks, List.mem_map]
    exact (h.counts he).combinations held
  · intro e' he' lc' hlc'
    obtain ⟨e, he, rfl⟩ := List.mem_map.mp he'
    obtain ⟨lc, hlc, rfl⟩ := List.mem_map.mp hlc'
    obtain ⟨hsum, names, hnames⟩ := h.summed he hlc
    refine Eq.trans (toNat_ofNat ?_) hsum
    rw [hnames]
    exact hsmall e.key names

/-- The loop that copies the combinations of a file that the line loop accepts ends, with
every sequence copied once and with its sum, exactly if the file names fewer members than a
`myid_t` has values and no sequence of a member has more accesses than a `uint64_t` holds. -/
theorem copy_ends_iff (file : List Char) (input : Input UInt64)
    (hread : (dataLines file).foldlM readLine ⟨[], []⟩ = .ok input) :
    (∃ copied, Yields (fun n => load n file) copied ∧ Copied (dataLines file) copied) ↔
      (memberKeys (dataLines file)).length < 65536 ∧
        ∀ key names, sequenceOccurrences (dataLines file) key names < 2 ^ 64 := by
  obtain ⟨input, hread', rfl⟩ := readLines_uint64 hread
  have hr := readLines_ok hread' List.nodup_nil
  obtain ⟨hmem, -⟩ := addAll_ok hr.members
  have hlen : input.members.length = (memberKeys (dataLines file)).length := by
    rw [hmem, mentionsIn_keys, List.length_map]
  constructor
  · rintro ⟨copied, hy, hc⟩
    obtain ⟨copied, hy', rfl⟩ := load_uint64 hy
    have hl := loaded_of_yields hy'
    refine ⟨?_, fun key names => ?_⟩
    · have := hl.fewMembers
      rwa [← hl.keys, List.length_map]
    · by_contra hno
      obtain ⟨e, he, lc, hlc, hocc⟩ := @Loaded.listed _ _ hl key names (by omega)
      have hsum := hc.summed _ (List.mem_map_of_mem he) _ (List.mem_map_of_mem hlc)
      have hbound := UInt64.toNat_lt (lc.map UInt64.ofNat).occurrences
      rw [hsum] at hbound
      rw [← hocc, (hl.summed he hlc).1] at hno
      exact hno hbound
  · rintro ⟨hfew, hsmall⟩
    have hy := load_yields hread' (by omega)
    exact ⟨_, load_ofNat hy, (loaded_of_yields hy).copied hsmall⟩

theorem repetitive_copied : ∃ copied, Yields (fun n => load n repetitive) copied ∧
    Copied (dataLines repetitive) copied := by
  have hread : ∃ input : Input, (dataLines repetitive).foldlM readLine ⟨[], []⟩ = .ok input := ⟨_, rfl⟩
  obtain ⟨input, hread⟩ := hread
  refine (copy_ends_iff repetitive _ (readLines_ofNat hread)).mpr ⟨by decide +kernel, fun key names => ?_⟩
  refine Nat.lt_of_le_of_lt (sequenceOccurrences_le _ key names) ?_
  decide +kernel

/-- A member name for each number of 16 bits. -/
def bitName (i : Nat) : List Char := 'r' :: ':' :: (List.range 16).map (fun k => if i.testBit k then '1' else '0')

theorem bitName_inj {i j : Nat} (hi : i < 65536) (hj : j < 65536) (h : bitName i = bitName j) : i = j := by
  apply Nat.eq_of_testBit_eq
  intro k
  by_cases hk : k < 16
  · have hmap := (List.cons.inj (List.cons.inj h).2).2
    have hbit := congrArg (fun l => l[k]?) hmap
    simp only [List.getElem?_map, List.getElem?_range hk, Option.map_some, Option.some.injEq] at hbit
    by_cases hb : i.testBit k <;> by_cases hb' : j.testBit k <;> simp_all
  · have hbound : ∀ n, n < 65536 → n.testBit k = false := by
      intro n hn
      apply Nat.testBit_lt_two_pow
      calc n < 2 ^ 16 := hn
        _ ≤ 2 ^ k := Nat.pow_le_pow_right (by omega) (by omega)
    rw [hbound i hi, hbound j hj]

theorem mem_bitName {i : Nat} {c : Char} (h : c ∈ bitName i) : c = 'r' ∨ c = ':' ∨ c = '0' ∨ c = '1' := by
  rcases List.mem_cons.mp h with rfl | h
  · exact .inl rfl
  rcases List.mem_cons.mp h with rfl | h
  · exact .inr (.inl rfl)
  obtain ⟨k, -, rfl⟩ := List.mem_map.mp h
  by_cases hb : i.testBit k
  · simp [hb]
  · simp [hb]

/-- The names of 65536 members. -/
def bitNames : List (List Char) := (List.range 65536).map bitName

/-- A line of accesses to members of `inode` without locks. -/
def unlockedLine (names : List (List Char)) : List Char :=
  "inode".toList ++ '\t' :: ([','].intercalate names ++ '\t' :: '\t' :: ['1'])

/-- A file of one line that names 65536 members. -/
def crowded : List Char := unlockedLine bitNames

theorem not_mem_intercalate {c d : Char} {fields : List (List Char)} (hd : c ≠ d) (h : ∀ f ∈ fields, c ∉ f) :
    c ∉ [d].intercalate fields := by
  induction fields with
  | nil => simp [List.intercalate]
  | cons field fields ih =>
    have hrest := ih fun f hf => h f (List.mem_cons_of_mem _ hf)
    cases fields with
    | nil => simpa [List.intercalate] using h field
    | cons next fields =>
      have hcons : [d].intercalate (field :: next :: fields) = field ++ d :: [d].intercalate (next :: fields) := by
        simp [List.intercalate]
      rw [hcons, List.mem_append, List.mem_cons]
      rintro (hm | hm | hm)
      · exact h field List.mem_cons_self hm
      · exact hd hm
      · exact hrest hm

theorem dataLines_unlockedLine {names : List (List Char)} (h : ∀ f ∈ names, '\n' ∉ f) :
    dataLines (unlockedLine names) = [unlockedLine names] := by
  have hnl : '\n' ∉ unlockedLine names := by
    have := @not_mem_intercalate '\n' ',' names (by decide) h
    simp [unlockedLine, this]
  have hlast : (unlockedLine names).getLast? = some '1' := by
    have hend : unlockedLine names =
        ("inode".toList ++ '\t' :: ([','].intercalate names ++ '\t' :: ['\t'])) ++ ['1'] := by simp [unlockedLine]
    rw [hend, List.getLast?_concat]
  have hdata : isHeader (unlockedLine names) = false := by
    rw [isHeader, hlast]
    rfl
  simp [dataLines, getlines_last hnl (by simp [unlockedLine]), hdata]

theorem parseLine_unlockedLine {names : List (List Char)} (h : ∀ f ∈ names, '\t' ∉ f ∧ ',' ∉ f ∧ f ≠ []) :
    parseLine (unlockedLine names) = .ok (some ⟨"inode".toList, names, [], 1⟩) := by
  have hcols : getlines '\t' (unlockedLine names) = ["inode".toList, [','].intercalate names, [], ['1']] := by
    rw [unlockedLine, getlines_append (by decide),
      getlines_append (not_mem_intercalate (by decide) fun f hf => (h f hf).1)]
    rfl
  rw [parseLine, hcols]
  simp only [getlines_intercalate fun f hf => (h f hf).2]
  rfl

theorem not_mem_bitNames {c : Char} (hc : c ≠ 'r' ∧ c ≠ ':' ∧ c ≠ '0' ∧ c ≠ '1') : ∀ f ∈ bitNames, c ∉ f := by
  intro f hf hm
  obtain ⟨i, -, rfl⟩ := List.mem_map.mp hf
  rcases mem_bitName hm with h | h | h | h
  · exact hc.1 h
  · exact hc.2.1 h
  · exact hc.2.2.1 h
  · exact hc.2.2.2 h

theorem parseLine_crowded : parseLine crowded = .ok (some ⟨"inode".toList, bitNames, [], 1⟩) := by
  refine parseLine_unlockedLine fun f hf => ⟨not_mem_bitNames (by decide) f hf, not_mem_bitNames (by decide) f hf, ?_⟩
  obtain ⟨i, -, rfl⟩ := List.mem_map.mp hf
  simp [bitName]

theorem dataLines_crowded : dataLines crowded = [crowded] :=
  dataLines_unlockedLine (not_mem_bitNames (by decide))

theorem eraseDups_of_nodup {α : Type} [BEq α] [LawfulBEq α] {xs : List α} (h : xs.Nodup) : xs.eraseDups = xs := by
  classical
  induction xs using List.reverseRecOn with
  | nil => rfl
  | append_singleton xs x ih =>
    rw [← List.concat_eq_append, List.nodup_concat] at h
    rw [eraseDups_concat, if_neg h.1, ih h.2]

theorem memberKeys_crowded : (memberKeys [crowded]).length = 65536 := by
  have hnd : (bitNames.map (fun element => ("inode".toList, element))).Nodup := by
    refine List.Nodup.map (fun a b h => (Prod.mk.inj h).2) ?_
    refine List.Nodup.map_on ?_ List.nodup_range
    intro i hi j hj h
    exact bitName_inj (List.mem_range.mp hi) (List.mem_range.mp hj) h
  have hparsed : parsed [crowded] = [⟨"inode".toList, bitNames, [], 1⟩] := parsed_cons_some parseLine_crowded
  rw [memberKeys, hparsed, List.flatMap_singleton, eraseDups_of_nodup hnd, List.length_map, bitNames, List.length_map,
    List.length_range]

/-- The line loop accepts the file, and the copy loop starts again and again. -/
theorem crowded_never_copied :
    (∃ input : Input UInt64, (dataLines crowded).foldlM readLine ⟨[], []⟩ = .ok input) ∧
    (∀ n, load (κ := UInt64) n crowded = .error .outOfFuel) ∧
    ¬∃ copied, Yields (fun n => load n crowded) copied ∧ Copied (dataLines crowded) copied := by
  have hparse : ∀ line ∈ dataLines crowded, ∃ d, parseLine line = .ok d := by
    rw [dataLines_crowded]
    intro line hline
    rw [List.mem_singleton.mp hline]
    exact ⟨_, parseLine_crowded⟩
  have hparsed : parsed (dataLines crowded) = [⟨"inode".toList, bitNames, [], 1⟩] := by
    rw [dataLines_crowded, parsed_cons_some parseLine_crowded]
    rfl
  obtain ⟨input, hread⟩ := @readLines_total (dataLines crowded) [] (memberKeys [crowded]) hparse
    (by rw [hparsed]; simp) (by simp)
    (by
      rw [← dataLines_crowded, memberKeys]
      intro d hd element he
      rw [List.mem_eraseDups]
      exact List.mem_flatMap.mpr ⟨d, hd, List.mem_map_of_mem he⟩)
    (Nat.le_of_eq memberKeys_crowded)
  have hr := readLines_ok hread List.nodup_nil
  obtain ⟨hmem, -⟩ := addAll_ok hr.members
  have hlen : input.members.length = 65536 := by
    rw [hmem, mentionsIn_keys, List.length_map, dataLines_crowded, memberKeys_crowded]
  have hloop : ∀ n, load (κ := UInt64) n crowded = .error .outOfFuel := by
    intro n
    rw [keepsSums_ofNat.load n crowded, load, hread]
    show (copyCombinations n 0 input.members >>= fun members => Except.ok { input with members := members }).map _ = _
    rw [copyCombinations_diverges (Nat.le_of_eq hlen.symm) n 0 (by omega)]
    rfl
  refine ⟨⟨_, readLines_ofNat hread⟩, hloop, ?_⟩
  rintro ⟨copied, ⟨n, hn⟩, -⟩
  have hok : load n crowded = .ok copied := hn n (Nat.le_refl _)
  rw [hloop] at hok
  cases hok

end LockDoc.Hypothesizer
