import LockDoc.Hypothesizer.Input

/-!
# What reading the input leaves in memory

The lines of a file are a sequence of mentions of members, each with the ids of the locks
held and a number of accesses. Ids do not change once they are given, so the entry of a
member is the sum of its mentions under the final numbering of the locks. The loop that
copies the combinations ends unless there are as many members as its index has values.
-/
namespace LockDoc.Hypothesizer

open FallibleRun (bind_ok)
open Worklist

/-- One mention of a member in a line. -/
structure Mention where
  key : MemberKey
  locksHeld : List MyId
  occurrences : Nat
  deriving DecidableEq

/-- The held-lock sequence of a line in a numbering of the locks. -/
def DataLine.locksHeld (locks : List (List Char)) (line : DataLine) : List MyId :=
  line.locks.map (fun name => locks.idxOf name)

/-- The mentions in a line. -/
def DataLine.mentions (locks : List (List Char)) (line : DataLine) : List Mention :=
  line.members.map (fun element => ⟨(line.datatype, element), line.locksHeld locks, line.occurrences⟩)

/-- The numbering does not depend on locks that come later. -/
theorem DataLine.locksHeld_prefix {line : DataLine} {locks locks' : List (List Char)} (h : locks <+: locks')
    (hmem : ∀ name ∈ line.locks, name ∈ locks) : line.locksHeld locks' = line.locksHeld locks := by
  obtain ⟨more, rfl⟩ := h
  refine List.map_congr_left fun name hn => ?_
  exact List.idxOf_append_of_mem (hmem name hn)

theorem lockIdFor_ok {locks locks' : List (List Char)} {name : List Char} {id : MyId}
    (h : lockIdFor locks name = .ok (id, locks')) (hnd : locks.Nodup) :
    locks <+: locks' ∧ locks'.Nodup ∧ name ∈ locks' ∧ id = locks'.idxOf name ∧
      (∀ x ∈ locks', x ∈ locks ∨ x = name) ∧ (locks.length ≤ 65536 → locks'.length ≤ 65536) := by
  unfold lockIdFor at h
  split at h
  · rename_i hm
    cases h
    exact ⟨List.prefix_refl _, hnd, hm, rfl, fun x hx => .inl hx, id⟩
  · rename_i hm
    split at h
    · cases h
    · cases h
      refine ⟨List.prefix_append _ _, ?_, by simp, ?_, by simp, fun _ => by simp; omega⟩
      · rw [List.nodup_append]
        exact ⟨hnd, by simp, by
          rintro a ha b hb rfl
          rw [List.mem_singleton] at hb
          exact hm (hb ▸ ha)⟩
      · rw [List.idxOf_append_of_notMem hm]
        simp

theorem readLocks_ok {names locks locks' : List (List Char)} {ids : List MyId}
    (h : readLocks names locks = .ok (ids, locks')) (hnd : locks.Nodup) :
    locks <+: locks' ∧ locks'.Nodup ∧ (∀ name ∈ names, name ∈ locks') ∧
      ids = names.map (fun name => locks'.idxOf name) ∧ (∀ x ∈ locks', x ∈ locks ∨ x ∈ names) ∧
      (locks.length ≤ 65536 → locks'.length ≤ 65536) := by
  induction names generalizing locks ids with
  | nil =>
    cases h
    exact ⟨List.prefix_refl _, hnd, by simp, rfl, fun x hx => .inl hx, id⟩
  | cons name names ih =>
    obtain ⟨⟨id, locks₁⟩, h₁, h⟩ := bind_ok.mp h
    obtain ⟨⟨ids', locks₂⟩, h₂, h⟩ := bind_ok.mp h
    cases h
    obtain ⟨hp, hnd₁, hm, rfl, hx, hlen⟩ := lockIdFor_ok h₁ hnd
    obtain ⟨hp', hnd', hms, rfl, hx', hlen'⟩ := ih h₂ hnd₁
    refine ⟨hp.trans hp', hnd', ?_, ?_, ?_, fun hl => hlen' (hlen hl)⟩
    · intro x hmem
      rcases List.mem_cons.mp hmem with rfl | hmem
      · exact hp'.subset hm
      · exact hms x hmem
    · obtain ⟨more, rfl⟩ := hp'
      simp [List.idxOf_append_of_mem hm]
    · intro x hmem
      rcases hx' x hmem with hmem | hmem
      · rcases hx x hmem with hmem | rfl
        · exact .inl hmem
        · exact .inr List.mem_cons_self
      · exact .inr (List.mem_cons_of_mem _ hmem)

/-- The lines of the file that count. -/
def parsed (lines : List (List Char)) : List DataLine :=
  lines.filterMap (fun line => match parseLine line with
    | .ok (some d) => some d
    | _ => none)

/-- All mentions of a file in a numbering of the locks. -/
def mentionsIn (locks : List (List Char)) (lines : List (List Char)) : List Mention :=
  (parsed lines).flatMap (DataLine.mentions locks)

def addOne (members : List Entry) (m : Mention) : Except Stop (List Entry) :=
  addMention m.key.1 m.locksHeld m.occurrences members m.key.2

/-- What the line loop has done to the locks and the members. -/
structure ReadOk (lines : List (List Char)) (input input' : Input) : Prop where
  older : input.locks <+: input'.locks
  nodup : input'.locks.Nodup
  known : ∀ d ∈ parsed lines, ∀ name ∈ d.locks, name ∈ input'.locks
  source : ∀ name ∈ input'.locks, name ∈ input.locks ∨ ∃ d ∈ parsed lines, name ∈ d.locks
  few : input.locks.length ≤ 65536 → input'.locks.length ≤ 65536
  members : (mentionsIn input'.locks lines).foldlM addOne input.members = .ok input'.members
  parses : ∀ line ∈ lines, ∃ d, parseLine line = .ok d

theorem parsed_cons_some {line : List Char} {lines : List (List Char)} {d : DataLine}
    (h : parseLine line = .ok (some d)) : parsed (line :: lines) = d :: parsed lines := by
  simp [parsed, h]

theorem parsed_cons_none {line : List Char} {lines : List (List Char)} (h : parseLine line = .ok none) :
    parsed (line :: lines) = parsed lines := by
  simp [parsed, h]

theorem addLine_ok {input input' : Input} {d : DataLine} (h : addLine input d = .ok input') (hnd : input.locks.Nodup) :
    input.locks <+: input'.locks ∧ input'.locks.Nodup ∧ (∀ name ∈ d.locks, name ∈ input'.locks) ∧
      (∀ x ∈ input'.locks, x ∈ input.locks ∨ x ∈ d.locks) ∧
      (input.locks.length ≤ 65536 → input'.locks.length ≤ 65536) ∧
      (d.mentions input'.locks).foldlM addOne input.members = .ok input'.members := by
  obtain ⟨⟨ids, locks⟩, h₁, h⟩ := bind_ok.mp h
  obtain ⟨members, h₂, h⟩ := bind_ok.mp h
  cases h
  obtain ⟨hp, hnd', hm, rfl, hx, hlen⟩ := readLocks_ok h₁ hnd
  refine ⟨hp, hnd', hm, hx, hlen, ?_⟩
  rw [DataLine.mentions, List.foldlM_map]
  exact h₂

theorem readLines_ok {lines : List (List Char)} {input input' : Input} (h : lines.foldlM readLine input = .ok input')
    (hnd : input.locks.Nodup) : ReadOk lines input input' := by
  induction lines generalizing input with
  | nil =>
    cases h
    exact ⟨List.prefix_refl _, hnd, by simp [parsed], fun _ hx => .inl hx, id, rfl, by simp⟩
  | cons line lines ih =>
    rw [List.foldlM_cons] at h
    obtain ⟨input₁, h₁, h⟩ := bind_ok.mp h
    obtain ⟨d, hd, h₁⟩ := bind_ok.mp h₁
    cases d with
    | none =>
      cases h₁
      have hr := ih h hnd
      have hp := @parsed_cons_none line lines hd
      refine ⟨hr.older, hr.nodup, by rw [hp]; exact hr.known, by rw [hp]; exact hr.source, hr.few, ?_, ?_⟩
      · rw [mentionsIn, hp]
        exact hr.members
      · intro l hl
        rcases List.mem_cons.mp hl with rfl | hl
        · exact ⟨_, hd⟩
        · exact hr.parses l hl
    | some d =>
      obtain ⟨hpre, hnd₁, hknown, hsrc, hlen, hmem⟩ := addLine_ok h₁ hnd
      have hr := ih h hnd₁
      have hp := @parsed_cons_some line lines d hd
      refine ⟨hpre.trans hr.older, hr.nodup, ?_, ?_, fun hl => hr.few (hlen hl), ?_, ?_⟩
      · rw [hp]
        intro d' hd' name hname
        rcases List.mem_cons.mp hd' with rfl | hd'
        · exact hr.older.subset (hknown name hname)
        · exact hr.known d' hd' name hname
      · rw [hp]
        intro name hname
        rcases hr.source name hname with hname | ⟨d', hd', hname⟩
        · rcases hsrc name hname with hname | hname
          · exact .inl hname
          · exact .inr ⟨d, List.mem_cons_self, hname⟩
        · exact .inr ⟨d', List.mem_cons_of_mem _ hd', hname⟩
      · -- The ids of the line stay the same in the final numbering.
        have hids : d.mentions input'.locks = d.mentions input₁.locks := by
          rw [DataLine.mentions, DataLine.mentions, DataLine.locksHeld_prefix hr.older hknown]
        rw [mentionsIn, hp, List.flatMap_cons, List.foldlM_append, hids, hmem]
        exact hr.members
      · intro l hl
        rcases List.mem_cons.mp hl with rfl | hl
        · exact ⟨_, hd⟩
        · exact hr.parses l hl

theorem eraseDups_concat {α : Type} [BEq α] [LawfulBEq α] (xs : List α) (x : α) [Decidable (x ∈ xs)] :
    (xs ++ [x]).eraseDups = if x ∈ xs then xs.eraseDups else xs.eraseDups ++ [x] := by
  rw [List.eraseDups_append]
  by_cases hx : x ∈ xs
  · have hnone : [x].removeAll xs = [] := by simpa [List.removeAll] using hx
    rw [hnone, if_pos hx, List.eraseDups_nil, List.append_nil]
  · have hone : [x].removeAll xs = [x] := by simpa [List.removeAll] using hx
    rw [hone, if_neg hx, List.eraseDups_cons, List.filter_nil, List.eraseDups_nil]

theorem nodup_eraseDups {α : Type} [BEq α] [LawfulBEq α] (xs : List α) : xs.eraseDups.Nodup := by
  classical
  induction xs using List.reverseRecOn with
  | nil => simp
  | append_singleton xs x ih =>
    rw [eraseDups_concat]
    split
    · exact ih
    · rename_i hx
      refine List.nodup_append.mpr ⟨ih, by simp, ?_⟩
      rintro a ha b hb rfl
      rw [List.mem_singleton] at hb
      exact hx (hb ▸ List.mem_eraseDups.mp ha)

/-- The entry of a member after a sequence of mentions. -/
def entryOf (ms : List Mention) (key : MemberKey) : Entry :=
  (ms.filter (fun m => m.key = key)).foldl (fun e m => e.add m.locksHeld m.occurrences) (Entry.new key)

theorem entryOf_append (ms : List Mention) (m : Mention) (key : MemberKey) :
    entryOf (ms ++ [m]) key = if m.key = key then (entryOf ms key).add m.locksHeld m.occurrences else entryOf ms key := by
  by_cases h : m.key = key <;> simp [entryOf, h]

theorem entryOf_key (ms : List Mention) (key : MemberKey) : (entryOf ms key).key = key := by
  induction ms using List.reverseRecOn with
  | nil => rfl
  | append_singleton ms m ih =>
    rw [entryOf_append]
    split
    · exact ih
    · exact ih

theorem entryOf_unseen {ms : List Mention} {key : MemberKey} (h : key ∉ ms.map Mention.key) :
    entryOf ms key = Entry.new key := by
  have hnil : ms.filter (fun m => m.key = key) = [] := by
    rw [List.filter_eq_nil_iff]
    intro m hm
    simp only [decide_eq_true_eq]
    exact fun he => h (he ▸ List.mem_map_of_mem hm)
  rw [entryOf, hnil]
  rfl

theorem addOne_ok {members members' : List Entry} {m : Mention} (h : addOne members m = .ok members') :
    ∃ all, (all = members ∧ m.key ∈ members.map Entry.key ∨
        all = members ++ [Entry.new m.key] ∧ m.key ∉ members.map Entry.key ∧ members.length ≤ 65535) ∧
      members' = all.map (fun e => if e.key = m.key then e.add m.locksHeld m.occurrences else e) := by
  obtain ⟨all, hall, h⟩ := bind_ok.mp h
  cases h
  refine ⟨all, ?_, rfl⟩
  split at hall
  · rename_i hm
    cases hall
    exact .inl ⟨rfl, hm⟩
  · rename_i hm
    split at hall
    · cases hall
    · cases hall
      exact .inr ⟨rfl, hm, by omega⟩

/-- The members have one entry for each key, in the order of first appearance. -/
theorem addAll_ok {ms : List Mention} {members : List Entry} (h : ms.foldlM addOne [] = .ok members) :
    members = (ms.map Mention.key).eraseDups.map (entryOf ms) ∧ members.length ≤ 65536 := by
  induction ms using List.reverseRecOn generalizing members with
  | nil =>
    cases h
    exact ⟨rfl, by simp⟩
  | append_singleton ms m ih =>
    rw [List.foldlM_append] at h
    obtain ⟨before, hb, h⟩ := bind_ok.mp h
    simp only [List.foldlM_cons, List.foldlM_nil, bind_pure] at h
    obtain ⟨rfl, hlen⟩ := ih hb
    obtain ⟨all, hall, rfl⟩ := addOne_ok h
    have hkeys : ((ms.map Mention.key).eraseDups.map (entryOf ms)).map Entry.key = (ms.map Mention.key).eraseDups := by
      simp [Function.comp_def, entryOf_key]
    have hupd : ∀ key, (if (entryOf ms key).key = m.key then (entryOf ms key).add m.locksHeld m.occurrences
        else entryOf ms key) = entryOf (ms ++ [m]) key := by
      intro key
      rw [entryOf_append, entryOf_key]
      by_cases hk : key = m.key
      · simp [hk]
      · simp [hk, Ne.symm hk]
    rw [hkeys, List.mem_eraseDups] at hall
    rw [List.map_append, List.map_singleton, eraseDups_concat]
    rcases hall with ⟨rfl, hm⟩ | ⟨rfl, hm, hlt⟩
    · refine ⟨?_, by simpa using hlen⟩
      rw [if_pos hm, List.map_map]
      simp [hupd, Function.comp_def]
    · refine ⟨?_, by simpa using Nat.lt_succ_of_le hlt⟩
      rw [if_neg hm, List.map_append, List.map_map]
      simp [hupd, Function.comp_def, ← entryOf_unseen hm]

/-- Members are always found or made when there is room for all of them. -/
theorem addAll_total {ms : List Mention} {keys : List MemberKey} (hlen : keys.length ≤ 65536)
    (hkeys : ∀ m ∈ ms, m.key ∈ keys) : ∃ members, ms.foldlM addOne [] = .ok members := by
  induction ms using List.reverseRecOn with
  | nil => exact ⟨[], rfl⟩
  | append_singleton ms m ih =>
    obtain ⟨before, hb⟩ := ih fun x hx => hkeys x (List.mem_append_left _ hx)
    have hbk := (addAll_ok hb).1
    suffices ∃ members, addOne before m = .ok members by
      obtain ⟨members, hm⟩ := this
      refine ⟨members, ?_⟩
      rw [List.foldlM_append]
      refine bind_ok.mpr ⟨before, hb, ?_⟩
      simp only [List.foldlM_cons, List.foldlM_nil, bind_pure]
      exact hm
    unfold addOne addMention
    by_cases hm : m.key ∈ before.map Entry.key
    · have hm' : (m.key.1, m.key.2) ∈ before.map Entry.key := hm
      simp [hm', bind, Except.bind]
    · -- The new key and the keys so far are distinct and among the given ones.
      have hroom : before.length < keys.length := by
        have hkb : before.map Entry.key = (ms.map Mention.key).eraseDups := by
          rw [hbk]
          simp [Function.comp_def, entryOf_key]
        have hnd : (m.key :: before.map Entry.key).Nodup := by
          refine List.nodup_cons.mpr ⟨hm, ?_⟩
          rw [hkb]
          exact nodup_eraseDups (ms.map Mention.key)
        have hsub : m.key :: before.map Entry.key ⊆ keys := by
          intro k hk
          rcases List.mem_cons.mp hk with rfl | hk
          · exact hkeys m (by simp)
          · rw [hkb, List.mem_eraseDups] at hk
            obtain ⟨x, hx, rfl⟩ := List.mem_map.mp hk
            exact hkeys x (List.mem_append_left _ hx)
        have := (hnd.subperm hsub).length_le
        simp only [List.length_cons, List.length_map] at this
        omega
      have hm' : (m.key.1, m.key.2) ∉ before.map Entry.key := hm
      have hlt : ¬65535 < before.length := by omega
      simp [hm', hlt, bind, Except.bind]

/-- Fewer members than the index has values are copied one by one. -/
theorem copyCombinations_yields {members : List Entry} (h : members.length < 65536) :
    Yields (fun n => copyCombinations n 0 members) (members.map Entry.copy) := by
  have main : ∀ rest done n, members = done ++ rest → rest.length ≤ n →
      copyCombinations n done.length (done.map Entry.copy ++ rest) = .ok (members.map Entry.copy) := by
    intro rest
    induction rest with
    | nil =>
      intro done n hm _
      rw [List.append_nil] at hm
      cases n <;> simp [copyCombinations, hm]
    | cons e rest ih =>
      intro done n hm hn
      obtain ⟨n, rfl⟩ : ∃ k, n = k + 1 := ⟨n - 1, by simp at hn; omega⟩
      have hlen : done.length + 1 + rest.length = members.length := by simp [hm]; omega
      have hmod : (done.length + 1) % 2 ^ 16 = done.length + 1 := Nat.mod_eq_of_lt (by omega)
      have hstep : (done.map Entry.copy ++ e :: rest).modify done.length Entry.copy =
          (done ++ [e]).map Entry.copy ++ rest := by
        have hdrop : (done.map Entry.copy ++ e :: rest).drop (done.length + 1) = rest := by
          rw [← List.drop_drop]
          simp
        rw [List.modify_eq_take_cons_drop (by simp), hdrop]
        simp
      rw [copyCombinations, if_pos (by simp), hmod, hstep]
      have := ih (done ++ [e]) n (by simp [hm]) (by simpa using hn)
      rwa [List.length_append, List.length_singleton] at this
  exact ⟨members.length, fun n hn => main members [] n rfl hn⟩

/-- With as many members as the index has values, the index never leaves them. -/
theorem copyCombinations_diverges {members : List Entry} (h : 65536 ≤ members.length) (n : Nat) :
    ∀ i, i < 65536 → copyCombinations n i members = .error .outOfFuel := by
  induction n generalizing members with
  | zero =>
    intro i hi
    rw [copyCombinations, if_pos (by omega)]
  | succ n ih =>
    intro i hi
    rw [copyCombinations, if_pos (by omega)]
    exact ih (by simpa using h) _ (Nat.mod_lt _ (by omega))

theorem copyCombinations_stable {κ : Type} (members : List (Entry κ)) (i : Nat) :
    Stable (fun n => copyCombinations n i members) := by
  intro n
  induction n generalizing i members with
  | zero =>
    intro all h
    simp only [copyCombinations] at h ⊢
    split at h
    · cases h
    · rename_i hi
      rwa [if_neg hi]
  | succ n ih =>
    intro all h
    simp only [copyCombinations.eq_def (n + 1), copyCombinations.eq_def (n + 1 + 1)] at h ⊢
    split at h
    · rename_i hi
      rw [if_pos hi]
      exact ih _ _ all h
    · rename_i hi
      rwa [if_neg hi]

theorem load_stable {κ : Type} [OfNat κ 0] [Add κ] [NatCast κ] (file : List Char) :
    Stable (fun n => load (κ := κ) n file) :=
  (Stable.const _).bind fun _ => (copyCombinations_stable _ 0).bind fun _ => .const _

theorem load_yields {file : List Char} {input : Input} (h : (dataLines file).foldlM readLine ⟨[], []⟩ = .ok input)
    (hlen : input.members.length < 65536) :
    Yields (fun n => load n file) { input with members := input.members.map Entry.copy } := by
  refine ((copyCombinations_yields hlen).bind
    (g := fun members _ => .ok { input with members := members }) (.const _)).congr fun n => ?_
  rw [load, h]
  rfl

/-- The input of a run that got through: every line parses, the locks are numbered without
repetition, and every member is the sum of its mentions. -/
structure Loaded (lines : List (List Char)) (input : Input) : Prop where
  nodup : input.locks.Nodup
  known : ∀ d ∈ parsed lines, ∀ name ∈ d.locks, name ∈ input.locks
  source : ∀ name ∈ input.locks, ∃ d ∈ parsed lines, name ∈ d.locks
  fewLocks : input.locks.length ≤ 65536
  parses : ∀ line ∈ lines, ∃ d, parseLine line = .ok d
  members : input.members =
    ((mentionsIn input.locks lines).map Mention.key).eraseDups.map
      (fun key => (entryOf (mentionsIn input.locks lines) key).copy)
  fewMembers : input.members.length < 65536

theorem loaded_of_yields {file : List Char} {input : Input} (h : Yields (fun n => load n file) input) :
    Loaded (dataLines file) input := by
  obtain ⟨n₀, hn⟩ := h
  obtain ⟨input₀, h₀, -⟩ := bind_ok.mp (hn n₀ (Nat.le_refl _))
  have hr := readLines_ok h₀ List.nodup_nil
  obtain ⟨hmem, hlen⟩ := addAll_ok hr.members
  by_cases hlt : input₀.members.length < 65536
  · have hi : input = { input₀ with members := input₀.members.map Entry.copy } :=
      Yields.unique ⟨n₀, hn⟩ (load_yields h₀ hlt)
    subst hi
    refine ⟨hr.nodup, hr.known, ?_, hr.few (by simp), hr.parses, ?_, by simpa using hlt⟩
    · intro name hname
      rcases hr.source name hname with hnil | hd
      · simp at hnil
      · exact hd
    · simp only
      rw [hmem, List.map_map]
      rfl
  · exfalso
    have hout : load n₀ file = .ok input := hn n₀ (Nat.le_refl _)
    obtain ⟨input₁, h₁, hout⟩ := bind_ok.mp hout
    cases h₀.symm.trans h₁
    rw [copyCombinations_diverges (by omega : 65536 ≤ input₀.members.length) n₀ 0 (by omega)] at hout
    cases hout

/-- Locks are always found or made when there is room for all of them. -/
theorem readLocks_total {names locks all : List (List Char)} (hnd : locks.Nodup) (hsub : ∀ x ∈ locks, x ∈ all)
    (hall : ∀ name ∈ names, name ∈ all) (hlen : all.length ≤ 65536) : ∃ r, readLocks names locks = .ok r := by
  induction names generalizing locks with
  | nil => exact ⟨_, rfl⟩
  | cons name names ih =>
    have hone : ∃ r, lockIdFor locks name = .ok r := by
      unfold lockIdFor
      by_cases hm : name ∈ locks
      · exact ⟨_, if_pos hm⟩
      · -- The new lock and the locks so far are distinct and among the given ones.
        have hcons : name :: locks ⊆ all := List.cons_subset.mpr ⟨hall name List.mem_cons_self, hsub⟩
        have hroom := ((List.nodup_cons.mpr ⟨hm, hnd⟩).subperm hcons).length_le
        rw [List.length_cons] at hroom
        exact ⟨_, by rw [if_neg hm, if_neg (by omega)]⟩
    obtain ⟨⟨id, locks'⟩, h⟩ := hone
    obtain ⟨-, hnd', -, -, hsrc, -⟩ := lockIdFor_ok h hnd
    have hsub' : ∀ x ∈ locks', x ∈ all := by
      intro x hx
      rcases hsrc x hx with hx | rfl
      · exact hsub x hx
      · exact hall x List.mem_cons_self
    obtain ⟨⟨ids, locks''⟩, h'⟩ := ih hnd' hsub' fun x hx => hall x (List.mem_cons_of_mem _ hx)
    exact ⟨_, bind_ok.mpr ⟨_, h, bind_ok.mpr ⟨_, h', rfl⟩⟩⟩

theorem parsed_append (lines lines' : List (List Char)) : parsed (lines ++ lines') = parsed lines ++ parsed lines' := by
  simp [parsed]

/-- The mentions of lines whose locks are known do not depend on later locks. -/
theorem mentionsIn_prefix {lines locks locks' : List (List Char)} (h : locks <+: locks')
    (hknown : ∀ d ∈ parsed lines, ∀ name ∈ d.locks, name ∈ locks) : mentionsIn locks' lines = mentionsIn locks lines := by
  unfold mentionsIn
  refine List.flatMap_congr fun d hd => ?_
  rw [DataLine.mentions, DataLine.mentions, DataLine.locksHeld_prefix h (hknown d hd)]

/-- The line loop gets through when every line parses and there is room for all locks and
all members. -/
theorem readLines_total {lines : List (List Char)} {all : List (List Char)} {keys : List MemberKey}
    (hparse : ∀ line ∈ lines, ∃ d, parseLine line = .ok d) (hall : ∀ d ∈ parsed lines, ∀ name ∈ d.locks, name ∈ all)
    (hlocks : all.length ≤ 65536) (hkeys : ∀ d ∈ parsed lines, ∀ element ∈ d.members, (d.datatype, element) ∈ keys)
    (hmembers : keys.length ≤ 65536) : ∃ input, lines.foldlM readLine ⟨[], []⟩ = .ok input := by
  induction lines using List.reverseRecOn with
  | nil => exact ⟨_, rfl⟩
  | append_singleton lines line ih =>
    rw [parsed_append] at hall hkeys
    obtain ⟨input, hread⟩ := ih (fun l hl => hparse l (List.mem_append_left _ hl))
      (fun d hd => hall d (List.mem_append_left _ hd)) (fun d hd => hkeys d (List.mem_append_left _ hd))
    have hr := readLines_ok hread List.nodup_nil
    suffices ∃ input', readLine input line = .ok input' by
      obtain ⟨input', h⟩ := this
      refine ⟨input', ?_⟩
      rw [List.foldlM_append]
      refine bind_ok.mpr ⟨input, hread, ?_⟩
      rw [List.foldlM_cons, h]
      rfl
    obtain ⟨d, hd⟩ := hparse line (by simp)
    cases d with
    | none => exact ⟨input, bind_ok.mpr ⟨none, hd, rfl⟩⟩
    | some d =>
      have hmem : d ∈ parsed lines ++ parsed [line] :=
        List.mem_append_right _ (by rw [parsed_cons_some hd]; exact List.mem_cons_self)
      have hsub : ∀ x ∈ input.locks, x ∈ all := by
        intro x hx
        rcases hr.source x hx with hnil | ⟨d', hd', hx⟩
        · simp at hnil
        · exact hall d' (List.mem_append_left _ hd') x hx
      obtain ⟨⟨ids, locks⟩, hl⟩ := @readLocks_total d.locks input.locks all hr.nodup hsub (hall d hmem) hlocks
      obtain ⟨hpre, -, -, rfl, -, -⟩ := readLocks_ok hl hr.nodup
      -- All mentions up to this line go through, so those of this line do.
      obtain ⟨members, hm⟩ := @addAll_total (mentionsIn locks lines ++ d.mentions locks) keys hmembers
        (by
          intro m hm
          rcases List.mem_append.mp hm with hm | hm
          · obtain ⟨d', hd', hm⟩ := List.mem_flatMap.mp hm
            obtain ⟨element, he, rfl⟩ := List.mem_map.mp hm
            exact hkeys d' (List.mem_append_left _ hd') element he
          · obtain ⟨element, he, rfl⟩ := List.mem_map.mp hm
            exact hkeys d hmem element he)
      rw [List.foldlM_append, mentionsIn_prefix hpre hr.known, hr.members] at hm
      have hm' : d.members.foldlM (addMention d.datatype (d.locksHeld locks) d.occurrences) input.members =
          .ok members := by
        have : (d.mentions locks).foldlM addOne input.members = .ok members := hm
        rwa [DataLine.mentions, List.foldlM_map] at this
      exact ⟨⟨locks, members⟩, bind_ok.mpr ⟨some d, hd, bind_ok.mpr ⟨_, hl, bind_ok.mpr ⟨members, hm', rfl⟩⟩⟩⟩

theorem mem_mentionsIn_key {locks lines : List (List Char)} {key : MemberKey} :
    (∃ m ∈ mentionsIn locks lines, m.key = key) ↔
      ∃ d ∈ parsed lines, d.datatype = key.1 ∧ key.2 ∈ d.members := by
  constructor
  · rintro ⟨m, hm, rfl⟩
    obtain ⟨d, hd, hm⟩ := List.mem_flatMap.mp hm
    obtain ⟨element, he, rfl⟩ := List.mem_map.mp hm
    exact ⟨d, hd, rfl, he⟩
  · rintro ⟨d, hd, hk, he⟩
    exact ⟨_, List.mem_flatMap.mpr ⟨d, hd, List.mem_map_of_mem he⟩, Prod.ext hk rfl⟩

end LockDoc.Hypothesizer
