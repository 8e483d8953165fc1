import LockDoc.Hypothesizer.Load

/-!
# Counters of 64 bits

The counters of the source are `uint64_t`. Reading the input and looking for hypotheses add
counters up and do nothing else with them, so both commute with a map between two types of
counters that keeps sums. What the source counts is therefore what is counted in natural
numbers, modulo 2^64.
-/
namespace LockDoc.Hypothesizer

open FallibleRun (bind_ok)
open Worklist

/-- What `stoull` has read fits; the cast is the one to `uint64_t`. -/
instance natCastUInt64 : NatCast UInt64 := ⟨UInt64.ofNat⟩

section

variable {κ ν : Type}

def LockCombination.map (φ : κ → ν) (lc : LockCombination κ) : LockCombination ν := ⟨φ lc.occurrences, lc.locksHeld⟩

def LockingHypothesisMatches.map (φ : κ → ν) (m : LockingHypothesisMatches κ) : LockingHypothesisMatches ν where
  occurrences := φ m.occurrences
  sortedHypothesis := m.sortedHypothesis
  orderMatches := m.orderMatches.map fun _ => φ

def Member.map (φ : κ → ν) (member : Member κ) : Member ν :=
  { member with
    occurrences := φ member.occurrences
    occurrencesWithLocks := φ member.occurrencesWithLocks
    combinations := member.combinations.map (LockCombination.map φ)
    hypotheses := member.hypotheses.map fun _ => LockingHypothesisMatches.map φ }

def Entry.map (φ : κ → ν) (entry : Entry κ) : Entry ν where
  key := entry.key
  member := entry.member.map φ
  combinations := entry.combinations.map fun _ => φ

def Input.map (φ : κ → ν) (input : Input κ) : Input ν := ⟨input.locks, input.members.map (Entry.map φ)⟩

@[simp] theorem LockCombination.containsLocks_map (φ : κ → ν) (lc : LockCombination κ) (l : List MyId) :
    (lc.map φ).containsLocks l = lc.containsLocks l := rfl

@[simp] theorem LockCombination.lockOrder_map (φ : κ → ν) (lc : LockCombination κ) (l : List MyId) :
    (lc.map φ).lockOrder l = lc.lockOrder l := rfl

theorem Member.map_id (member : Member κ) : member.map id = member := by
  have hid : ∀ {β : Type} (t : Std.ExtTreeMap (List MyId) β), t.map (fun _ => id) = t := fun t => t.map_id
  have hc : LockCombination.map (id : κ → κ) = id := rfl
  have hm : LockingHypothesisMatches.map (id : κ → κ) = id := by
    funext m
    rw [LockingHypothesisMatches.map, hid]
    rfl
  rw [Member.map, hc, hm, hid, List.map_id]
  rfl

theorem Member.getElem?_map {φ : κ → ν} {member : Member κ} {h : List MyId} {y : LockingHypothesisMatches ν} :
    (member.map φ).hypotheses[h]? = some y ↔ ∃ x, member.hypotheses[h]? = some x ∧ x.map φ = y := by
  rw [Member.map, Std.ExtTreeMap.getElem?_map, Option.map_eq_some_iff]

theorem Member.map_map {ξ : Type} (φ : κ → ν) (χ : ν → ξ) (member : Member κ) :
    (member.map φ).map χ = member.map (χ ∘ φ) := by
  have hm : LockingHypothesisMatches.map χ ∘ LockingHypothesisMatches.map φ = LockingHypothesisMatches.map (χ ∘ φ) := by
    funext m
    simp [LockingHypothesisMatches.map, Function.comp_def]
  simp only [Member.map, List.map_map, Std.ExtTreeMap.map_map, ← hm]
  rfl

theorem addHypothesisToGraph_map (φ : κ → ν) (n : Nat) (member : Member κ) (h : List MyId) :
    addHypothesisToGraph n (member.map φ) h = (addHypothesisToGraph n member h).map (Member.map φ) := by
  unfold addHypothesisToGraph
  split
  · rfl
  · rw [map_bind]
    rfl

theorem Entry.copy_map (φ : κ → ν) (e : Entry κ) : (e.map φ).copy = e.copy.map φ := by
  simp [Entry.copy, Entry.map, Member.map, LockCombination.map, Function.comp_def]

theorem copyCombinations_map (φ : κ → ν) (n i : Nat) (members : List (Entry κ)) :
    copyCombinations n i (members.map (Entry.map φ)) =
      (copyCombinations n i members).map (List.map (Entry.map φ)) := by
  have hmodify : (members.map (Entry.map φ)).modify i Entry.copy = (members.modify i Entry.copy).map (Entry.map φ) := by
    apply List.ext_getElem?
    intro k
    rw [List.getElem?_modify, List.getElem?_map, List.getElem?_map, List.getElem?_modify]
    cases members[k]? with
    | none => rfl
    | some e =>
      by_cases hk : i = k
      · simp [hk, Entry.copy_map]
      · simp [hk]
  cases n with
  | zero =>
    unfold copyCombinations
    rw [List.length_map]
    split <;> rfl
  | succ n =>
    unfold copyCombinations
    rw [List.length_map, hmodify]
    split
    · exact copyCombinations_map φ n _ _
    · rfl

end

/-- A map between types of counters that keeps what the source computes with counters. -/
structure KeepsSums {κ ν : Type} [OfNat κ 0] [Add κ] [NatCast κ] [OfNat ν 0] [Add ν] [NatCast ν] (φ : κ → ν) :
    Prop where
  zero : φ 0 = 0
  add : ∀ a b, φ (a + b) = φ a + φ b
  cast : ∀ n : Nat, φ n = n

theorem keepsSums_ofNat : KeepsSums UInt64.ofNat := ⟨rfl, UInt64.ofNat_add, fun _ => rfl⟩

namespace KeepsSums

variable {κ ν : Type} [OfNat κ 0] [Add κ] [NatCast κ] [OfNat ν 0] [Add ν] [NatCast ν] {φ : κ → ν} (hφ : KeepsSums φ)

include hφ

theorem matches_add (h : List MyId) (m : LockingHypothesisMatches κ) (lc : LockCombination κ) :
    (m.map φ).add h (lc.map φ) = (m.add h lc).map φ := by
  unfold LockingHypothesisMatches.add
  rw [LockCombination.containsLocks_map]
  split
  · simp only [LockingHypothesisMatches.map, LockCombination.map, OrdMap.map_insert, hφ.add]
    rw [← hφ.zero, OrdMap.getD_map]
    rfl
  · rfl

theorem matches_empty : (∅ : LockingHypothesisMatches κ).map φ = ∅ := by
  have hz := hφ.zero
  simp only [LockingHypothesisMatches.map, LockingHypothesisMatches.occurrences_empty,
    LockingHypothesisMatches.orderMatches_empty, hz]
  rfl

/-- The counts of a hypothesis. -/
theorem evaluation (cs : List (LockCombination κ)) (h : List MyId) :
    Hypothesizer.evaluation (cs.map (LockCombination.map φ)) h = (Hypothesizer.evaluation cs h).map φ := by
  induction cs using List.reverseRecOn with
  | nil => exact hφ.matches_empty.symm
  | append_singleton cs lc ih =>
    rw [List.map_append, List.map_singleton]
    unfold Hypothesizer.evaluation at ih ⊢
    rw [List.foldl_append, List.foldl_append, ih]
    exact hφ.matches_add h _ lc

theorem evaluateHypothesis (n : Nat) (member : Member κ) (h : List MyId) :
    Hypothesizer.evaluateHypothesis n (member.map φ) h =
      (Hypothesizer.evaluateHypothesis n member h).map (Member.map φ) := by
  have hcontains : (member.map φ).hypotheses.contains h = member.hypotheses.contains h := Std.ExtTreeMap.contains_map
  unfold Hypothesizer.evaluateHypothesis
  rw [hcontains]
  split
  · rfl
  · rw [← addHypothesisToGraph_map]
    congr 1
    simp only [Member.map, OrdMap.map_insert, hφ.evaluation]

theorem findHypothesesRek (n : Nat) (locks cur : List MyId) (depth : Nat) (member : Member κ) :
    Hypothesizer.findHypothesesRek n locks cur depth (member.map φ) =
      (Hypothesizer.findHypothesesRek n locks cur depth member).map (Member.map φ) := by
  induction locks generalizing cur depth member with
  | nil =>
    cases depth with
    | zero => exact hφ.evaluateHypothesis n member cur
    | succ depth => rfl
  | cons lock locks ih =>
    cases depth with
    | zero => exact hφ.evaluateHypothesis n member cur
    | succ depth =>
      have hfirst : (if lock ∈ cur then .ok (member.map φ)
          else Hypothesizer.findHypothesesRek n locks (cur ++ [lock]) depth (member.map φ)) =
          (if lock ∈ cur then .ok member
            else Hypothesizer.findHypothesesRek n locks (cur ++ [lock]) depth member).map (Member.map φ) := by
        split
        · rfl
        · exact ih _ _ member
      rw [Hypothesizer.findHypothesesRek, Hypothesizer.findHypothesesRek, hfirst, bind_map, map_bind]
      congr 1
      funext found
      exact ih cur (depth + 1) found

theorem findAtDepth (n : Nat) (member : Member κ) (depth : Nat) :
    Hypothesizer.findAtDepth n (member.map φ) depth =
      (Hypothesizer.findAtDepth n member depth).map (Member.map φ) :=
  foldlM_map (fun lc _ member => hφ.findHypothesesRek n lc.locksHeldSorted [] depth member) member

theorem findFrom (n maxHypoLen rounds depth : Nat) (member : Member κ) :
    Hypothesizer.findFrom n maxHypoLen rounds depth (member.map φ) =
      (Hypothesizer.findFrom n maxHypoLen rounds depth member).map (Member.map φ) := by
  induction rounds generalizing depth member with
  | zero => rfl
  | succ rounds ih =>
    have hsize : ∀ m : Member κ, (m.map φ).hypotheses.size = m.hypotheses.size := fun m => Std.ExtTreeMap.size_map
    simp only [Hypothesizer.findFrom, hφ.findAtDepth, bind_map, map_bind, hsize]
    congr 1
    funext found
    split
    · rfl
    · exact ih (depth + 1) found

theorem findHypotheses (n maxHypoLen : Nat) (member : Member κ) :
    Hypothesizer.findHypotheses n (member.map φ) maxHypoLen =
      (Hypothesizer.findHypotheses n member maxHypoLen).map (Member.map φ) :=
  hφ.findFrom n maxHypoLen n 0 member

theorem entry_new (key : MemberKey) : Entry.new (κ := ν) key = (Entry.new key).map φ := by
  simp only [Entry.new, Entry.map, Member.new, Member.map, hφ.zero]
  rfl

theorem entry_add (e : Entry κ) (locksHeld : List MyId) (occurrences : κ) :
    (e.map φ).add locksHeld (φ occurrences) = (e.add locksHeld occurrences).map φ := by
  have hlocks : φ (if 0 < locksHeld.length then occurrences else 0) =
      if 0 < locksHeld.length then φ occurrences else 0 := by
    split
    · rfl
    · exact hφ.zero
  have hcount := OrdMap.getD_map e.combinations locksHeld 0 φ
  rw [hφ.zero] at hcount
  simp only [Entry.add, Entry.map, Member.map, OrdMap.map_insert, hφ.add, hlocks, hcount]

theorem addMention (datatype : List Char) (locksHeld : List MyId) (occurrences : κ) (members : List (Entry κ))
    (inputElement : List Char) :
    Hypothesizer.addMention datatype locksHeld (φ occurrences) (members.map (Entry.map φ)) inputElement =
      (Hypothesizer.addMention datatype locksHeld occurrences members inputElement).map (List.map (Entry.map φ)) := by
  have hkeys : (members.map (Entry.map φ)).map Entry.key = members.map Entry.key := List.map_map
  unfold Hypothesizer.addMention
  have hfirst : (if (datatype, inputElement) ∈ members.map Entry.key then .ok (members.map (Entry.map φ))
      else if 65535 < members.length then .error .tooManyMembers
      else .ok (members.map (Entry.map φ) ++ [(Entry.new (datatype, inputElement)).map φ])) =
      (if (datatype, inputElement) ∈ members.map Entry.key then .ok members
        else if 65535 < members.length then .error .tooManyMembers
        else .ok (members ++ [Entry.new (datatype, inputElement)]) : Except Stop _).map (List.map (Entry.map φ)) := by
    split
    · rfl
    · split
      · rfl
      · rw [Except.map, List.map_append, List.map_singleton]
  rw [hkeys, List.length_map, map_bind, hφ.entry_new, hfirst, bind_map]
  congr 1
  funext all
  simp only [Except.map, List.map_map, Except.ok.injEq]
  apply List.map_congr_left
  intro e _
  simp only [Function.comp_apply]
  rw [apply_ite (Entry.map φ), ← hφ.entry_add]
  rfl

theorem addLine (input : Input κ) (line : DataLine) :
    Hypothesizer.addLine (input.map φ) line = (Hypothesizer.addLine input line).map (Input.map φ) := by
  unfold Hypothesizer.addLine
  rw [map_bind]
  congr 1
  funext ⟨locksHeld, locks⟩
  have hfold := @foldlM_map _ _ _ _ _ _ _ (List.map (Entry.map φ)) id line.members
    (fun element _ members => hφ.addMention line.datatype locksHeld line.occurrences members element) input.members
  rw [List.map_id, hφ.cast] at hfold
  simp only [Input.map, hfold, bind_map, map_bind]
  rfl

theorem readLine (input : Input κ) (inputLine : List Char) :
    Hypothesizer.readLine (input.map φ) inputLine = (Hypothesizer.readLine input inputLine).map (Input.map φ) := by
  unfold Hypothesizer.readLine
  rw [map_bind]
  congr 1
  funext line
  cases line with
  | none => rfl
  | some line => exact hφ.addLine input line

theorem readLines (lines : List (List Char)) (input : Input κ) :
    lines.foldlM Hypothesizer.readLine (input.map φ) =
      (lines.foldlM Hypothesizer.readLine input).map (Input.map φ) := by
  have hfold := @foldlM_map _ _ _ _ _ _ _ _ id lines (fun line _ input => hφ.readLine input line) input
  rwa [List.map_id] at hfold

/-- Reading the input. -/
theorem load (n : Nat) (file : List Char) :
    Hypothesizer.load n file = (Hypothesizer.load n file).map (Input.map φ) := by
  have hread := hφ.readLines (dataLines file) ⟨[], []⟩
  have hempty : (⟨[], []⟩ : Input ν) = (⟨[], []⟩ : Input κ).map φ := rfl
  unfold Hypothesizer.load
  rw [map_bind, hempty, hread, bind_map]
  congr 1
  funext input
  rw [map_bind, Input.map, copyCombinations_map, bind_map]
  rfl

end KeepsSums

theorem toNat_ofNat {n : Nat} (h : n < 2 ^ 64) : (UInt64.ofNat n).toNat = n := by
  rw [UInt64.toNat_ofNat', Nat.mod_eq_of_lt h]

theorem ofNat_lt_ofNat {m n : Nat} (hm : m < 2 ^ 64) (hn : n < 2 ^ 64) :
    UInt64.ofNat m < UInt64.ofNat n ↔ m < n := by
  rw [UInt64.lt_iff_toNat_lt, toNat_ofNat hm, toNat_ofNat hn]

theorem ofNat_le_ofNat {m n : Nat} (hm : m < 2 ^ 64) (hn : n < 2 ^ 64) :
    UInt64.ofNat m ≤ UInt64.ofNat n ↔ m ≤ n := by
  rw [UInt64.le_iff_toNat_le, toNat_ofNat hm, toNat_ofNat hn]

theorem LockingHypothesisMatches.getD_ofNat (x : LockingHypothesisMatches) (v : List MyId) :
    (x.map UInt64.ofNat).orderMatches.getD v 0 = UInt64.ofNat (x.orderMatches.getD v 0) :=
  OrdMap.getD_map x.orderMatches v 0 UInt64.ofNat

/-- Every member with counters of 64 bits comes from one with natural numbers. -/
theorem Member.ofNat_toNat (member : Member UInt64) : (member.map UInt64.toNat).map UInt64.ofNat = member := by
  have hid : UInt64.ofNat ∘ UInt64.toNat = id := funext fun n => UInt64.ofNat_toNat
  rw [Member.map_map, hid, Member.map_id]

theorem readLines_ofNat {lines : List (List Char)} {input : Input} (h : lines.foldlM readLine ⟨[], []⟩ = .ok input) :
    lines.foldlM readLine (⟨[], []⟩ : Input UInt64) = .ok (input.map UInt64.ofNat) :=
  (keepsSums_ofNat.readLines lines ⟨[], []⟩).trans (congrArg (Except.map (Input.map UInt64.ofNat)) h)

/-- The lines are read with counters of 64 bits as with natural numbers. -/
theorem readLines_uint64 {lines : List (List Char)} {input : Input UInt64}
    (h : lines.foldlM readLine ⟨[], []⟩ = .ok input) :
    ∃ input' : Input, lines.foldlM readLine ⟨[], []⟩ = .ok input' ∧ input'.map UInt64.ofNat = input := by
  have hmap := (keepsSums_ofNat.readLines lines ⟨[], []⟩).symm.trans h
  cases hread : lines.foldlM readLine (⟨[], []⟩ : Input) with
  | error e =>
    rw [hread] at hmap
    cases hmap
  | ok input' =>
    rw [hread] at hmap
    exact ⟨input', rfl, Except.ok.inj hmap⟩

theorem load_ofNat {file : List Char} {input : Input} (h : Yields (fun n => load n file) input) :
    Yields (fun n => load n file) (input.map UInt64.ofNat) :=
  (h.map (Input.map UInt64.ofNat)).congr fun n => keepsSums_ofNat.load n file

/-- What is read with counters of 64 bits is what is read with natural numbers, wrapped around. -/
theorem load_uint64 {file : List Char} {input : Input UInt64} (h : Yields (fun n => load n file) input) :
    ∃ input' : Input, Yields (fun n => load n file) input' ∧ input'.map UInt64.ofNat = input :=
  (h.congr fun n => (keepsSums_ofNat.load n file).symm).of_map (load_stable file)

theorem findHypotheses_ofNat {member found : Member} {maxHypoLen : Nat}
    (h : Yields (fun n => findHypotheses n member maxHypoLen) found) :
    Yields (fun n => findHypotheses n (member.map UInt64.ofNat) maxHypoLen) (found.map UInt64.ofNat) :=
  (h.map (Member.map UInt64.ofNat)).congr fun n => keepsSums_ofNat.findHypotheses n maxHypoLen member

end LockDoc.Hypothesizer
