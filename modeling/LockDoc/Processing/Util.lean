import LockDoc.Lib.Dict
import LockDoc.Hypothesizer.Input
import LockDoc.Processing.Csv

/-!
# `readHypothesesDict`

The scripts read the report of the hypothesizer into one dictionary: for every type, member and
access type the lock orders with their numbers and the conflict list. The reading of floating
point numbers is a parameter.
-/
namespace LockDoc.Processing

open LockDoc.Hypothesizer (isspace)

/-- The blanks around a number are passed over. -/
def strip (text : Text) : Text := ((text.dropWhile isspace).reverse.dropWhile isspace).reverse

/-- Digits, with an underscore between any two groups. -/
def digits (text : Text) : Option Nat :=
  if (text.splitOn '_').all fun group => group ≠ [] && group.all Char.isDigit then
    some (Nat.ofDigitChars 10 (text.splitOn '_').flatten 0)
  else none

/-- `int(text)`. -/
def pyInt (text : Text) : Option Int :=
  match strip text with
  | '+' :: rest => (digits rest).map Int.ofNat
  | '-' :: rest => (digits rest).map fun n => -(n : Int)
  | rest => (digits rest).map Int.ofNat

variable {F : Type} [Zero F]

/-- A value of a line handed to a function that takes text. -/
def convert {α : Type} (read : Text → Option α) (value : Option Text) : Except PyError α :=
  value.elim (.error .type) fun text => (read text).elim (.error .value) .ok

/-- The confidence, which may be left open. -/
def confidenceOf (float : Text → Option F) (text : Text) : Option F :=
  if text = "TODO".toList then some 0 else float text

def conflictListOf (text : Text) : List Text := if text = [] then [] else text.splitOn ','

/-- `locksHeldEntry`. -/
structure LocksHeldEntry (F : Type) where
  occurrences : Int
  total : Int
  percentage : F
  accepted : Int
  confidence : F
  counterexampleParameters : Option Text
  conflictlist : List Text
  deriving DecidableEq, Repr

def locksHeldEntry (float : Text → Option F) (line : Text → Except PyError (Option Text)) :
    Except PyError (LocksHeldEntry F) := do
  let confidence ← convert (confidenceOf float) (← line "confidence".toList)
  let conflictlist ← convert (some ∘ conflictListOf) (← line "conflictlist".toList)
  let occurrences ← convert pyInt (← line "occurrences".toList)
  let total ← convert pyInt (← line "total".toList)
  let percentage ← convert float (← line "percentage".toList)
  let accepted ← convert pyInt (← line "accepted".toList)
  let counterexampleParameters ← line "counterexample-parameters".toList
  .ok ⟨occurrences, total, percentage, accepted, confidence, counterexampleParameters, conflictlist⟩

abbrev HypothesesKey := Option Text × Option Text × Option Text

abbrev HypothesesDict (F : Type) := Dict HypothesesKey (Dict (Option Text) (LocksHeldEntry F))

/-- The body of the loop over the lines. A lock order that is there already is only logged. -/
def readLine (float : Text → Option F) (fieldnames : List Text) (hypothesesDict : HypothesesDict F)
    (row : List Text) : Except PyError (HypothesesDict F) := do
  let line := cell fieldnames row
  let key : HypothesesKey := (← line "type".toList, ← line "member".toList, ← line "accesstype".toList)
  let locks ← line "locks".toList
  if locks ∈ ((hypothesesDict.get? key).getD []).map Prod.fst then .ok hypothesesDict
  else do
    let entry ← locksHeldEntry float line
    .ok (hypothesesDict.collect (key, locks, entry))

/-- Of several errors in one file the model reports that of the first stage. -/
def readHypothesesDict (float : Text → Option F) (hypothesesCSV : Text) : Except PyError (HypothesesDict F) := do
  let text ← decodeAscii hypothesesCSV
  let rows ← readCsv ';' (universalNewlines text)
  (dataRows rows).foldlM (readLine float (rows.headD [])) []

theorem strip_of_no_space {text : Text} (h : ∀ c ∈ text, isspace c = false) : strip text = text := by
  have hdrop : ∀ t : Text, (∀ c ∈ t, isspace c = false) → t.dropWhile isspace = t := by
    intro t ht
    cases t with
    | nil => rfl
    | cons c t => rw [List.dropWhile_cons_of_neg (by simp [ht c List.mem_cons_self])]
  rw [strip, hdrop text h, hdrop text.reverse fun c hc => h c (List.mem_reverse.mp hc), List.reverse_reverse]

/-- A printed count is read back. -/
theorem pyInt_ofNat (n : Nat) : pyInt (Text.ofNat n) = some (n : Int) := by
  have hdigit : ∀ c ∈ Text.ofNat n, c.isDigit = true := fun c => Text.isDigit_of_mem_ofNat
  have hne : ∀ d : Char, d.isDigit = false → d ∉ Text.ofNat n := by
    intro d hd hm
    rw [hdigit d hm] at hd
    cases hd
  have hstrip : strip (Text.ofNat n) = Text.ofNat n := by
    refine strip_of_no_space fun c hc => ?_
    cases hs : isspace c with
    | false => rfl
    | true =>
      refine absurd hc (hne c ?_)
      simp only [isspace, Bool.or_eq_true, decide_eq_true_eq] at hs
      rcases hs with ((((rfl | rfl) | rfl) | rfl) | rfl) | rfl <;> rfl
  have hsplit : (Text.ofNat n).splitOn '_' = [Text.ofNat n] := by
    have hgroup : ∀ group ∈ [Text.ofNat n], '_' ∉ group := by simpa using hne '_' rfl
    have h := List.splitOn_intercalate '_' hgroup (by simp)
    simpa using h
  have hread : digits (Text.ofNat n) = some n := by
    have hall : (Text.ofNat n).all Char.isDigit = true := List.all_eq_true.mpr hdigit
    rw [digits, hsplit, if_pos]
    · rw [List.flatten_singleton, Text.ofDigitChars_ofNat]
    · simp [hall, Text.ofNat_ne_nil]
  unfold pyInt
  rw [hstrip]
  split
  · rename_i rest heq
    exact absurd (heq ▸ List.mem_cons_self) (hne '+' rfl)
  · rename_i rest heq
    exact absurd (heq ▸ List.mem_cons_self) (hne '-' rfl)
  · rw [hread]
    rfl

/-- What the lines of a file put into the dictionary. -/
theorem foldlM_readLine {float : Text → Option F} {fieldnames : List Text} {α : Type} {row : α → List Text}
    {out : α → HypothesesKey × Option Text × LocksHeldEntry F} {xs : List α}
    (hread : ∀ x ∈ xs, ∀ d : HypothesesDict F,
      (out x).2.1 ∉ ((d.get? (out x).1).getD []).map Prod.fst →
      readLine float fieldnames d (row x) = .ok (d.collect (out x)))
    (hnodup : (xs.map fun x => ((out x).1, (out x).2.1)).Nodup) :
    (xs.map row).foldlM (readLine float fieldnames) [] = .ok ((xs.map out).foldl Dict.collect []) := by
  induction xs using List.reverseRecOn with
  | nil => rfl
  | append_singleton xs x ih =>
    rw [List.map_append, List.map_singleton, List.nodup_append] at hnodup
    obtain ⟨hxs, -, hfresh⟩ := hnodup
    have ih := ih (fun y hy => hread y (List.mem_append_left _ hy)) hxs
    have hpairs : ((xs.map out).map fun y => (y.1, y.2.1)) = xs.map fun x => ((out x).1, (out x).2.1) := by
      rw [List.map_map]
      rfl
    have hnew : (out x).2.1 ∉ ((((xs.map out).foldl Dict.collect []).get? (out x).1).getD []).map Prod.fst := by
      rw [Dict.get?_collect (hpairs ▸ hxs)]
      split
      · simp
      · exact Dict.fresh_under (hpairs ▸ fun hm => hfresh _ hm _ List.mem_cons_self rfl)
    rw [List.map_append, foldlM_append_ok ih, List.map_append, List.foldl_append]
    simp [hread x (by simp) _ hnew]

end LockDoc.Processing
