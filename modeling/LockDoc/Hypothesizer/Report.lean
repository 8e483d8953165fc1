import LockDoc.Lib.Text
import LockDoc.Hypothesizer.Selection

/-!
# The report

`print_hypotheses` in its two CSV modes, with the command lines of the other modes. It sorts
the hypotheses of a member and the lock orders of each, marks the first order that equals the
winning hypothesis, and prints the conflict list beside it. Supports and the numbers made from
them are printed by functions of the counts.
-/
namespace LockDoc.Hypothesizer

inductive ReportMode where
  | csv
  | csvwinner
  deriving DecidableEq, Repr

/-- `a` stands before `b`: more accesses, or as many with more locks. -/
def LockingHypothesisMatches.before (a b : LockingHypothesisMatches) : Bool :=
  b.occurrences < a.occurrences ||
    (a.occurrences = b.occurrences && b.sortedHypothesis.length < a.sortedHypothesis.length)

/-- What `std::sort` makes of the entries of the two maps: they are sorted, and equal ones may
stand in any order. -/
structure Sorting where
  hypotheses : Std.ExtTreeMap (List MyId) LockingHypothesisMatches → List LockingHypothesisMatches
  orders : Std.ExtTreeMap (List MyId) Nat → List (List MyId × Nat)
  hypotheses_perm : ∀ m, (hypotheses m).Perm (m.toList.map Prod.snd)
  hypotheses_sorted : ∀ m, (hypotheses m).Pairwise fun a b => b.before a = false
  orders_perm : ∀ m, (orders m).Perm m.toList
  orders_sorted : ∀ m, (orders m).Pairwise fun a b => b.2 ≤ a.2

/-- `a` stands nowhere behind `b`. -/
def LockingHypothesisMatches.notAfter (a b : LockingHypothesisMatches) : Prop := b.before a = false

instance : DecidableRel LockingHypothesisMatches.notAfter := fun a b => inferInstanceAs (Decidable (b.before a = false))

theorem notAfter_iff {a b : LockingHypothesisMatches} : a.notAfter b ↔ b.occurrences < a.occurrences ∨
    (a.occurrences = b.occurrences ∧ b.sortedHypothesis.length ≤ a.sortedHypothesis.length) := by
  simp only [LockingHypothesisMatches.notAfter, LockingHypothesisMatches.before, Bool.or_eq_false_iff,
    Bool.and_eq_false_iff, decide_eq_false_iff_not]
  omega

instance : Std.Total LockingHypothesisMatches.notAfter := ⟨fun a b => by
  rw [notAfter_iff, notAfter_iff]
  omega⟩

instance : IsTrans LockingHypothesisMatches LockingHypothesisMatches.notAfter := ⟨fun a b c hab hbc => by
  rw [notAfter_iff] at *
  omega⟩

instance : Std.Total fun a b : List MyId × Nat => b.2 ≤ a.2 := ⟨fun a b => Nat.le_total b.2 a.2⟩

instance : IsTrans (List MyId × Nat) fun a b => b.2 ≤ a.2 := ⟨fun _ _ _ hab hbc => Nat.le_trans hbc hab⟩

/-- There is such a sorting. -/
def Sorting.insertion : Sorting where
  hypotheses m := (m.toList.map Prod.snd).insertionSort LockingHypothesisMatches.notAfter
  orders m := m.toList.insertionSort fun a b => b.2 ≤ a.2
  hypotheses_perm _ := List.perm_insertionSort _ _
  hypotheses_sorted _ := List.pairwise_insertionSort LockingHypothesisMatches.notAfter _
  orders_perm _ := List.perm_insertionSort _ _
  orders_sorted _ := List.pairwise_insertionSort _ _

/-- The names, the options and the number formats that a report is printed with. -/
structure Report where
  locks : List Text
  cutoffThreshold : ℚ
  /-- `relative_support * 100` of a count and the accesses of the member. -/
  percentage : Nat → Nat → Text
  /-- `relative_support * smoothstep(0, confidence_threshold, count)`. -/
  confidence : Nat → Nat → Text

def locks2string (locks : List Text) (l : List MyId) (separator quote : Text) : Text :=
  if l = [] then "(no locks held)".toList
  else separator.intercalate (l.map fun id => quote ++ locks.getD id [] ++ quote)

/-- A lock order as the columns show it. -/
def Report.order (r : Report) (l : List MyId) : Text := locks2string r.locks l " -> ".toList []

/-- `print_bugsql` without the marks around the line. -/
def Report.bugsql (r : Report) (member : Member) (l : List MyId) (orderMatters : Bool)
    (expectedCounterexamples : Nat) : Text :=
  if 0 < expectedCounterexamples then
    "counterexample.sql.sh ".toList ++ member.datatype ++ [' '] ++ member.combinedName ++ " CEX ".toList ++
      (if orderMatters then "SEQ ".toList else "ANY ".toList) ++ locks2string r.locks l [' '] ['\'']
  else "(no counterexamples to be expected, this hypothesis has 100% support in the observation set)".toList

def inConflictList (conflictList : List (List MyId × List MyId)) (hypothesis : List MyId) : Bool :=
  conflictList.any fun elem => elem.2 = hypothesis

/-- The loop over the conflict list: the winner is skipped, and a comma follows every other
entry but the last of the list. -/
def Report.conflicts (r : Report) (winner : List MyId) : List (List MyId × List MyId) → Text
  | [] => []
  | (_, order) :: rest =>
    if order = winner then r.conflicts winner rest
    else r.order order ++ (if rest = [] then [] else [',']) ++ r.conflicts winner rest

/-- The columns of a row. -/
def Report.columns (r : Report) (member : Member) (found : List MyId × Nat) (thisIsTheWinner isConflict : Bool) :
    List Text :=
  [member.datatype, member.name, [member.accesstype], r.order found.1,
    if thisIsTheWinner then r.conflicts found.1 member.conflictList else [],
    Text.ofNat found.2, Text.ofNat member.occurrences, r.percentage found.2 member.occurrences,
    Text.ofNat (if thisIsTheWinner then 1 else if isConflict then 2 else 0),
    r.confidence found.2 member.occurrences, r.bugsql member found.1 true (member.occurrences - found.2)]

/-- The body of the loop over the lock orders: whether a winner was found, and the output. -/
def Report.printOrder (r : Report) (mode : ReportMode) (member : Member) (state : Bool × Text)
    (found : List MyId × Nat) : Bool × Text :=
  let thisIsTheWinner := !state.1 && decide (member.winningHypothesis = found.1) && member.winnerFound
  let isConflict := !thisIsTheWinner && inConflictList member.conflictList found.1 && member.winnerFound
  (state.1 || thisIsTheWinner,
    if mode = .csv ∨ (mode = .csvwinner ∧ thisIsTheWinner) then
      state.2 ++ Text.row ';' (r.columns member found thisIsTheWinner isConflict)
    else state.2)

/-- The body of the loop over the hypotheses. -/
def Report.printHypothesis (r : Report) (sorting : Sorting) (mode : ReportMode) (member : Member)
    (state : Bool × Text) (h : LockingHypothesisMatches) : Bool × Text :=
  if (h.occurrences : ℚ) / member.occurrences < r.cutoffThreshold then state
  else (sorting.orders h.orderMatches).foldl (r.printOrder mode member) state

def Report.printHypotheses (r : Report) (sorting : Sorting) (mode : ReportMode) (member : Member) : Text :=
  ((sorting.hypotheses member.hypotheses).foldl (r.printHypothesis sorting mode member) (false, [])).2

/-- The header that `main` prints in the CSV modes. -/
def csvHeader : List Text :=
  ["type".toList, "member".toList, "accesstype".toList, "locks".toList, "conflictlist".toList, "occurrences".toList,
    "total".toList, "percentage".toList, "accepted".toList, "confidence".toList, "counterexample-parameters".toList]

/-- What the hypothesizer writes for a list of members. -/
def Report.output (r : Report) (sorting : Sorting) (mode : ReportMode) (members : List Member) : Text :=
  Text.row ';' csvHeader ++ members.flatMap (r.printHypotheses sorting mode)

/-- All lock orders of a member with their counts, as the report lists them. -/
def Member.observedOrders (member : Member) (sorting : Sorting) : List (List MyId × Nat) :=
  (sorting.hypotheses member.hypotheses).flatMap fun h => sorting.orders h.orderMatches

/-- What there are command lines for, with the counts: for all lock orders, and in the normal mode
also for the sets of locks, where the order does not matter. -/
def Member.commands (member : Member) (sorting : Sorting) : List (Bool × List MyId × Nat) :=
  (sorting.hypotheses member.hypotheses).flatMap fun h =>
    (false, h.sortedHypothesis, h.occurrences) :: (sorting.orders h.orderMatches).map fun found => (true, found)

/-- The value of the column `accepted`. -/
def Member.acceptedAs (member : Member) (order : List MyId) : Nat :=
  if member.winnerFound then
    if member.winningHypothesis = order then 1 else if inConflictList member.conflictList order then 2 else 0
  else 0

/-- Whether a mode prints the row of a lock order. -/
def Member.prints (member : Member) (mode : ReportMode) (order : List MyId) : Bool :=
  mode = .csv || (member.winnerFound && member.winningHypothesis = order)

/-- The row of a lock order, as the selection decides it. -/
def Report.row (r : Report) (member : Member) (found : List MyId × Nat) : List Text :=
  r.columns member found (member.acceptedAs found.1 = 1) (member.acceptedAs found.1 = 2)

/-- With no cutoff no hypothesis is passed over. -/
theorem printHypotheses_eq {r : Report} (hcut : r.cutoffThreshold ≤ 0) (sorting : Sorting) (mode : ReportMode)
    (member : Member) : r.printHypotheses sorting mode member =
      ((member.observedOrders sorting).foldl (r.printOrder mode member) (false, [])).2 := by
  have hstep : r.printHypothesis sorting mode member =
      fun state h => (sorting.orders h.orderMatches).foldl (r.printOrder mode member) state := by
    funext state h
    rw [Report.printHypothesis, if_neg]
    exact not_lt.mpr (le_trans hcut (div_nonneg (Nat.cast_nonneg _) (Nat.cast_nonneg _)))
  rw [Report.printHypotheses, hstep, Member.observedOrders, List.foldl_flatMap]

theorem acceptedAs_eq_one {member : Member} {order : List MyId} :
    member.acceptedAs order = 1 ↔ member.winnerFound = true ∧ member.winningHypothesis = order := by
  unfold Member.acceptedAs
  split_ifs <;> simp_all

theorem acceptedAs_eq_two {member : Member} {order : List MyId} :
    member.acceptedAs order = 2 ↔ member.winnerFound = true ∧ member.winningHypothesis ≠ order ∧
      inConflictList member.conflictList order = true := by
  unfold Member.acceptedAs
  split_ifs <;> simp_all

/-- A lock order that comes up for the first time is printed as the selection decides. -/
theorem printOrder_eq {r : Report} {mode : ReportMode} {member : Member} {state : Bool × Text}
    {found : List MyId × Nat}
    (hfirst : state.1 = true → member.winningHypothesis ≠ found.1) :
    r.printOrder mode member state found =
      (state.1 || (member.winnerFound && decide (member.winningHypothesis = found.1)),
        if member.prints mode found.1 then state.2 ++ Text.row ';' (r.row member found) else state.2) := by
  have hwinner : (!state.1 && decide (member.winningHypothesis = found.1) && member.winnerFound) =
      (member.winnerFound && decide (member.winningHypothesis = found.1)) := by
    by_cases he : member.winningHypothesis = found.1
    · cases hs : state.1 with
      | false => simp [he, Bool.and_comm]
      | true => exact absurd he (hfirst hs)
    · simp [he]
  have hone : (member.winnerFound && decide (member.winningHypothesis = found.1)) =
      decide (member.acceptedAs found.1 = 1) := by
    rw [Bool.eq_iff_iff]
    simp [acceptedAs_eq_one]
  have htwo : (!(member.winnerFound && decide (member.winningHypothesis = found.1)) &&
      inConflictList member.conflictList found.1 && member.winnerFound) =
      decide (member.acceptedAs found.1 = 2) := by
    rw [Bool.eq_iff_iff]
    simp only [Bool.and_eq_true, Bool.not_eq_true', decide_eq_true_eq, acceptedAs_eq_two, Bool.and_eq_false_iff,
      decide_eq_false_iff_not, ne_eq]
    constructor
    · rintro ⟨⟨hne, hc⟩, hw⟩
      exact ⟨hw, hne.resolve_left (by simp [hw]), hc⟩
    · rintro ⟨hw, hne, hc⟩
      exact ⟨⟨.inr hne, hc⟩, hw⟩
  unfold Report.printOrder Report.row Member.prints
  dsimp only
  rw [hwinner, htwo, hone]
  congr 1
  cases mode <;> simp

/-- The loop over lock orders of which each comes up once. -/
theorem foldl_printOrder {r : Report} {mode : ReportMode} {member : Member} (found : List (List MyId × Nat))
    (hnodup : (found.map Prod.fst).Nodup) (state : Bool × Text)
    (hfirst : state.1 = true → member.winningHypothesis ∉ found.map Prod.fst) :
    (found.foldl (r.printOrder mode member) state).2 =
      state.2 ++ (found.filter fun f => member.prints mode f.1).flatMap fun f => Text.row ';' (r.row member f) := by
  induction found generalizing state with
  | nil => simp
  | cons f found ih =>
    rw [List.map_cons, List.nodup_cons] at hnodup
    have hf : state.1 = true → member.winningHypothesis ≠ f.1 := fun hs he =>
      hfirst hs (by rw [he]; exact List.mem_cons_self)
    rw [List.foldl_cons, printOrder_eq hf, ih hnodup.2]
    · by_cases hp : member.prints mode f.1 = true
      · simp [hp]
      · simp [hp]
    · intro hs hm
      rcases (Bool.or_eq_true _ _).mp hs with hs | hs
      · exact hfirst hs (List.mem_cons_of_mem _ hm)
      · simp only [Bool.and_eq_true, decide_eq_true_eq] at hs
        exact hnodup.1 (hs.2 ▸ hm)

section

variable {member₀ member : Member} (hs : Selected member₀ member) (sorting : Sorting)

include hs

omit hs in
theorem mem_observedOrders {found : List MyId × Nat} : found ∈ member.observedOrders sorting ↔
    ∃ (h : List MyId) (x : LockingHypothesisMatches), member.hypotheses[h]? = some x ∧
      x.orderMatches[found.1]? = some found.2 := by
  rw [Member.observedOrders, List.mem_flatMap]
  constructor
  · rintro ⟨x, hx, ho⟩
    obtain ⟨⟨h, y⟩, hy, rfl⟩ := List.mem_map.mp ((sorting.hypotheses_perm _).mem_iff.mp hx)
    exact ⟨h, y, Std.ExtTreeMap.mem_toList_iff_getElem?_eq_some.mp hy,
      Std.ExtTreeMap.mem_toList_iff_getElem?_eq_some.mp ((sorting.orders_perm _).mem_iff.mp ho)⟩
  · rintro ⟨h, x, hx, ho⟩
    have hmem := List.mem_map_of_mem (f := Prod.snd) (Std.ExtTreeMap.mem_toList_iff_getElem?_eq_some.mpr hx)
    exact ⟨x, (sorting.hypotheses_perm _).mem_iff.mpr hmem,
      (sorting.orders_perm _).mem_iff.mpr (Std.ExtTreeMap.mem_toList_iff_getElem?_eq_some.mpr ho)⟩

/-- An order that is listed is the one of its hypothesis in some combination. -/
theorem Selected.order_of_mem {h o : List MyId} {x : LockingHypothesisMatches} {n : Nat}
    (hx : member.hypotheses[h]? = some x) (ho : x.orderMatches[o]? = some n) :
    h.Pairwise (· < ·) ∧ ∃ lc ∈ member₀.combinations, lc.containsLocks h = true ∧ lc.lockOrder h = o := by
  obtain ⟨maxHypoLen, hkeys, hvalues⟩ := hs.evaluated
  have hh : h.Pairwise (· < ·) := ((hkeys h).mp (Std.ExtTreeMap.mem_iff_isSome_getElem?.mpr (by simp [hx]))).1.1
  have hmem : o ∈ (evaluation member₀.combinations h).orderMatches := by
    rw [← hvalues h x hx, Std.ExtTreeMap.mem_iff_isSome_getElem?, ho]
    rfl
  exact ⟨hh, (evaluation_keys _ _ _).mp hmem⟩

theorem Selected.perm_of_mem {h o : List MyId} {x : LockingHypothesisMatches} {n : Nat}
    (hx : member.hypotheses[h]? = some x) (ho : x.orderMatches[o]? = some n) : o.Perm h ∧ h.Pairwise (· < ·) := by
  obtain ⟨hh, lc, -, hc, rfl⟩ := hs.order_of_mem hx ho
  exact ⟨LockCombination.lockOrder_perm hh hc, hh⟩

/-- The locks of a listed order are held in some combination. -/
theorem Selected.held_of_mem {found : List MyId × Nat} (hf : found ∈ member.observedOrders sorting) :
    ∃ lc ∈ member₀.combinations, ∀ id ∈ found.1, id ∈ lc.locksHeld := by
  obtain ⟨h, x, hx, ho⟩ := (mem_observedOrders sorting).mp hf
  obtain ⟨-, lc, hlc, -, he⟩ := hs.order_of_mem hx ho
  exact ⟨lc, hlc, fun id hid => (LockCombination.orderFrom_sublist _ _).subset (he ▸ hid)⟩

/-- A set of locks stands for a hypothesis that some combination contains. -/
theorem Selected.set_of_mem {h : List MyId} {x : LockingHypothesisMatches} (hx : member.hypotheses[h]? = some x) :
    x.sortedHypothesis = h ∧ ∃ lc ∈ member₀.combinations, lc.containsLocks h = true := by
  obtain ⟨maxHypoLen, hkeys, hvalues⟩ := hs.evaluated
  obtain ⟨hh, lc, hlc, hsub⟩ := ((hkeys h).mp (Std.ExtTreeMap.mem_iff_isSome_getElem?.mpr (by simp [hx]))).1
  have hc : ∃ lc ∈ member₀.combinations, lc.containsLocks h = true :=
    ⟨lc, hlc, (LockCombination.containsLocks_iff hh).mpr hsub⟩
  rw [hvalues h x hx]
  exact ⟨evaluation_sortedHypothesis hc, hc⟩

omit hs in
theorem mem_commands {orderMatters : Bool} {l : List MyId} {n : Nat} :
    (orderMatters, l, n) ∈ member.commands sorting ↔
      (orderMatters = true ∧ (l, n) ∈ member.observedOrders sorting) ∨ (orderMatters = false ∧
        ∃ (h : List MyId) (x : LockingHypothesisMatches), member.hypotheses[h]? = some x ∧
          l = x.sortedHypothesis ∧ n = x.occurrences) := by
  have hmem : ∀ x, x ∈ sorting.hypotheses member.hypotheses ↔
      ∃ h : List MyId, member.hypotheses[h]? = some x := by
    intro x
    rw [(sorting.hypotheses_perm _).mem_iff, List.mem_map]
    constructor
    · rintro ⟨⟨h, y⟩, hy, rfl⟩
      exact ⟨h, Std.ExtTreeMap.mem_toList_iff_getElem?_eq_some.mp hy⟩
    · rintro ⟨h, hx⟩
      exact ⟨(h, x), Std.ExtTreeMap.mem_toList_iff_getElem?_eq_some.mpr hx, rfl⟩
  simp only [Member.commands, Member.observedOrders, List.mem_flatMap, List.mem_cons, List.mem_map, Prod.mk.injEq]
  constructor
  · rintro ⟨x, hx, ⟨rfl, rfl, rfl⟩ | ⟨o, ho, rfl, rfl⟩⟩
    · obtain ⟨h, hh⟩ := (hmem x).mp hx
      exact .inr ⟨rfl, h, x, hh, rfl, rfl⟩
    · exact .inl ⟨rfl, x, hx, ho⟩
  · rintro (⟨rfl, x, hx, ho⟩ | ⟨rfl, h, x, hh, rfl, rfl⟩)
    · exact ⟨x, hx, .inr ⟨_, ho, rfl, rfl⟩⟩
    · exact ⟨x, (hmem x).mpr ⟨h, hh⟩, .inl ⟨rfl, rfl, rfl⟩⟩

/-- The locks of a command line are held in some combination. -/
theorem Selected.command_held {orderMatters : Bool} {l : List MyId} {n : Nat}
    (hc : (orderMatters, l, n) ∈ member.commands sorting) :
    ∃ lc ∈ member₀.combinations, ∀ id ∈ l, id ∈ lc.locksHeld := by
  rcases (mem_commands sorting).mp hc with ⟨-, hfound⟩ | ⟨-, h, x, hx, rfl, -⟩
  · exact hs.held_of_mem sorting hfound
  · obtain ⟨hset, lc, hlc, hcontains⟩ := hs.set_of_mem hx
    obtain ⟨maxHypoLen, hkeys, -⟩ := hs.evaluated
    have hh := ((hkeys h).mp (Std.ExtTreeMap.mem_iff_isSome_getElem?.mpr (by simp [hx]))).1.1
    rw [hset]
    exact ⟨lc, hlc, (LockCombination.containsLocks_iff hh).mp hcontains⟩

/-- Every lock order is listed once. -/
theorem Selected.observedOrders_nodup : ((member.observedOrders sorting).map Prod.fst).Nodup := by
  have hperm : ((member.observedOrders sorting).map Prod.fst).Perm
      (member.hypotheses.toList.flatMap fun kv => kv.2.orderMatches.toList.map Prod.fst) := by
    rw [← List.map_flatMap]
    refine List.Perm.map _ ?_
    have hmap : (member.hypotheses.toList.flatMap fun kv => kv.2.orderMatches.toList) =
        (member.hypotheses.toList.map Prod.snd).flatMap fun x => x.orderMatches.toList := by
      rw [List.flatMap_map]
    rw [hmap]
    exact (List.Perm.flatMap_right _ (sorting.hypotheses_perm _)).trans
      (List.Perm.flatMap_left _ fun x _ => sorting.orders_perm _)
  rw [hperm.nodup_iff, List.nodup_flatMap]
  constructor
  · intro kv _
    exact OrdMap.nodup_keys kv.2.orderMatches
  · refine (List.pairwise_map.mp (OrdMap.nodup_keys member.hypotheses)).imp_of_mem ?_
    intro a b ha hb hne o hoa hob
    obtain ⟨⟨_, n⟩, hn, rfl⟩ := List.mem_map.mp hoa
    obtain ⟨⟨_, m⟩, hm, rfl⟩ := List.mem_map.mp hob
    have hpa := hs.perm_of_mem (Std.ExtTreeMap.mem_toList_iff_getElem?_eq_some.mp ha)
      (Std.ExtTreeMap.mem_toList_iff_getElem?_eq_some.mp hn)
    have hpb := hs.perm_of_mem (Std.ExtTreeMap.mem_toList_iff_getElem?_eq_some.mp hb)
      (Std.ExtTreeMap.mem_toList_iff_getElem?_eq_some.mp hm)
    -- Two strictly increasing lists with the same locks are one list.
    exact hne ((hpa.1.symm.trans hpb.1).eq_of_pairwise (fun _ _ _ _ h₁ h₂ => absurd h₂ (Nat.lt_asymm h₁)) hpa.2 hpb.2)

/-- The rows that a mode prints for a member. -/
theorem Selected.printHypotheses {r : Report} (hcut : r.cutoffThreshold ≤ 0) (mode : ReportMode) :
    r.printHypotheses sorting mode member =
      ((member.observedOrders sorting).filter fun f => member.prints mode f.1).flatMap fun f =>
        Text.row ';' (r.row member f) := by
  rw [printHypotheses_eq hcut, foldl_printOrder _ (hs.observedOrders_nodup sorting) _ (by simp), List.nil_append]

/-- The count of an entry of the conflict list is one that is listed. -/
theorem Selected.mem_of_entry {e : List MyId × List MyId} (he : e ∈ member.conflictList) :
    ∃ n, (e.2, n) ∈ member.observedOrders sorting ∧ n = (member.hypotheses.getD e.1 {}).largest := by
  obtain ⟨hmem, hfreq, -⟩ := hs.entries e he
  obtain ⟨x, hx⟩ := Option.isSome_iff_exists.mp (Std.ExtTreeMap.mem_iff_isSome_getElem?.mp hmem)
  rw [OrdMap.getD_eq, hx, Option.getD_some] at hfreq ⊢
  obtain ⟨n, hn⟩ := Option.isSome_iff_exists.mp (Std.ExtTreeMap.mem_iff_isSome_getElem?.mp hfreq.observed)
  refine ⟨n, (mem_observedOrders sorting).mpr ⟨e.1, x, hx, hn⟩, ?_⟩
  rw [← hfreq.largest, OrdMap.getD_eq, hn]
  rfl

omit hs in
/-- Past the winner the loop prints all entries with commas between them. -/
theorem conflicts_eq (r : Report) {winner : List MyId} {entries : List (List MyId × List MyId)}
    (h : winner ∉ entries.map Prod.snd) :
    r.conflicts winner entries = [','].intercalate (entries.map fun e => r.order e.2) := by
  induction entries with
  | nil => rfl
  | cons e rest ih =>
    rw [List.map_cons, List.mem_cons, not_or] at h
    rw [Report.conflicts, if_neg (Ne.symm h.1), ih h.2]
    cases rest with
    | nil => simp
    | cons next rest => simp

/-- The conflict list as the row of the winner prints it. -/
theorem Selected.conflicts_winner (r : Report) (hw : member.winnerFound = true) :
    r.conflicts member.winningHypothesis member.conflictList =
      [','].intercalate (member.conflictList.tail.map fun e => r.order e.2) := by
  obtain ⟨w, rest, hfront⟩ := hs.front hw
  have hnodup := hs.nodup
  rw [hfront, List.map_cons, List.nodup_cons] at hnodup
  rw [hfront, Report.conflicts, if_pos rfl, conflicts_eq r hnodup.1, List.tail_cons]

end

end LockDoc.Hypothesizer
