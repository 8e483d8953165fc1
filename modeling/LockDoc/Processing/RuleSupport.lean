import Mathlib.Data.List.MinMax
import LockDoc.Processing.Groundtruth

/-!
# The support of documented rules

`locking-rule-checking.py` looks for every documented rule among all lock orders that were observed
for its member. Of the orders that the rule matches the one with the highest support counts.
-/
namespace LockDoc.Processing

open FallibleRun Worklist LockDoc.Hypothesizer

variable {F : Type} [Zero F] [NatCast F] [LinearOrder F]

inductive Color where
  | green
  | yellow
  | red
  deriving DecidableEq, Repr

/-- An entry of `membersDict`. -/
structure MemberRule (F : Type) where
  results : Option (LocksHeldEntry F)
  lockingrule : Option Text
  color : Color
  deriving DecidableEq, Repr

/-- `resultsEntry`; nothing raises `winner`. -/
structure RuleResults (F : Type) where
  count : Nat := 0
  full : Nat := 0
  winner : Nat := 0
  found : Nat := 0
  notfound : Nat := 0
  noobservations : Nat := 0
  members : Dict (Option Text × Option Text) (MemberRule F) := []
  deriving DecidableEq, Repr

def colorOf (best : Option (LocksHeldEntry F)) : Color :=
  match best with
  | none => .red
  | some entry => if entry.percentage = ((100 : Nat) : F) then .green else .yellow

section

variable (reMatch : Text → Option (Text → Bool))

/-- The loop over the lock orders. -/
def searchRule (rule : Option Text) (best : Option (LocksHeldEntry F)) :
    Dict (Option Text) (LocksHeldEntry F) → Except Stop (Option (LocksHeldEntry F))
  | [] => .ok best
  | (locksHeld, entry) :: rest =>
    match rule, locksHeld with
    | some lockingRule, some locks =>
      match reMatch lockingRule with
      | some expression =>
        if expression locks then
          searchRule rule (if best.all (fun b => b.percentage < entry.percentage) then some entry else best) rest
        else searchRule rule best rest
      | none => .error .raised
    | _, _ => .error .raised

/-- The body of the loop over the documented rules. A second rule for a member is an exception: its
message names a variable that there is not. -/
def checkRule (writesOnly : Bool) (hypothesisDict : HypothesesDict F) (resultsDict : Dict (Option Text) (RuleResults F))
    (item : HypothesesKey × Option Text) : Except Stop (Dict (Option Text) (RuleResults F)) :=
  if writesOnly && item.1.2.2 = some ['r'] then .ok resultsDict
  else
    let resultsEntry := (resultsDict.get? item.1.1).getD {}
    match hypothesisDict.get? item.1 with
    | none => .ok (resultsDict.set item.1.1 { resultsEntry with noobservations := resultsEntry.noobservations + 1 })
    | some locksHeldDict => do
      let best ← searchRule reMatch item.2 none locksHeldDict
      if (resultsEntry.members.get? item.1.2).isSome then .error .raised
      else
        let color := colorOf best
        .ok (resultsDict.set item.1.1
          { resultsEntry with
            count := resultsEntry.count + 1
            full := resultsEntry.full + if color = .green then 1 else 0
            found := resultsEntry.found + if color = .yellow then 1 else 0
            notfound := resultsEntry.notfound + if color = .red then 1 else 0
            members := resultsEntry.members.set item.1.2 ⟨best, item.2, color⟩ })

def checkRules (writesOnly : Bool) (hypothesisDict : HypothesesDict F) (groundtruthDict : Groundtruth) :
    Except Stop (Dict (Option Text) (RuleResults F)) :=
  groundtruthDict.foldlM (checkRule reMatch writesOnly hypothesisDict) []

end

def summaryHeader : List Text :=
  ["datatype".toList, "numrules".toList, "noobservations".toList, "observations".toList, "full".toList, "found".toList,
    "notfound".toList]

def RuleResults.row (name : Text) (results : RuleResults F) : Text :=
  Text.row ',' [name, Text.ofNat (results.count + results.noobservations), Text.ofNat results.noobservations,
    Text.ofNat results.count, Text.ofNat results.full, Text.ofNat results.found, Text.ofNat results.notfound]

/-- `--machine-output summary`, without `--percentage`. -/
def summary (resultsDict : Dict (Option Text) (RuleResults F)) : Text :=
  Text.row ',' summaryHeader ++ resultsDict.flatMap fun e => e.2.row (showValue e.1)

/-! ## The rules of a report -/

section

variable (reMatch : Text → Option (Text → Bool)) (r : Report) (float : Text → Option F) (sorting : Sorting)
  (members : List Member)

/-- The best support among the orders of the member that the rule matches, if there is a member. -/
def support (d : DocumentedRule) : Option (Option (LocksHeldEntry F)) :=
  (members.find? fun member => keyOf member = d.key).map fun member =>
    List.argmax LocksHeldEntry.percentage (((member.observedOrders sorting).filter fun found =>
      matchesLocks reMatch d.rule (r.order found.1)).map (entryOf r float member))

/-- What the rules of a data type amount to. -/
def ruleResults (rules : List DocumentedRule) : RuleResults F where
  count := rules.countP fun d => (support reMatch r float sorting members d).isSome
  full := rules.countP fun d => (support reMatch r float sorting members d).map colorOf = some .green
  found := rules.countP fun d => (support reMatch r float sorting members d).map colorOf = some .yellow
  notfound := rules.countP fun d => (support reMatch r float sorting members d).map colorOf = some .red
  noobservations := rules.countP fun d => (support reMatch r float sorting members d).isNone
  members := rules.filterMap fun d =>
    (support reMatch r float sorting members d).map fun best => (d.key.2, ⟨best, some d.rule, colorOf best⟩)

end

/-- The rules of a data type that the options leave. -/
def consideredRules (structs : Option (List Text)) (writesOnly : Bool) (rules : List DocumentedRule)
    (datatype : Option Text) : List DocumentedRule :=
  rules.filter fun d => selectedBy structs d && !(writesOnly && d.accesstype = ['r']) && decide (some d.datatype = datatype)

/-- A rule of an observed member has one colour, and the others have none. -/
theorem ruleResults_sum (reMatch : Text → Option (Text → Bool)) (r : Report) (float : Text → Option F) (sorting : Sorting)
    (members : List Member) (rules : List DocumentedRule) :
    (ruleResults reMatch r float sorting members rules).full + (ruleResults reMatch r float sorting members rules).found +
        (ruleResults reMatch r float sorting members rules).notfound =
      (ruleResults reMatch r float sorting members rules).count ∧
    (ruleResults reMatch r float sorting members rules).count +
      (ruleResults reMatch r float sorting members rules).noobservations = rules.length := by
  induction rules with
  | nil => exact ⟨rfl, rfl⟩
  | cons d rules ih =>
    simp only [ruleResults, List.countP_cons, List.length_cons] at ih ⊢
    cases support reMatch r float sorting members d with
    | none =>
      simp only [Option.map_none, Option.isSome_none, Option.isNone_none, reduceCtorEq, decide_false, Bool.false_eq_true,
        if_false, if_true]
      omega
    | some best =>
      simp only [Option.map_some, Option.isSome_some, Option.isNone_some, if_true, Bool.false_eq_true, if_false]
      have hcolors : ∀ c : Color, c = .green ∨ c = .yellow ∨ c = .red := by
        intro c
        cases c <;> decide
      rcases hcolors (colorOf best) with hc | hc | hc <;> simp only [hc] <;>
        simp only [reduceCtorEq, Option.some.injEq, decide_true, decide_false, Bool.false_eq_true, if_false, if_true] <;>
        omega

omit [Zero F] [NatCast F] in
theorem searchRule_some {reMatch : Text → Option (Text → Bool)} {rule : Text} (hvalid : (reMatch rule).isSome = true)
    (entries : List (Text × LocksHeldEntry F)) :
    searchRule reMatch (some rule) none (entries.map fun e => (some e.1, e.2)) =
      .ok (List.argmax LocksHeldEntry.percentage
        ((entries.filter fun e => matchesLocks reMatch rule e.1).map Prod.snd)) := by
  obtain ⟨expression, hexpression⟩ := Option.isSome_iff_exists.mp hvalid
  have hmatches : ∀ locks, matchesLocks reMatch rule locks = expression locks := by simp [matchesLocks, hexpression]
  have main : ∀ (entries : List (Text × LocksHeldEntry F)) (best : Option (LocksHeldEntry F)),
      searchRule reMatch (some rule) best (entries.map fun e => (some e.1, e.2)) =
        .ok (((entries.filter fun e => matchesLocks reMatch rule e.1).map Prod.snd).foldl
          (List.argAux fun b c => c.percentage < b.percentage) best) := by
    intro entries
    induction entries with
    | nil => exact fun _ => rfl
    | cons e entries ih =>
      intro best
      rw [List.map_cons, searchRule, List.filter_cons, hexpression, hmatches]
      dsimp only
      cases expression e.1 with
      | false => exact ih best
      | true =>
        simp only [if_true, List.map_cons, List.foldl_cons]
        rw [ih]
        cases best <;> simp [List.argAux]
  exact main entries none

section

variable {r : Report} {float : Text → Option F} (hr : ReadableReport r float) {sorting : Sorting} {members : List Member}
  (hm : ∀ member ∈ members, ReadableMember r sorting member) (hkeys : (members.map keyOf).Nodup)
  {hypothesisDict : HypothesesDict F} (hdict : readHypothesesDict float (r.output sorting .csv members) = .ok hypothesisDict)
  {reMatch : Text → Option (Text → Bool)}

include hr hm hkeys hdict

omit [NatCast F] in
/-- What is found for a rule: nothing without a member, else the best of the orders it matches. -/
theorem searchRule_report {d : DocumentedRule} (hvalid : (reMatch d.rule).isSome = true) :
    match hypothesisDict.get? d.key with
    | none => support reMatch r float sorting members d = none
    | some locksHeldDict => ∃ best, support reMatch r float sorting members d = some best ∧
        searchRule reMatch (some d.rule) none locksHeldDict = .ok best := by
  obtain ⟨hget, hnone⟩ := get?_entries hr hm hkeys .csv hdict
  cases hfind : members.find? fun member => keyOf member = d.key with
  | none =>
    have hkey : d.key ∉ members.map keyOf := by
      intro hk
      obtain ⟨member, hmember, hk⟩ := List.mem_map.mp hk
      exact List.find?_eq_none.mp hfind member hmember (decide_eq_true hk)
    rw [hnone _ hkey]
    simp [support, hfind]
  | some member =>
    have hmember := List.mem_of_find?_eq_some hfind
    have hk : keyOf member = d.key := by simpa using List.find?_some hfind
    obtain ⟨found, rest, hfound⟩ := (hm member hmember).selected.exists_row sorting
    have hprinted : printed sorting .csv member = member.observedOrders sorting :=
      List.filter_eq_self.mpr fun _ _ => rfl
    have hlookup := hget member hmember
    rw [hprinted, if_neg (by simp [hfound])] at hlookup
    rw [← hk, hlookup]
    refine ⟨_, by rw [support, hfind, Option.map_some], ?_⟩
    have hsearch := searchRule_some hvalid
      ((member.observedOrders sorting).map fun found => (r.order found.1, entryOf r float member found))
    rw [List.map_map, List.filter_map, List.map_map] at hsearch
    exact hsearch

/-- One rule: the results of its data type are those with the rule added. -/
theorem checkRule_eq {writesOnly : Bool} {seen : List DocumentedRule} {d : DocumentedRule}
    {resultsDict : Dict (Option Text) (RuleResults F)} (hvalid : (reMatch d.rule).isSome = true)
    (hd : (writesOnly && d.accesstype = ['r']) = false) (hnew : d.key ∉ seen.map DocumentedRule.key)
    (hold : (resultsDict.get? (some d.datatype)).getD {} =
      ruleResults reMatch r float sorting members (seen.filter fun d' => some d'.datatype = some d.datatype)) :
    checkRule reMatch writesOnly hypothesisDict resultsDict d.item = .ok (resultsDict.set (some d.datatype)
      (ruleResults reMatch r float sorting members
        ((seen ++ [d]).filter fun d' => some d'.datatype = some d.datatype))) := by
  have hsearch := searchRule_report hr hm hkeys hdict hvalid
  have hfilter : ((seen ++ [d]).filter fun d' => some d'.datatype = some d.datatype) =
      (seen.filter fun d' => some d'.datatype = some d.datatype) ++ [d] := by simp
  have hitem : (writesOnly && decide (d.item.1.2.2 = some ['r'])) = false := by
    simpa [DocumentedRule.item, DocumentedRule.key] using hd
  rw [checkRule, hitem, if_neg Bool.false_ne_true, hfilter]
  change (match hypothesisDict.get? d.key with
    | none => _
    | some locksHeldDict => _) = _
  rw [show (resultsDict.get? d.item.1.1).getD {} = _ from hold]
  cases hget : hypothesisDict.get? d.key with
  | none =>
    rw [hget] at hsearch
    simp only at hsearch
    simp [ruleResults, hsearch, List.countP_append, DocumentedRule.item, DocumentedRule.key]
  | some locksHeldDict =>
    rw [hget] at hsearch
    obtain ⟨best, hbest, hsearch⟩ := hsearch
    have hfresh : d.item.1.2 ∉ (ruleResults reMatch r float sorting members
        (seen.filter fun d' => some d'.datatype = some d.datatype)).members.map Prod.fst := by
      intro hmem
      obtain ⟨e, he, hkey⟩ := List.mem_map.mp hmem
      obtain ⟨d', hd', he⟩ := List.mem_filterMap.mp he
      obtain ⟨_, -, rfl⟩ := Option.map_eq_some_iff.mp he
      obtain ⟨hseen, hdt⟩ := List.mem_filter.mp hd'
      have hdatatype : some d'.datatype = some d.datatype := of_decide_eq_true hdt
      exact hnew (List.mem_map.mpr ⟨d', hseen, Prod.ext hdatatype hkey⟩)
    change (searchRule reMatch (some d.rule) none locksHeldDict >>= _) = _
    rw [hsearch]
    change (if (Dict.get? _ _).isSome = true then _ else _) = _
    rw [Dict.get?_of_not_mem hfresh, if_neg (by simp), Dict.set_fresh hfresh]
    have hcount : ∀ color, (if colorOf best = color then 1 else 0) =
        [d].countP fun d => decide ((support reMatch r float sorting members d).map colorOf = some color) := by
      intro color
      simp [List.countP_singleton, hbest]
    rw [hcount, hcount, hcount]
    simp [ruleResults, hbest, List.countP_append, DocumentedRule.item, DocumentedRule.key]

/-- The loop over the rules. -/
theorem checkRules_eq (writesOnly : Bool) {rules : List DocumentedRule} (hnodup : (rules.map DocumentedRule.key).Nodup)
    (hvalid : ∀ d ∈ rules, (reMatch d.rule).isSome = true) :
    ∃ resultsDict, checkRules reMatch writesOnly hypothesisDict (rules.map DocumentedRule.item) = .ok resultsDict ∧
      (resultsDict.map Prod.fst).Nodup ∧ ∀ datatype, resultsDict.get? datatype =
        if (rules.filter fun d => !(writesOnly && d.accesstype = ['r'])).any (fun d => some d.datatype = datatype) then
          some (ruleResults reMatch r float sorting members
            ((rules.filter fun d => !(writesOnly && d.accesstype = ['r'])).filter fun d => some d.datatype = datatype))
        else none := by
  induction rules using List.reverseRecOn with
  | nil => exact ⟨[], rfl, List.nodup_nil, fun _ => rfl⟩
  | append_singleton rules d ih =>
    rw [List.map_append, List.nodup_append] at hnodup
    obtain ⟨resultsDict, hrun, hdistinct, hget⟩ := ih hnodup.1 fun d hd => hvalid d (List.mem_append_left _ hd)
    have hrun' : checkRules reMatch writesOnly hypothesisDict ((rules ++ [d]).map DocumentedRule.item) =
        checkRule reMatch writesOnly hypothesisDict resultsDict d.item := by
      rw [List.map_append, checkRules, foldlM_append_ok hrun]
      change List.foldlM _ _ [d.item] = _
      rw [List.foldlM_cons]
      cases checkRule reMatch writesOnly hypothesisDict resultsDict d.item <;> rfl
    cases hd : (writesOnly && decide (d.accesstype = ['r'])) with
    | true =>
      refine ⟨resultsDict, ?_, hdistinct, fun datatype => ?_⟩
      · have hitem : (writesOnly && decide (d.item.1.2.2 = some ['r'])) = true := by
          simpa [DocumentedRule.item, DocumentedRule.key] using hd
        rw [hrun', checkRule, hitem, if_pos rfl]
      · have hdrop : [d].filter (fun d => !(writesOnly && d.accesstype = ['r'])) = [] := by
          rw [List.filter_cons, hd]
          rfl
        rw [hget, List.filter_append, hdrop, List.append_nil]
    | false =>
      have hnew : d.key ∉ (rules.filter fun d => !(writesOnly && d.accesstype = ['r'])).map DocumentedRule.key := by
        intro hk
        obtain ⟨d', hd', hk⟩ := List.mem_map.mp hk
        exact hnodup.2.2 _ (List.mem_map_of_mem (List.mem_of_mem_filter hd')) _ (List.mem_singleton_self _) hk
      have hold : (resultsDict.get? (some d.datatype)).getD {} = ruleResults reMatch r float sorting members
          ((rules.filter fun d => !(writesOnly && d.accesstype = ['r'])).filter fun d' =>
            some d'.datatype = some d.datatype) := by
        rw [hget]
        split
        · rfl
        · rename_i hnone
          rw [List.filter_eq_nil_iff.mpr fun d' hd' he => hnone (List.any_eq_true.mpr ⟨d', hd', he⟩)]
          rfl
      have hstep := checkRule_eq hr hm hkeys hdict (hvalid d (by simp)) hd hnew hold
      refine ⟨_, hrun'.trans hstep, Dict.nodup_set hdistinct _ _, fun datatype => ?_⟩
      have hfilter : ((rules ++ [d]).filter fun d => !(writesOnly && d.accesstype = ['r'])) =
          (rules.filter fun d => !(writesOnly && d.accesstype = ['r'])) ++ [d] := by
        rw [List.filter_append, List.filter_cons, hd]
        rfl
      rw [Dict.get?_set, hget, hfilter]
      by_cases hdt : datatype = some d.datatype
      · subst hdt
        simp
      · rw [if_neg hdt, List.any_append, List.filter_append]
        simp [Ne.symm hdt]

end

/-- What the script finds out about the documented rules, for every data type that has one, each of
which has a line in the summary. The best support of a rule is that of an order it matches, and no
order it matches has more; the rules of observed members are either fully supported, or found, or not
found. -/
theorem rules_checked {r : Report} {float : Text → Option F} (hr : ReadableReport r float) {sorting : Sorting}
    {members : List Member} (hm : ∀ member ∈ members, ReadableMember r sorting member) (hkeys : (members.map keyOf).Nodup)
    {rules : List DocumentedRule} (hreadable : ∀ d ∈ rules, ∀ column ∈ d.columns, Readable column)
    (hnodup : (rules.map DocumentedRule.key).Nodup) (structs : Option (List Text)) (writesOnly : Bool)
    {reMatch : Text → Option (Text → Bool)} (hvalid : ∀ d ∈ rules, (reMatch d.rule).isSome = true) :
    ∃ hypothesisDict groundtruthDict resultsDict,
      readHypothesesDict float (r.output sorting .csv members) = .ok hypothesisDict ∧
      readGroundtruth structs (groundtruthFile rules) = .ok groundtruthDict ∧
      checkRules reMatch writesOnly hypothesisDict groundtruthDict = .ok resultsDict ∧
      (∀ datatype,
        let considered := consideredRules structs writesOnly rules datatype
        resultsDict.get? datatype =
          (if considered = [] then none else some (ruleResults reMatch r float sorting members considered)) ∧
        ∀ results ∈ resultsDict.get? datatype,
          results.full + results.found + results.notfound = results.count ∧
            results.count + results.noobservations = considered.length) ∧
      ∃ datatypes : List Text, datatypes.Nodup ∧
        (∀ name, name ∈ datatypes ↔ consideredRules structs writesOnly rules (some name) ≠ []) ∧
        summary resultsDict = Text.row ',' summaryHeader ++ datatypes.flatMap fun name =>
          (ruleResults reMatch r float sorting members (consideredRules structs writesOnly rules (some name))).row name := by
  obtain ⟨hypothesisDict, hdict, -⟩ := readHypothesesDict_output hr hm hkeys .csv
  have hselected : ((rules.filter (selectedBy structs)).map DocumentedRule.key).Nodup :=
    hnodup.sublist (List.filter_sublist.map _)
  obtain ⟨resultsDict, hrun, hdistinct, hget⟩ := checkRules_eq hr hm hkeys hdict writesOnly hselected
    fun d hd => hvalid d (List.mem_of_mem_filter hd)
  have hconsidered : ∀ datatype,
      (((rules.filter (selectedBy structs)).filter fun d => !(writesOnly && d.accesstype = ['r'])).filter
        fun d => some d.datatype = datatype) = consideredRules structs writesOnly rules datatype := by
    intro datatype
    rw [List.filter_filter, List.filter_filter]
    refine List.filter_congr fun d _ => ?_
    cases selectedBy structs d <;> simp [Bool.and_comm]
  have hlookup : ∀ datatype, resultsDict.get? datatype =
      if consideredRules structs writesOnly rules datatype = [] then none
      else some (ruleResults reMatch r float sorting members (consideredRules structs writesOnly rules datatype)) := by
    intro datatype
    have hany : (((rules.filter (selectedBy structs)).filter fun d => !(writesOnly && d.accesstype = ['r'])).any
        fun d => some d.datatype = datatype) = decide (consideredRules structs writesOnly rules datatype ≠ []) := by
      rw [← hconsidered, Bool.eq_iff_iff, decide_eq_true_eq, Ne, List.filter_eq_nil_iff, List.any_eq_true]
      simp only [not_forall, not_not, exists_prop]
    rw [hget, hconsidered, hany]
    simp only [decide_eq_true_eq, ne_eq, ite_not]
  refine ⟨hypothesisDict, _, resultsDict, hdict, readGroundtruth_file hreadable hnodup structs, hrun,
    fun datatype => ⟨hlookup datatype, fun results hresults => ?_⟩, ?_⟩
  · rw [hlookup] at hresults
    split at hresults
    · cases hresults
    · obtain rfl := Option.some.inj hresults
      exact ruleResults_sum ..
  · obtain ⟨datatypes, hdatatypes, hnamed, hlines⟩ := lines_of_dict hdistinct
      ((hlookup none).trans (by simp [consideredRules]))
      (fun name => consideredRules structs writesOnly rules (some name) ≠ [])
      (fun name => ruleResults reMatch r float sorting members (consideredRules structs writesOnly rules (some name)))
      (fun name => by rw [hlookup, ite_not])
    exact ⟨datatypes, hdatatypes, hnamed, by rw [summary, hlines fun name results => results.row name]⟩

/-- Half of the writes are under the lock of the rule, and there are no reads. -/
theorem inodeRules_checked : ∃ winner, Selects (.bottomup (1 / 2)) 0 eitherLock winner ∧
    ∃ hypothesisDict groundtruthDict resultsDict,
      readHypothesesDict plainFloat (eitherReport.output .insertion .csv [winner]) = .ok hypothesisDict ∧
      readGroundtruth none (groundtruthFile inodeRules) = .ok groundtruthDict ∧
      checkRules (fun rule => some fun locks => rule = locks) false hypothesisDict groundtruthDict = .ok resultsDict ∧
      (resultsDict.get? (some "inode".toList)).map (fun results =>
        (results.count, results.full, results.found, results.notfound, results.noobservations)) = some (1, 0, 1, 0, 1) := by
  have hcheck : okAnd (findHypotheses 30 eitherLock 0) (fun found =>
      okAnd (selectWinner 30 (.bottomup (1 / 2)) found) (fun winner =>
        winner.datatype.all isNameChar && winner.name.all isNameChar && isNameChar winner.accesstype &&
          ((winner.observedOrders .insertion).all fun found => (eitherReport.row winner found).all fun column =>
            decide (column.length ≤ fieldSizeLimit)) &&
          (let results := ruleResults (fun rule => some fun locks => rule = locks) eitherReport plainFloat .insertion
            [winner] inodeRules
           (results.count, results.full, results.found, results.notfound, results.noobservations) =
             (1, 0, 1, 0, 1)))) = true := by
    decide +kernel
  obtain ⟨found, hf, hcheck⟩ := okAnd_iff.mp hcheck
  obtain ⟨winner, hw, hcheck⟩ := okAnd_iff.mp hcheck
  simp only [Bool.and_eq_true, decide_eq_true_eq] at hcheck
  obtain ⟨⟨⟨⟨hdatatype, hname⟩, haccess⟩, hshort⟩, hcount⟩ := hcheck
  simp only [List.all_eq_true, decide_eq_true_eq] at hshort
  have hselects : Selects (.bottomup (1 / 2)) 0 eitherLock winner :=
    ⟨found, (findHypotheses_stable _ _).yields hf, (selectWinner_stable _ _).yields hw⟩
  have hreport : ReadableReport eitherReport plainFloat := plainReport_readable (by decide +kernel) (by decide +kernel)
  have hmembers : ∀ member ∈ [winner], ReadableMember eitherReport .insertion member := by
    simpa using ⟨⟨⟨eitherLock, _, 0, eitherLock_observed, hselects, eitherLock_known⟩, hdatatype, hname, haccess⟩, hshort⟩
  obtain ⟨hypothesisDict, groundtruthDict, resultsDict, hdict, hgroundtruth, hresults, hget, -⟩ :=
    @rules_checked _ _ _ _ _ _ hreport _ _ hmembers (by simp) _ inodeRules_readable (by decide) none false
      (fun rule => some fun locks => rule = locks) (fun _ _ => rfl)
  refine ⟨winner, hselects, hypothesisDict, groundtruthDict, resultsDict, hdict, hgroundtruth, hresults, ?_⟩
  have hfilter : consideredRules none false inodeRules (some "inode".toList) = inodeRules :=
    List.filter_eq_self.mpr (by decide)
  rw [(hget _).1, hfilter, if_neg (by simp [inodeRules]), Option.map_some]
  exact congrArg some hcount

end LockDoc.Processing
