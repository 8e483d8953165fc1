import LockDoc.Processing.Refusal

/-!
# Documented rules

`locking-rule-minig-verify.py` compares the documented locking rules with the winners that the
hypothesizer reports. A documented rule is a regular expression; it is compared with the winner
of its member and with the entries of the conflict list, which the script takes apart from one
column. What it counts are the rules of members with an accepted lock order.
-/
namespace LockDoc.Processing

open FallibleRun Worklist LockDoc.Hypothesizer

variable {F : Type} [Zero F]

/-- How a script ends before its time: by an exception, or by `sys.exit(1)`. -/
inductive Stop where
  | raised
  | exited
  deriving DecidableEq, Repr

abbrev Groundtruth := Dict HypothesesKey (Option Text)

/-- The body of the loop over the lines; `structs` is the option `--struct`. -/
def readRule (structs : Option (List Text)) (fieldnames : List Text) (groundtruthDict : Groundtruth)
    (row : List Text) : Except PyError Groundtruth := do
  let line := cell fieldnames row
  let datatype ← line "datatype".toList
  if structs.any (fun names => datatype.all fun name => !names.contains name) then .ok groundtruthDict
  else do
    let key : HypothesesKey := (datatype, ← line "member".toList, ← line "accesstype".toList)
    let rule ← line "rule".toList
    .ok (groundtruthDict.set key rule)

def readGroundtruth (structs : Option (List Text)) (groundtruthCSV : Text) : Except PyError Groundtruth := do
  let text ← decodeAscii groundtruthCSV
  let rows ← readCsv ';' (universalNewlines text)
  (dataRows rows).foldlM (readRule structs (rows.headD [])) []

/-- What the script counts for a data type. -/
structure MinedRules where
  observedRulesR : Nat := 0
  observedRulesW : Nat := 0
  matchedRulesR : Nat := 0
  matchedRulesW : Nat := 0
  deriving DecidableEq, Repr

def MinedRules.observe (c : MinedRules) (accesstype : Option Text) : Except Stop MinedRules :=
  if accesstype = some ['w'] then .ok { c with observedRulesW := c.observedRulesW + 1 }
  else if accesstype = some ['r'] then .ok { c with observedRulesR := c.observedRulesR + 1 }
  else .error .exited

def MinedRules.found (c : MinedRules) (accesstype : Option Text) : MinedRules :=
  if accesstype = some ['w'] then { c with matchedRulesW := c.matchedRulesW + 1 }
  else if accesstype = some ['r'] then { c with matchedRulesR := c.matchedRulesR + 1 }
  else c

/-- The first key comes twice. -/
def locksHeldList (locksHeldDict : Dict (Option Text) (LocksHeldEntry F)) : List (Option Text) :=
  (locksHeldDict.map Prod.fst).take 1 ++
    locksHeldDict.flatMap fun e => e.1 :: e.2.conflictlist.map some

section

-- `re.match('^' + rule + '$', _)`, or nothing if `re` does not accept the rule.
variable (reMatch : Text → Option (Text → Bool))

/-- The loop over the locks. -/
def searchLocks (rule : Option Text) : List (Option Text) → Except Stop Bool
  | [] => .ok false
  | locksHeld :: rest =>
    match rule, locksHeld with
    | some lockingRule, some locks =>
      match reMatch lockingRule with
      | some expression => if expression locks then .ok true else searchLocks rule rest
      | none => .error .raised
    | _, _ => .error .raised

/-- The body of the loop over the documented rules. The message about a key in the winner file
only is an exception itself, as is the one about a second hypothesis. -/
def verifyRule (hypoAllDict hypoWinnerDict : HypothesesDict F) (results : Dict (Option Text) MinedRules)
    (item : HypothesesKey × Option Text) : Except Stop (Dict (Option Text) MinedRules) :=
  let c := (results.get? item.1.1).getD {}
  match hypoWinnerDict.get? item.1 with
  | some locksHeldDict =>
    if hypoAllDict.get? item.1 = none then .error .raised
    else do
      let c ← c.observe item.1.2.2
      if 1 < locksHeldDict.length then .error .raised
      else do
        let found ← searchLocks reMatch item.2 (locksHeldList locksHeldDict)
        .ok (results.set item.1.1 (if found then c.found item.1.2.2 else c))
  | none =>
    if (hypoAllDict.get? item.1).isSome then do
      let c ← c.observe item.1.2.2
      .ok (results.set item.1.1 c)
    else .ok (results.set item.1.1 c)

def verifyRules (hypoAllDict hypoWinnerDict : HypothesesDict F) (groundtruthDict : Groundtruth) :
    Except Stop (Dict (Option Text) MinedRules) :=
  groundtruthDict.foldlM (verifyRule reMatch hypoAllDict hypoWinnerDict) []

end

/-- `%s` of a value that may be missing. -/
def showValue (value : Option Text) : Text := value.getD "None".toList

/-- A line of the table; `percentage` prints `util.calcPercentage`. -/
def MinedRules.row (percentage : Nat → Nat → Text) (name : Text) (c : MinedRules) : Text :=
  let observed := c.observedRulesR + c.observedRulesW
  let matched := c.matchedRulesR + c.matchedRulesW
  Text.row ';' [name, Text.ofNat observed, Text.ofNat c.observedRulesR, Text.ofNat c.observedRulesW,
    Text.ofNat matched, Text.ofNat c.matchedRulesR, Text.ofNat c.matchedRulesW, percentage observed matched,
    percentage c.observedRulesR c.matchedRulesR, percentage c.observedRulesW c.matchedRulesW]

/-- The sums of the last line. -/
def allRules (results : Dict (Option Text) MinedRules) : MinedRules where
  observedRulesR := Dict.total MinedRules.observedRulesR results
  observedRulesW := Dict.total MinedRules.observedRulesW results
  matchedRulesR := Dict.total MinedRules.matchedRulesR results
  matchedRulesW := Dict.total MinedRules.matchedRulesW results

def verifyHeader : List Text :=
  ["data_type".toList, "observedrules".toList, "observedrules_r".toList, "observedrules_w".toList, "matched".toList,
    "matched_r".toList, "matched_w".toList, "percentage".toList, "percentage_r".toList, "percentage_w".toList]

/-- The table that is printed. -/
def verifyOutput (percentage : Nat → Nat → Text) (results : Dict (Option Text) MinedRules) : Text :=
  Text.row ';' verifyHeader ++ results.flatMap (fun e => e.2.row percentage (showValue e.1)) ++
    (allRules results).row percentage "total".toList

/-! ## What the rules are compared with -/

section

variable {r : Report} {float : Text → Option F} (hr : ReadableReport r float) {sorting : Sorting} {members : List Member}

/-- The rule matches these locks. -/
def matchesLocks (reMatch : Text → Option (Text → Bool)) (rule locks : Text) : Bool :=
  (reMatch rule).any fun expression => expression locks

/-- There are accesses to the member of the rule. -/
def observedIn (members : List Member) (item : HypothesesKey × Option Text) : Bool :=
  members.any fun member => keyOf member = item.1

/-- The rule matches an order that was accepted for its member. -/
def acceptedIn (reMatch : Text → Option (Text → Bool)) (r : Report) (members : List Member)
    (item : HypothesesKey × Option Text) : Bool :=
  members.any fun member => keyOf member = item.1 && member.winnerFound &&
    item.2.any fun rule => member.conflictList.any fun e => matchesLocks reMatch rule (r.order e.2)

/-- The count of the rules by the kind of access. -/
def countRules (reMatch : Text → Option (Text → Bool)) (r : Report) (members : List Member)
    (items : List (HypothesesKey × Option Text)) : MinedRules where
  observedRulesR := items.countP fun item => item.1.2.2 = some ['r'] && observedIn members item
  observedRulesW := items.countP fun item => item.1.2.2 = some ['w'] && observedIn members item
  matchedRulesR := items.countP fun item => item.1.2.2 = some ['r'] && acceptedIn reMatch r members item
  matchedRulesW := items.countP fun item => item.1.2.2 = some ['w'] && acceptedIn reMatch r members item

include hr

/-- What is found under a key: the rows of its member, if there is one. -/
theorem get?_entries (hm : ∀ member ∈ members, ReadableMember r sorting member) (hkeys : (members.map keyOf).Nodup)
    (mode : ReportMode) {dict : HypothesesDict F}
    (hdict : readHypothesesDict float (r.output sorting mode members) = .ok dict) :
    (∀ member ∈ members, dict.get? (keyOf member) =
      if printed sorting mode member = [] then none
      else some ((printed sorting mode member).map fun found => (some (r.order found.1), entryOf r float member found))) ∧
    ∀ key, key ∉ members.map keyOf → dict.get? key = none := by
  obtain ⟨hnodup, hread⟩ := readHypothesesDict_entries hr hm hkeys mode
  obtain rfl := Except.ok.inj (hdict.symm.trans hread)
  refine ⟨fun member hmember => ?_, fun key hkey => ?_⟩
  · rw [Dict.get?_collect hnodup, reportEntries, Dict.under_flatMap hkeys hmember]
    simp
  · have hempty : Dict.under (reportEntries r float sorting mode members) key = [] := by
      refine List.eq_nil_iff_forall_not_mem.mpr fun e he => hkey ?_
      obtain ⟨member, hmember, he⟩ := List.mem_flatMap.mp (Dict.mem_under.mp he)
      obtain ⟨e', -, he⟩ := List.mem_map.mp he
      exact List.mem_map.mpr ⟨member, hmember, congrArg Prod.fst he⟩
    rw [Dict.get?_collect hnodup, if_pos hempty]

omit hr in
/-- With a winner the mode `csvwinner` prints its row alone. -/
theorem printed_csvwinner (sorting : Sorting) {member : Member} (h : IsSelected r member) (hw : member.winnerFound = true) :
    ∃ n, printed sorting .csvwinner member = [(member.winningHypothesis, n)] := by
  obtain ⟨member₀, hs, -⟩ := h.selected
  obtain ⟨w, rest, hfront⟩ := hs.front hw
  obtain ⟨n, hn, -⟩ := hs.mem_of_entry sorting (e := (w, member.winningHypothesis)) (by
    rw [hfront]
    exact List.mem_cons_self)
  have hprints : (fun f : List MyId × Nat => member.prints .csvwinner f.1) =
      fun f => decide (member.winningHypothesis = f.1) := by
    funext f
    simp [Member.prints, hw]
  exact ⟨n, by rw [printed, hprints, filter_winner hn (hs.observedOrders_nodup sorting)]⟩

omit hr in
theorem printed_noWinner {member : Member} (hw : member.winnerFound = false) :
    printed sorting .csvwinner member = [] := by
  rw [printed, List.filter_eq_nil_iff]
  intro f _
  simp [Member.prints, hw]

omit hr [Zero F] in
theorem searchLocks_some {reMatch : Text → Option (Text → Bool)} {rule : Text} (hvalid : (reMatch rule).isSome = true)
    (locks : List Text) :
    searchLocks reMatch (some rule) (locks.map some) = .ok (locks.any (matchesLocks reMatch rule)) := by
  obtain ⟨expression, he⟩ := Option.isSome_iff_exists.mp hvalid
  induction locks with
  | nil => rfl
  | cons l locks ih =>
    rw [List.map_cons, searchLocks, List.any_cons, matchesLocks, he, Option.any_some]
    cases h : expression l with
    | true => simp [h]
    | false => simpa [h] using ih

omit hr in
/-- The winner and the column of the conflict list make up the conflict list. -/
theorem locksHeldList_winner (float : Text → Option F) {member : Member} (hm : ReadableMember r sorting member)
    (hw : member.winnerFound = true) (reMatch : Text → Option (Text → Bool)) (rule : Text) :
    ∃ locks : List Text, locksHeldList ((printed sorting .csvwinner member).map fun found =>
        (some (r.order found.1), entryOf r float member found)) = locks.map some ∧
      locks.any (matchesLocks reMatch rule) =
        member.conflictList.any fun e => matchesLocks reMatch rule (r.order e.2) := by
  obtain ⟨n, hprinted⟩ := printed_csvwinner sorting hm.selected hw
  obtain ⟨member₀, hs, -⟩ := hm.selected.selected
  obtain ⟨w, rest, hfront⟩ := hs.front hw
  have haccepted : member.acceptedAs member.winningHypothesis = 1 := by simp [Member.acceptedAs, hw]
  refine ⟨r.order member.winningHypothesis :: r.order member.winningHypothesis ::
    member.conflictList.tail.map fun e => r.order e.2, ?_, ?_⟩
  · rw [hprinted]
    simp [locksHeldList, entryOf, haccepted]
  · rw [hfront]
    simp [Function.comp_def]

/-- One more rule. -/
def MinedRules.add (observed accepted : Bool) (accesstype : Option Text) (c : MinedRules) : MinedRules where
  observedRulesR := c.observedRulesR + if accesstype = some ['r'] && observed then 1 else 0
  observedRulesW := c.observedRulesW + if accesstype = some ['w'] && observed then 1 else 0
  matchedRulesR := c.matchedRulesR + if accesstype = some ['r'] && accepted then 1 else 0
  matchedRulesW := c.matchedRulesW + if accesstype = some ['w'] && accepted then 1 else 0

variable (hm : ∀ member ∈ members, ReadableMember r sorting member) (hkeys : (members.map keyOf).Nodup)
  (hkinds : ∀ member ∈ members, member.accesstype = 'r' ∨ member.accesstype = 'w')

omit hr in
include hkeys in
/-- The member of a rule is the only one. -/
theorem accepted_member {member : Member} (hmember : member ∈ members) (item : HypothesesKey × Option Text)
    (hkey : keyOf member = item.1) (reMatch : Text → Option (Text → Bool)) :
    acceptedIn reMatch r members item = (member.winnerFound &&
      item.2.any fun rule => member.conflictList.any fun e => matchesLocks reMatch rule (r.order e.2)) := by
  rw [Bool.eq_iff_iff, acceptedIn, List.any_eq_true]
  constructor
  · rintro ⟨m, hm, h⟩
    simp only [Bool.and_eq_true, decide_eq_true_eq] at h
    obtain rfl := List.inj_on_of_nodup_map hkeys hm hmember (h.1.1.trans hkey.symm)
    simpa using ⟨h.1.2, h.2⟩
  · intro h
    rw [Bool.and_eq_true] at h
    exact ⟨member, hmember, by simp [hkey, h]⟩

include hm hkeys hkinds

theorem verifyRule_eq {hypoAllDict hypoWinnerDict : HypothesesDict F}
    (hall : readHypothesesDict float (r.output sorting .csv members) = .ok hypoAllDict)
    (hwinner : readHypothesesDict float (r.output sorting .csvwinner members) = .ok hypoWinnerDict)
    {reMatch : Text → Option (Text → Bool)} (results : Dict (Option Text) MinedRules) (key : HypothesesKey) {rule : Text}
    (hvalid : (reMatch rule).isSome = true) :
    verifyRule reMatch hypoAllDict hypoWinnerDict results (key, some rule) = .ok (results.update {} key.1
      (MinedRules.add (observedIn members (key, some rule)) (acceptedIn reMatch r members (key, some rule)) key.2.2)) := by
  obtain ⟨hallGet, hallNone⟩ := get?_entries hr hm hkeys .csv hall
  obtain ⟨hwinGet, hwinNone⟩ := get?_entries hr hm hkeys .csvwinner hwinner
  by_cases hkey : key ∈ members.map keyOf
  · obtain ⟨member, hmember, rfl⟩ := List.mem_map.mp hkey
    have hobserved : observedIn members (keyOf member, some rule) = true :=
      List.any_eq_true.mpr ⟨member, hmember, decide_eq_true rfl⟩
    have haccepted := accepted_member (r := r) hkeys hmember (keyOf member, some rule) rfl reMatch
    have hone : ∀ c : MinedRules, c.observe (keyOf member).2.2 = .ok (c.add true false (keyOf member).2.2) := by
      intro c
      rcases hkinds member hmember with hk | hk <;> simp [MinedRules.observe, MinedRules.add, keyOf, hk]
    have htwo : ∀ c : MinedRules, (c.add true false (keyOf member).2.2).found (keyOf member).2.2 =
        c.add true true (keyOf member).2.2 := by
      intro c
      rcases hkinds member hmember with hk | hk <;> simp [MinedRules.found, MinedRules.add, keyOf, hk]
    have hsome : hypoAllDict.get? (keyOf member) ≠ none := by
      obtain ⟨found, rest, hfound⟩ := (hm member hmember).selected.exists_row sorting
      have hprinted : printed sorting .csv member = found :: rest := by
        rw [printed, hfound, List.filter_eq_self.mpr]
        exact fun _ _ => rfl
      rw [hallGet member hmember, hprinted]
      simp
    cases hw : member.winnerFound with
    | true =>
      obtain ⟨n, hprinted⟩ := printed_csvwinner sorting (hm member hmember).selected hw
      obtain ⟨locks, hlocks, hany⟩ := locksHeldList_winner float (hm member hmember) hw reMatch rule
      have hget := hwinGet member hmember
      rw [hprinted] at hget hlocks
      rw [verifyRule, hget, if_neg (by simp)]
      simp only [hsome, if_false, hone]
      change (if 1 < 1 then Except.error Stop.raised else _) = _
      rw [if_neg (by decide), hlocks, searchLocks_some hvalid]
      change Except.ok (results.set _ _) = _
      rw [hany, haccepted, hw, hobserved, Dict.update]
      simp only [Bool.true_and, Option.any_some]
      cases member.conflictList.any fun e => matchesLocks reMatch rule (r.order e.2) with
      | true => rw [if_pos rfl, htwo]
      | false => rw [if_neg Bool.false_ne_true]
    | false =>
      have hget := hwinGet member hmember
      rw [printed_noWinner hw, if_pos rfl] at hget
      rw [verifyRule, hget]
      simp only [Option.isSome_iff_ne_none.mpr hsome, if_true, hone]
      rw [haccepted, hw, hobserved]
      rfl
  · have hobserved : observedIn members (key, some rule) = false := by
      rw [observedIn, List.any_eq_false]
      intro member hmember he
      exact hkey (List.mem_map.mpr ⟨member, hmember, of_decide_eq_true he⟩)
    have haccepted : acceptedIn reMatch r members (key, some rule) = false := by
      rw [acceptedIn, List.any_eq_false]
      intro member hmember he
      simp only [Bool.and_eq_true, decide_eq_true_eq] at he
      exact hkey (List.mem_map.mpr ⟨member, hmember, he.1.1⟩)
    rw [verifyRule, hwinNone key hkey]
    simp only [hallNone key hkey, Option.isSome_none, Bool.false_eq_true, if_false]
    rw [hobserved, haccepted, Dict.update]
    simp [MinedRules.add]

end

/-- The counts of a list of rules, one rule at a time. -/
theorem foldl_add (reMatch : Text → Option (Text → Bool)) (r : Report) (members : List Member)
    (items : List (HypothesesKey × Option Text)) :
    items.foldl (fun c item =>
        MinedRules.add (observedIn members item) (acceptedIn reMatch r members item) item.1.2.2 c) {} =
      countRules reMatch r members items := by
  induction items using List.reverseRecOn with
  | nil => rfl
  | append_singleton items item ih =>
    rw [List.foldl_append, ih]
    simp [countRules, MinedRules.add, List.countP_append, List.countP_singleton]

/-! ## The file of documented rules -/

/-- A line of the file. -/
structure DocumentedRule where
  datatype : Text
  member : Text
  accesstype : Text
  rule : Text
  comment : Text
  origin : Text

namespace DocumentedRule

def columns (d : DocumentedRule) : List Text := [d.datatype, d.member, d.accesstype, d.rule, d.comment, d.origin]

def key (d : DocumentedRule) : HypothesesKey := (some d.datatype, some d.member, some d.accesstype)

def item (d : DocumentedRule) : HypothesesKey × Option Text := (d.key, some d.rule)

end DocumentedRule

def groundtruthHeader : List Text :=
  ["datatype".toList, "member".toList, "accesstype".toList, "rule".toList, "comment".toList, "origin".toList]

def groundtruthFile (rules : List DocumentedRule) : Text :=
  (groundtruthHeader :: rules.map DocumentedRule.columns).flatMap (Text.row ';')

/-- The data types that the option `--struct` leaves. -/
def selectedBy (structs : Option (List Text)) (d : DocumentedRule) : Bool :=
  structs.all fun names => names.contains d.datatype

theorem readRule_columns (structs : Option (List Text)) (groundtruthDict : Groundtruth) (d : DocumentedRule) :
    readRule structs groundtruthHeader groundtruthDict d.columns =
      .ok (if selectedBy structs d then groundtruthDict.set d.key (some d.rule) else groundtruthDict) := by
  have hcell : ∀ {name : Text} {i : Nat}, groundtruthHeader.contains name = true ∧
      groundtruthHeader.length - 1 - groundtruthHeader.reverse.idxOf name = i →
      cell groundtruthHeader d.columns name = .ok d.columns[i]? := by
    intro name i h
    rw [cell, if_pos h.1, h.2]
  rw [readRule, hcell (i := 0) (by decide +kernel), hcell (i := 1) (by decide +kernel), hcell (i := 2) (by decide +kernel),
    hcell (i := 3) (by decide +kernel)]
  change (if (structs.any fun names => !names.contains d.datatype) = true then _ else _) = _
  cases structs with
  | none => rfl
  | some names =>
    rw [Option.any_some, selectedBy, Option.all_some]
    cases names.contains d.datatype <;> rfl

/-- The dictionary has the rules of the file, in their order. -/
theorem readGroundtruth_file {rules : List DocumentedRule} (hreadable : ∀ d ∈ rules, ∀ column ∈ d.columns, Readable column)
    (hnodup : (rules.map DocumentedRule.key).Nodup) (structs : Option (List Text)) :
    readGroundtruth structs (groundtruthFile rules) = .ok ((rules.filter (selectedBy structs)).map DocumentedRule.item) := by
  have hall : ∀ row ∈ groundtruthHeader :: rules.map DocumentedRule.columns,
      2 ≤ row.length ∧ ∀ column ∈ row, Readable column := by
    intro row hrow
    rcases List.mem_cons.mp hrow with rfl | hrow
    · have hheader : groundtruthHeader.all fun column =>
          column.all isFieldChar && decide (column.length ≤ fieldSizeLimit) := by
        decide +kernel
      refine ⟨by decide, fun column hcolumn => ?_⟩
      have hcol := List.all_eq_true.mp hheader column hcolumn
      rw [Bool.and_eq_true, decide_eq_true_eq] at hcol
      exact ⟨hcol.1, hcol.2⟩
    · obtain ⟨d, hd, rfl⟩ := List.mem_map.mp hrow
      exact ⟨Nat.le_add_left 2 4, hreadable d hd⟩
  have hchars : ∀ c ∈ groundtruthFile rules, c.toNat < 128 ∧ c ≠ '\r' := by
    intro c hc
    obtain ⟨row, hrow, hc⟩ := List.mem_flatMap.mp hc
    exact row_chars (fun column hcolumn => ((hall row hrow).2 column hcolumn).chars) hc
  obtain ⟨hdecode, huniversal⟩ := decode_universal hchars
  have hdata : dataRows (groundtruthHeader :: rules.map DocumentedRule.columns) = rules.map DocumentedRule.columns := by
    rw [dataRows, List.tail_cons, List.filter_eq_self]
    intro row hrow
    obtain ⟨d, -, rfl⟩ := List.mem_map.mp hrow
    rfl
  have hlines : ∀ (rules : List DocumentedRule) (seen : Groundtruth),
      (seen.map Prod.fst ++ rules.map DocumentedRule.key).Nodup →
      (rules.map DocumentedRule.columns).foldlM (readRule structs groundtruthHeader) seen =
        .ok (seen ++ (rules.filter (selectedBy structs)).map DocumentedRule.item) := by
    intro rules
    induction rules with
    | nil => simp [pure, Except.pure]
    | cons d rules ih =>
      intro seen hseen
      rw [List.map_cons, List.foldlM_cons, readRule_columns]
      change List.foldlM _ _ _ = _
      rw [List.map_cons, List.nodup_append] at hseen
      have hfresh : d.key ∉ seen.map Prod.fst := fun h => hseen.2.2 _ h _ List.mem_cons_self rfl
      have hrest := (List.nodup_cons.mp hseen.2.1)
      cases hd : selectedBy structs d with
      | true =>
        rw [if_pos rfl, Dict.set_fresh hfresh, ih, List.filter_cons_of_pos hd]
        · simp [DocumentedRule.item]
        · rw [List.map_append, List.append_assoc, List.nodup_append]
          exact ⟨hseen.1, hseen.2.1, hseen.2.2⟩
      | false =>
        rw [if_neg Bool.false_ne_true, ih, List.filter_cons_of_neg (by simp [hd])]
        rw [List.nodup_append]
        exact ⟨hseen.1, hrest.2, fun a ha b hb => hseen.2.2 a ha b (List.mem_cons_of_mem _ hb)⟩
  rw [readGroundtruth, hdecode]
  change (readCsv ';' (universalNewlines (groundtruthFile rules)) >>= _) = _
  rw [huniversal, groundtruthFile, readCsv_rows hall]
  change (dataRows _).foldlM _ _ = _
  rw [hdata]
  exact hlines rules [] (by simpa using hnodup)

/-- The lines of a table for the entries of a dictionary, told by the names that have one. -/
theorem lines_of_dict {ν : Type} {d : Dict (Option Text) ν} (hd : (d.map Prod.fst).Nodup) (hnone : d.get? none = none)
    (named : Text → Prop) [DecidablePred named] (value : Text → ν)
    (hget : ∀ name, d.get? (some name) = if named name then some (value name) else none) :
    ∃ names : List Text, names.Nodup ∧ (∀ name, name ∈ names ↔ named name) ∧
      ∀ line : Text → ν → Text, (d.flatMap fun e => line (showValue e.1) e.2) =
        names.flatMap fun name => line name (value name) := by
  have hentry : ∀ e ∈ d, e.1 = some (showValue e.1) ∧ e.2 = value (showValue e.1) := by
    rintro ⟨k, v⟩ he
    have hv := Dict.get?_of_mem hd he
    cases k with
    | none => rw [hnone] at hv; cases hv
    | some name =>
      rw [hget, Option.ite_none_right_eq_some] at hv
      exact ⟨rfl, (Option.some.inj hv.2).symm⟩
  have hkeys : (d.map fun e => showValue e.1).map some = d.map Prod.fst := by
    rw [List.map_map]
    exact List.map_congr_left fun e he => (hentry e he).1.symm
  refine ⟨d.map fun e => showValue e.1, List.Nodup.of_map some (hkeys ▸ hd), fun name => ?_, fun line => ?_⟩
  · have hmem : name ∈ (d.map fun e => showValue e.1) ↔ some name ∈ d.map Prod.fst := by
      rw [← hkeys, List.mem_map_of_injective (Option.some_injective _)]
    rw [hmem, Dict.mem_keys, hget]
    by_cases h : named name <;> simp [h]
  · rw [List.flatMap_map]
    exact List.flatMap_congr fun e he => congrArg (line _) (hentry e he).2

/-- What a documented rule adds to the counts of its data type. -/
def DocumentedRule.count (reMatch : Text → Option (Text → Bool)) (r : Report) (members : List Member)
    (d : DocumentedRule) : MinedRules → MinedRules :=
  MinedRules.add (observedIn members d.item) (acceptedIn reMatch r members d.item) (some d.accesstype)

theorem foldl_count (reMatch : Text → Option (Text → Bool)) (r : Report) (members : List Member)
    (rules : List DocumentedRule) :
    rules.foldl (fun c d => d.count reMatch r members c) {} =
      countRules reMatch r members (rules.map DocumentedRule.item) := by
  rw [← foldl_add, List.foldl_map]
  rfl

/-- The loop over the rules. -/
theorem verifyRules_eq {r : Report} {float : Text → Option F} (hr : ReadableReport r float) {sorting : Sorting}
    {members : List Member} (hm : ∀ member ∈ members, ReadableMember r sorting member)
    (hkeys : (members.map keyOf).Nodup) (hkinds : ∀ member ∈ members, member.accesstype = 'r' ∨ member.accesstype = 'w')
    {hypoAllDict hypoWinnerDict : HypothesesDict F}
    (hall : readHypothesesDict float (r.output sorting .csv members) = .ok hypoAllDict)
    (hwinner : readHypothesesDict float (r.output sorting .csvwinner members) = .ok hypoWinnerDict)
    {reMatch : Text → Option (Text → Bool)} {rules : List DocumentedRule}
    (hvalid : ∀ d ∈ rules, (reMatch d.rule).isSome = true) :
    verifyRules reMatch hypoAllDict hypoWinnerDict (rules.map DocumentedRule.item) =
      .ok (Dict.accumulate {} (fun d => some d.datatype) (DocumentedRule.count reMatch r members) rules) := by
  induction rules using List.reverseRecOn with
  | nil => rfl
  | append_singleton rules d ih =>
    have hstep := verifyRule_eq hr hm hkeys hkinds hall hwinner
      (Dict.accumulate {} (fun d => some d.datatype) (DocumentedRule.count reMatch r members) rules) d.key
      (hvalid d (by simp))
    rw [List.map_append, verifyRules, foldlM_append_ok (ih fun d hd => hvalid d (List.mem_append_left _ hd)),
      Dict.accumulate_append]
    change (verifyRule reMatch hypoAllDict hypoWinnerDict _ (d.key, some d.rule) >>= pure) = _
    rw [hstep]
    rfl

/-- The script counts the documented rules of the members that are observed, and those that match an
order that the selection accepted. The lines of its table are for the data types of the rules, each
once, and the last line counts all of them. -/
theorem rules_verified {r : Report} {float : Text → Option F} (hr : ReadableReport r float) {sorting : Sorting}
    {members : List Member} (hm : ∀ member ∈ members, ReadableMember r sorting member) (hkeys : (members.map keyOf).Nodup)
    (hkinds : ∀ member ∈ members, member.accesstype = 'r' ∨ member.accesstype = 'w') {rules : List DocumentedRule}
    (hreadable : ∀ d ∈ rules, ∀ column ∈ d.columns, Readable column) (hnodup : (rules.map DocumentedRule.key).Nodup)
    {reMatch : Text → Option (Text → Bool)} (hvalid : ∀ d ∈ rules, (reMatch d.rule).isSome = true) :
    ∃ hypoAllDict hypoWinnerDict groundtruthDict results,
      readHypothesesDict float (r.output sorting .csv members) = .ok hypoAllDict ∧
      readHypothesesDict float (r.output sorting .csvwinner members) = .ok hypoWinnerDict ∧
      readGroundtruth none (groundtruthFile rules) = .ok groundtruthDict ∧
      verifyRules reMatch hypoAllDict hypoWinnerDict groundtruthDict = .ok results ∧
      (∀ datatype, results.get? datatype =
        if rules.any (fun d => some d.datatype = datatype) then
          some (countRules reMatch r members ((rules.filter fun d => some d.datatype = datatype).map DocumentedRule.item))
        else none) ∧
      allRules results = countRules reMatch r members (rules.map DocumentedRule.item) ∧
      ∃ datatypes : List Text, datatypes.Nodup ∧ (∀ name, name ∈ datatypes ↔ ∃ d ∈ rules, d.datatype = name) ∧
        ∀ percentage, verifyOutput percentage results = Text.row ';' verifyHeader ++
          (datatypes.flatMap fun name => (countRules reMatch r members
            ((rules.filter fun d => d.datatype = name).map DocumentedRule.item)).row percentage name) ++
          (countRules reMatch r members (rules.map DocumentedRule.item)).row percentage "total".toList := by
  obtain ⟨hypoAllDict, hall, -⟩ := readHypothesesDict_output hr hm hkeys .csv
  obtain ⟨hypoWinnerDict, hwinner, -⟩ := readHypothesesDict_output hr hm hkeys .csvwinner
  have hgroundtruth := readGroundtruth_file hreadable hnodup none
  have hselected : rules.filter (selectedBy none) = rules := List.filter_eq_self.mpr fun _ _ => rfl
  rw [hselected] at hgroundtruth
  let results := Dict.accumulate {} (fun d : DocumentedRule => some d.datatype)
    (DocumentedRule.count reMatch r members) rules
  have hget : ∀ datatype, results.get? datatype = if rules.any (fun d => some d.datatype = datatype) then
      some (countRules reMatch r members ((rules.filter fun d => some d.datatype = datatype).map DocumentedRule.item))
      else none := fun datatype => by rw [Dict.get?_accumulate, foldl_count]
  have htotal : allRules results = countRules reMatch r members (rules.map DocumentedRule.item) := by
    have hsum : ∀ (m : MinedRules → Nat) (amount : DocumentedRule → Nat), m {} = 0 →
        (∀ d v, m (d.count reMatch r members v) = m v + amount d) →
        Dict.total m results = m (countRules reMatch r members (rules.map DocumentedRule.item)) := by
      intro m amount hinit hadd
      rw [Dict.total_accumulate hinit hadd, foldl_count]
    rw [allRules, hsum _ _ rfl fun d v => rfl, hsum _ _ rfl fun d v => rfl, hsum _ _ rfl fun d v => rfl,
      hsum _ _ rfl fun d v => rfl]
  obtain ⟨datatypes, hdatatypes, hnamed, hlines⟩ := lines_of_dict (Dict.nodup_accumulate _ _ _ rules)
    ((hget none).trans (by simp)) (fun name => rules.any (fun d => some d.datatype = some name) = true)
    (fun name => countRules reMatch r members ((rules.filter fun d => d.datatype = name).map DocumentedRule.item))
    (fun name => by simpa only [Option.some.injEq] using hget (some name))
  refine ⟨hypoAllDict, hypoWinnerDict, _, results, hall, hwinner, hgroundtruth,
    verifyRules_eq hr hm hkeys hkinds hall hwinner hvalid, hget, htotal, datatypes, hdatatypes, ?_, ?_⟩
  · intro name
    rw [hnamed]
    simp
  · intro percentage
    rw [verifyOutput, htotal, hlines fun name c => c.row percentage name]

/-- A rule for writes, which an entry behind the winner meets, and one for reads, which there are not. -/
def inodeRules : List DocumentedRule :=
  [⟨"inode".toList, "i_size".toList, ['w'], "rcu".toList, [], "fs.h".toList⟩,
    ⟨"inode".toList, "i_size".toList, ['r'], "i_lock".toList, [], "fs.h".toList⟩]

theorem inodeRules_readable : ∀ d ∈ inodeRules, ∀ column ∈ d.columns, Readable column := by
  have hcolumns : inodeRules.all fun d => d.columns.all fun column =>
      column.all isFieldChar && decide (column.length ≤ fieldSizeLimit) := by decide +kernel
  intro d hd column hcolumn
  have hcol := List.all_eq_true.mp (List.all_eq_true.mp hcolumns d hd) column hcolumn
  rw [Bool.and_eq_true, decide_eq_true_eq] at hcol
  exact ⟨hcol.1, hcol.2⟩

/-- Expressions that match themselves only. -/
theorem inodeRules_verified : ∃ winner, Selects (.bottomup (1 / 2)) 0 eitherLock winner ∧
    ∃ hypoAllDict hypoWinnerDict groundtruthDict results,
      readHypothesesDict plainFloat (eitherReport.output .insertion .csv [winner]) = .ok hypoAllDict ∧
      readHypothesesDict plainFloat (eitherReport.output .insertion .csvwinner [winner]) = .ok hypoWinnerDict ∧
      readGroundtruth none (groundtruthFile inodeRules) = .ok groundtruthDict ∧
      verifyRules (fun rule => some fun locks => rule = locks) hypoAllDict hypoWinnerDict groundtruthDict = .ok results ∧
      results.get? (some "inode".toList) = some { observedRulesW := 1, matchedRulesW := 1 } := by
  have hcheck : okAnd (findHypotheses 30 eitherLock 0) (fun found =>
      okAnd (selectWinner 30 (.bottomup (1 / 2)) found) (fun winner =>
        winner.datatype.all isNameChar && winner.name.all isNameChar && winner.accesstype = 'w' &&
          ((winner.observedOrders .insertion).all fun found => (eitherReport.row winner found).all fun column =>
            decide (column.length ≤ fieldSizeLimit)) &&
          countRules (fun rule => some fun locks => rule = locks) eitherReport [winner] (inodeRules.map DocumentedRule.item) =
            { observedRulesW := 1, matchedRulesW := 1 })) = true := by
    decide +kernel
  obtain ⟨found, hf, hcheck⟩ := okAnd_iff.mp hcheck
  obtain ⟨winner, hw, hcheck⟩ := okAnd_iff.mp hcheck
  simp only [Bool.and_eq_true, decide_eq_true_eq] at hcheck
  obtain ⟨⟨⟨⟨hdatatype, hname⟩, haccess⟩, hshort⟩, hcount⟩ := hcheck
  simp only [List.all_eq_true, decide_eq_true_eq] at hshort
  have hselects : Selects (.bottomup (1 / 2)) 0 eitherLock winner :=
    ⟨found, (findHypotheses_stable _ _).yields hf, (selectWinner_stable _ _).yields hw⟩
  have hmember : ReadableMember eitherReport .insertion winner :=
    ⟨⟨⟨eitherLock, _, 0, eitherLock_observed, hselects, eitherLock_known⟩, hdatatype, hname,
      by rw [haccess]; decide⟩, hshort⟩
  have hreport : ReadableReport eitherReport plainFloat := plainReport_readable (by decide +kernel) (by decide +kernel)
  have hmembers : ∀ member ∈ [winner], ReadableMember eitherReport .insertion member := by simpa using hmember
  obtain ⟨hypoAllDict, hypoWinnerDict, groundtruthDict, results, hall, hwinner, hgroundtruth, hresults, hget, -⟩ :=
    @rules_verified _ _ _ _ hreport _ _ hmembers (by simp) (by simp [haccess]) _ inodeRules_readable (by decide)
      (fun rule => some fun locks => rule = locks) (fun _ _ => rfl)
  refine ⟨winner, hselects, hypoAllDict, hypoWinnerDict, groundtruthDict, results, hall, hwinner, hgroundtruth, hresults, ?_⟩
  have hfilter : (inodeRules.filter fun d => some d.datatype = some "inode".toList) = inodeRules :=
    List.filter_eq_self.mpr (by decide)
  rw [hget, if_pos (by decide), hfilter, hcount]

end LockDoc.Processing
