import LockDoc.Hypothesizer.OrderText
import LockDoc.Processing.Util

/-!
# Reading a report back

`readHypothesesDict` on what the hypothesizer prints. The columns of a row hold no delimiter,
line end or quote, so the reader gives back the rows, and the conflict list is split where its
commas are. Every lock order of a member is a row of its own.
-/
namespace LockDoc.Processing

open Worklist LockDoc.Hypothesizer

/-- A character of the names of locks, members and types. -/
def isNameChar (c : Char) : Bool := isFieldChar c && c != ' ' && c != ','

variable {F : Type} [Zero F]

/-- The locks and the number formats of a report that the scripts can read. -/
structure ReadableReport (r : Report) (float : Text → Option F) : Prop where
  cutoff : r.cutoffThreshold = 0
  locks : ∀ name ∈ r.locks, name ≠ [] ∧ name.all isNameChar = true
  distinct : r.locks.Nodup
  percentage : ∀ n m, (r.percentage n m).all isFieldChar = true ∧ (float (r.percentage n m)).isSome
  confidence : ∀ n m, (r.confidence n m).all isFieldChar = true ∧ (confidenceOf float (r.confidence n m)).isSome

/-- `winner` is what a selection makes of a member whose locks are those of the report. -/
def IsSelected (r : Report) (winner : Member) : Prop :=
  ∃ member strategy maxHypoLen, member.Observed ∧ Selects strategy maxHypoLen member winner ∧
    ∀ lc ∈ member.combinations, ∀ id ∈ lc.locksHeld, id < r.locks.length

structure NamedMember (r : Report) (member : Member) : Prop where
  selected : IsSelected r member
  names : member.datatype.all isNameChar = true ∧ member.name.all isNameChar = true ∧
    isNameChar member.accesstype = true

structure ReadableMember (r : Report) (sorting : Sorting) (member : Member) : Prop extends NamedMember r member where
  short : ∀ found ∈ member.observedOrders sorting, ∀ column ∈ r.row member found, column.length ≤ fieldSizeLimit

def keyOf (member : Member) : HypothesesKey :=
  (some member.datatype, some member.name, some [member.accesstype])

/-- The orders whose rows a mode prints. -/
def printed (sorting : Sorting) (mode : ReportMode) (member : Member) : List (List MyId × Nat) :=
  (member.observedOrders sorting).filter fun found => member.prints mode found.1

/-- What the scripts are to hold of a row. -/
def entryOf (r : Report) (float : Text → Option F) (member : Member) (found : List MyId × Nat) : LocksHeldEntry F where
  occurrences := found.2
  total := member.occurrences
  percentage := (float (r.percentage found.2 member.occurrences)).getD 0
  accepted := member.acceptedAs found.1
  confidence := (confidenceOf float (r.confidence found.2 member.occurrences)).getD 0
  counterexampleParameters := some (r.bugsql member found.1 true (member.occurrences - found.2))
  conflictlist := if member.acceptedAs found.1 = 1 then member.conflictList.tail.map fun e => r.order e.2 else []

theorem IsSelected.selected {r : Report} {member : Member} (h : IsSelected r member) :
    ∃ member₀, Selected member₀ member ∧ ∀ lc ∈ member₀.combinations, ∀ id ∈ lc.locksHeld, id < r.locks.length := by
  obtain ⟨member₀, strategy, maxHypoLen, ho, hs, hids⟩ := h
  exact ⟨member₀, hs.selected ho, hids⟩

/-- The locks of a listed order are known. -/
theorem IsSelected.known {r : Report} {member : Member} (h : IsSelected r member) {sorting : Sorting}
    {found : List MyId × Nat} (hf : found ∈ member.observedOrders sorting) : ∀ id ∈ found.1, id < r.locks.length := by
  obtain ⟨member₀, hs, hids⟩ := h.selected
  obtain ⟨lc, hlc, hheld⟩ := hs.held_of_mem sorting hf
  exact fun id hid => hids lc hlc id (hheld id hid)

/-- The orders of the conflict list are listed, so their locks are known. -/
theorem IsSelected.conflict_known {r : Report} {member : Member} (h : IsSelected r member) (sorting : Sorting)
    {e : List MyId × List MyId} (he : e ∈ member.conflictList) : ∀ id ∈ e.2, id < r.locks.length := by
  obtain ⟨member₀, hs, -⟩ := h.selected
  obtain ⟨n, hn, -⟩ := hs.mem_of_entry sorting he
  exact h.known hn

/-- A character of a printed order. -/
def isOrderChar (c : Char) : Bool := isFieldChar c && c != ','

theorem isOrderChar_of_name {c : Char} (h : isNameChar c = true) : isOrderChar c = true := by
  simp only [isNameChar, isOrderChar, Bool.and_eq_true] at h ⊢
  exact ⟨h.1.1, h.2⟩

theorem all_of_imp {p q : Char → Bool} (hpq : ∀ c, p c = true → q c = true) {text : Text} (h : text.all p = true) :
    text.all q = true :=
  List.all_eq_true.mpr fun c hc => hpq c (List.all_eq_true.mp h c hc)

theorem isFieldChar_of_order {c : Char} (h : isOrderChar c = true) : isFieldChar c = true :=
  (Bool.and_eq_true _ _ ▸ h).1

theorem isFieldChar_of_name {c : Char} (h : isNameChar c = true) : isFieldChar c = true :=
  isFieldChar_of_order (isOrderChar_of_name h)

theorem ofNat_fieldChars (n : Nat) : (Text.ofNat n).all isFieldChar = true := by
  refine List.all_eq_true.mpr fun c hc => ?_
  have hd := Text.isDigit_of_mem_ofNat hc
  simp only [Char.isDigit, Bool.and_eq_true, decide_eq_true_eq] at hd
  rw [isFieldChar_iff]
  have hle : c.toNat ≤ 57 := hd.2
  have hge : 48 ≤ c.toNat := hd.1
  refine ⟨by omega, ?_, ?_, ?_, ?_⟩ <;>
    · rintro rfl
      revert hge hle
      decide

section

variable {r : Report} {float : Text → Option F} (hr : ReadableReport r float)

include hr

theorem ReadableReport.lock_name {id : MyId} (hid : id < r.locks.length) :
    r.locks.getD id [] ≠ [] ∧ (r.locks.getD id []).all isNameChar = true := by
  rw [List.getD_eq_getElem _ _ hid]
  exact hr.locks _ (List.getElem_mem hid)

theorem ReadableReport.order_chars {l : List MyId} (hl : ∀ id ∈ l, id < r.locks.length) :
    (r.order l).all isOrderChar = true :=
  all_locks2string (by decide +kernel) (by decide +kernel) rfl fun id hid =>
    all_of_imp (fun _ => isOrderChar_of_name) (hr.lock_name (hl id hid)).2

theorem ReadableReport.order_ne_nil {l : List MyId} (hl : ∀ id ∈ l, id < r.locks.length) : r.order l ≠ [] := by
  intro he
  rw [Report.order, locks2string] at he
  split at he
  · exact absurd he (by decide +kernel)
  · rename_i hne
    obtain ⟨id, rest, rfl⟩ := List.exists_cons_of_ne_nil hne
    refine (hr.lock_name (hl id List.mem_cons_self)).1 ?_
    cases rest with
    | nil => simpa using he
    | cons next rest =>
      rw [List.map_cons, List.map_cons, List.intercalate_cons_cons] at he
      simp at he

theorem ReadableReport.bugsql_chars {member : Member} (hnames : member.datatype.all isNameChar = true ∧
    member.name.all isNameChar = true ∧ isNameChar member.accesstype = true) {l : List MyId}
    (hl : ∀ id ∈ l, id < r.locks.length) (n : Nat) : (r.bugsql member l true n).all isFieldChar = true := by
  obtain ⟨hdatatype, hname, haccess⟩ := hnames
  unfold Report.bugsql
  split
  · have hlocks : (locks2string r.locks l [' '] ['\'']).all isFieldChar = true :=
      all_locks2string (by decide +kernel) (by decide) (by decide) fun id hid =>
        all_of_imp (fun _ => isFieldChar_of_name) (hr.lock_name (hl id hid)).2
    have hcombined : member.combinedName.all isFieldChar = true := by
      rw [Member.combinedName, List.all_cons, List.all_cons, isFieldChar_of_name haccess,
        all_of_imp (fun _ => isFieldChar_of_name) hname]
      decide
    simp only [List.all_append, hlocks, hcombined, all_of_imp (fun _ => isFieldChar_of_name) hdatatype,
      Bool.and_true]
    decide +kernel
  · decide +kernel

variable {sorting : Sorting} {member : Member}

/-- The conflict list of the winner is split where it was joined. -/
theorem ReadableMember.conflictListOf_conflicts (hm : ReadableMember r sorting member) (hw : member.winnerFound = true) :
    conflictListOf (r.conflicts member.winningHypothesis member.conflictList) =
      member.conflictList.tail.map fun e => r.order e.2 := by
  obtain ⟨member₀, hs, -⟩ := hm.selected.selected
  have hknown : ∀ e ∈ member.conflictList.tail, ∀ id ∈ e.2, id < r.locks.length := fun e he =>
    hm.selected.conflict_known sorting (List.mem_of_mem_tail he)
  rw [hs.conflicts_winner r hw, conflictListOf]
  generalize member.conflictList.tail = entries at hknown ⊢
  cases entries with
  | nil => rfl
  | cons e rest =>
    have hcomma : ∀ text ∈ (e :: rest).map fun e => r.order e.2, ',' ∉ text := by
      intro text htext hmem
      obtain ⟨e', he', rfl⟩ := List.mem_map.mp htext
      have hall := List.all_eq_true.mp (hr.order_chars (hknown e' he')) ',' hmem
      exact absurd hall (by decide)
    have hsplit := List.splitOn_intercalate ',' hcomma (by simp)
    rw [if_neg, hsplit]
    intro hempty
    have hnil := hr.order_ne_nil (hknown e List.mem_cons_self)
    rw [hempty] at hsplit
    cases rest with
    | nil => exact hnil (by simpa using hsplit.symm)
    | cons e' rest => simp at hsplit

/-- No column of a row holds a delimiter, a line end or a quote. -/
theorem NamedMember.row_chars (hm : NamedMember r member) {found : List MyId × Nat}
    (hf : found ∈ member.observedOrders sorting) : ∀ column ∈ r.row member found, column.all isFieldChar = true := by
  obtain ⟨hdatatype, hname, haccess⟩ := hm.names
  have hknown := hm.selected.known hf
  intro column hcolumn
  have hconflicts : (r.conflicts found.1 member.conflictList).all isFieldChar = true := by
    have hall : ∀ entries : List (List MyId × List MyId), (∀ e ∈ entries, ∀ id ∈ e.2, id < r.locks.length) →
        (r.conflicts found.1 entries).all isFieldChar = true := by
      intro entries h
      induction entries with
      | nil => rfl
      | cons e rest ih =>
        have ih := ih fun e' he' => h e' (List.mem_cons_of_mem _ he')
        rw [Report.conflicts]
        split
        · exact ih
        · rw [List.all_append, List.all_append, ih,
            all_of_imp (fun _ => isFieldChar_of_order) (hr.order_chars (h e List.mem_cons_self))]
          split <;> decide
    exact hall _ fun e he => hm.selected.conflict_known sorting he
  rw [Report.row, Report.columns] at hcolumn
  simp only [List.mem_cons, List.not_mem_nil, or_false] at hcolumn
  rcases hcolumn with rfl | rfl | rfl | rfl | rfl | rfl | rfl | rfl | rfl | rfl | rfl
  · exact all_of_imp (fun _ => isFieldChar_of_name) hdatatype
  · exact all_of_imp (fun _ => isFieldChar_of_name) hname
  · simpa using isFieldChar_of_name haccess
  · exact all_of_imp (fun _ => isFieldChar_of_order) (hr.order_chars hknown)
  · split
    · exact hconflicts
    · rfl
  · exact ofNat_fieldChars _
  · exact ofNat_fieldChars _
  · exact (hr.percentage _ _).1
  · exact ofNat_fieldChars _
  · exact (hr.confidence _ _).1
  · exact hr.bugsql_chars hm.names hknown _

/-- The reader gives back every column of a row. -/
theorem ReadableMember.row_readable (hm : ReadableMember r sorting member) {found : List MyId × Nat}
    (hf : found ∈ member.observedOrders sorting) : ∀ column ∈ r.row member found, Readable column := fun column hc =>
  ⟨hm.row_chars hr hf column hc, hm.short found hf column hc⟩

end

/-- What a line must hold for its entry. -/
theorem locksHeldEntry_ok {float : Text → Option F} {line : Text → Except PyError (Option Text)}
    {confidence conflictlist occurrences total percentage accepted : Text} {counterexampleParameters : Option Text}
    {n m k : Int} {p c : F}
    (hconfidence : line "confidence".toList = .ok (some confidence)) (hc : confidenceOf float confidence = some c)
    (hconflictlist : line "conflictlist".toList = .ok (some conflictlist))
    (hoccurrences : line "occurrences".toList = .ok (some occurrences)) (hn : pyInt occurrences = some n)
    (htotal : line "total".toList = .ok (some total)) (hm : pyInt total = some m)
    (hpercentage : line "percentage".toList = .ok (some percentage)) (hp : float percentage = some p)
    (haccepted : line "accepted".toList = .ok (some accepted)) (hk : pyInt accepted = some k)
    (hparameters : line "counterexample-parameters".toList = .ok counterexampleParameters) :
    locksHeldEntry float line = .ok ⟨n, m, p, k, c, counterexampleParameters, conflictListOf conflictlist⟩ := by
  have hconvert : ∀ {α : Type} {read : Text → Option α} {text : Text} {a : α}, read text = some a →
      convert read (some text) = .ok a := by
    intro α read text a h
    rw [convert, Option.elim_some, h, Option.elim_some]
  rw [locksHeldEntry, hconfidence, hconflictlist, hoccurrences, htotal, hpercentage, haccepted, hparameters]
  change (convert _ _ >>= _) = _
  rw [hconvert hc]
  change (convert pyInt _ >>= _) = _
  rw [hconvert hn]
  change (convert pyInt _ >>= _) = _
  rw [hconvert hm]
  change (convert float _ >>= _) = _
  rw [hconvert hp]
  change (convert pyInt _ >>= _) = _
  rw [hconvert hk]
  rfl

theorem csvHeader_readable : ∀ column ∈ csvHeader, Readable column := by
  have hall : csvHeader.all fun column => column.all isFieldChar && decide (column.length ≤ fieldSizeLimit) := by
    decide +kernel
  intro column hcolumn
  have hcol := List.all_eq_true.mp hall column hcolumn
  rw [Bool.and_eq_true, decide_eq_true_eq] at hcol
  exact ⟨hcol.1, hcol.2⟩

/-- A column of the report. -/
theorem cell_csvHeader {name : Text} {i : Nat}
    (h : csvHeader.contains name = true ∧ csvHeader.length - 1 - csvHeader.reverse.idxOf name = i) (row : List Text) :
    cell csvHeader row name = .ok row[i]? := by
  rw [cell, if_pos h.1, h.2]

theorem acceptedAs_column (member : Member) (order : List MyId) :
    (if decide (member.acceptedAs order = 1) = true then 1
      else if decide (member.acceptedAs order = 2) = true then 2 else 0) = member.acceptedAs order := by
  unfold Member.acceptedAs
  split_ifs <;> simp_all

section

variable {r : Report} {float : Text → Option F} (hr : ReadableReport r float) {sorting : Sorting} {member : Member}
  (hm : ReadableMember r sorting member)

include hr hm

theorem ReadableMember.locksHeldEntry_row {found : List MyId × Nat} :
    locksHeldEntry float (cell csvHeader (r.row member found)) = .ok (entryOf r float member found) := by
  obtain ⟨p, hp⟩ := Option.isSome_iff_exists.mp (hr.percentage found.2 member.occurrences).2
  obtain ⟨c, hc⟩ := Option.isSome_iff_exists.mp (hr.confidence found.2 member.occurrences).2
  have haccepted := pyInt_ofNat (if decide (member.acceptedAs found.1 = 1) = true then 1
      else if decide (member.acceptedAs found.1 = 2) = true then 2 else 0)
  rw [locksHeldEntry_ok (cell_csvHeader (i := 9) (by decide +kernel) _) hc
    (cell_csvHeader (i := 4) (by decide +kernel) _) (cell_csvHeader (i := 5) (by decide +kernel) _) (pyInt_ofNat _)
    (cell_csvHeader (i := 6) (by decide +kernel) _) (pyInt_ofNat _) (cell_csvHeader (i := 7) (by decide +kernel) _) hp
    (cell_csvHeader (i := 8) (by decide +kernel) _) haccepted (cell_csvHeader (i := 10) (by decide +kernel) _)]
  have hconflictlist : conflictListOf
      (if decide (member.acceptedAs found.1 = 1) = true then r.conflicts found.1 member.conflictList else []) =
        (entryOf r float member found).conflictlist := by
    by_cases ha : member.acceptedAs found.1 = 1
    · obtain ⟨hw, hwinner⟩ := acceptedAs_eq_one.mp ha
      rw [if_pos (decide_eq_true ha), ← hwinner, hm.conflictListOf_conflicts hr hw, entryOf, if_pos ha]
    · rw [if_neg (by simpa using ha), entryOf, if_neg ha]
      rfl
  rw [hconflictlist, acceptedAs_column, entryOf, hp, hc]
  rfl

/-- A row puts its entry under the key of the member and the text of the order. -/
theorem ReadableMember.readLine_row {found : List MyId × Nat} (d : HypothesesDict F)
    (hfresh : some (r.order found.1) ∉ ((d.get? (keyOf member)).getD []).map Prod.fst) :
    readLine float csvHeader d (r.row member found) =
      .ok (d.collect (keyOf member, some (r.order found.1), entryOf r float member found)) := by
  rw [readLine, cell_csvHeader (i := 0) (by decide +kernel), cell_csvHeader (i := 1) (by decide +kernel),
    cell_csvHeader (i := 2) (by decide +kernel), cell_csvHeader (i := 3) (by decide +kernel), hm.locksHeldEntry_row hr]
  change (if some (r.order found.1) ∈ ((d.get? (keyOf member)).getD []).map Prod.fst then _ else _) = _
  rw [if_neg hfresh]
  rfl

/-- Different orders of a member are different texts. -/
theorem ReadableMember.order_nodup : ((member.observedOrders sorting).map fun found => r.order found.1).Nodup := by
  obtain ⟨member₀, hs, -⟩ := hm.selected.selected
  have hblank : ∀ name ∈ r.locks, ' ' ∉ name := fun name hname hmem =>
    absurd (List.all_eq_true.mp (hr.locks name hname).2 ' ' hmem) (by decide)
  have hnodup := hs.observedOrders_nodup sorting
  have hmap : ((member.observedOrders sorting).map fun found => r.order found.1) =
      ((member.observedOrders sorting).map Prod.fst).map r.order := by
    rw [List.map_map]
    rfl
  rw [hmap]
  refine hnodup.map_on fun x hx y hy he => ?_
  obtain ⟨f, hf, rfl⟩ := List.mem_map.mp hx
  obtain ⟨g, hg, rfl⟩ := List.mem_map.mp hy
  exact order_inj hr.distinct hblank (hm.selected.known hf) (hm.selected.known hg) he

end

/-- The output as rows. -/
theorem output_eq {r : Report} (hcut : r.cutoffThreshold ≤ 0) {sorting : Sorting} (mode : ReportMode)
    {members : List Member} (hs : ∀ member ∈ members, IsSelected r member) :
    r.output sorting mode members =
      (csvHeader :: members.flatMap fun member => (printed sorting mode member).map (r.row member)).flatMap
        (Text.row ';') := by
  rw [Report.output, List.flatMap_cons, List.flatMap_assoc]
  congr 1
  refine List.flatMap_congr fun member hm => ?_
  obtain ⟨member₀, hsel, -⟩ := (hs member hm).selected
  rw [hsel.printHypotheses sorting hcut, List.flatMap_map]
  rfl

theorem printed_subset {sorting : Sorting} {mode : ReportMode} {member : Member} :
    (printed sorting mode member).Sublist (member.observedOrders sorting) := List.filter_sublist

/-- The entries of the rows that a mode prints, by member and order. -/
def reportEntries (r : Report) (float : Text → Option F) (sorting : Sorting) (mode : ReportMode) (members : List Member) :
    List (HypothesesKey × Option Text × LocksHeldEntry F) :=
  members.flatMap fun member => ((printed sorting mode member).map fun found =>
    (some (r.order found.1), entryOf r float member found)).map fun e => (keyOf member, e)

/-- Every printed row is entered once. -/
theorem readHypothesesDict_entries {r : Report} {float : Text → Option F} (hr : ReadableReport r float)
    {sorting : Sorting} {members : List Member} (hm : ∀ member ∈ members, ReadableMember r sorting member)
    (hkeys : (members.map keyOf).Nodup) (mode : ReportMode) :
    ((reportEntries r float sorting mode members).map fun x => (x.1, x.2.1)).Nodup ∧
      readHypothesesDict float (r.output sorting mode members) =
        .ok ((reportEntries r float sorting mode members).foldl Dict.collect []) := by
  -- All printed rows, each with its member.
  let rows : List (Member × List MyId × Nat) :=
    members.flatMap fun member => (printed sorting mode member).map fun found => (member, found)
  let out : Member × List MyId × Nat → HypothesesKey × Option Text × LocksHeldEntry F :=
    fun x => (keyOf x.1, some (r.order x.2.1), entryOf r float x.1 x.2)
  have hmem : ∀ x ∈ rows, x.1 ∈ members ∧ x.2 ∈ x.1.observedOrders sorting := by
    intro x hx
    obtain ⟨member, hmember, hx⟩ := List.mem_flatMap.mp hx
    obtain ⟨found, hfound, rfl⟩ := List.mem_map.mp hx
    exact ⟨hmember, printed_subset.subset hfound⟩
  have houtput : r.output sorting mode members =
      (csvHeader :: rows.map fun x => r.row x.1 x.2).flatMap (Text.row ';') := by
    rw [output_eq hr.cutoff.le mode fun member h => (hm member h).selected, List.map_flatMap]
    simp only [List.map_map]
    rfl
  have hreadable : ∀ row ∈ csvHeader :: rows.map fun x => r.row x.1 x.2,
      2 ≤ row.length ∧ ∀ column ∈ row, Readable column := by
    intro row hrow
    rcases List.mem_cons.mp hrow with rfl | hrow
    · exact ⟨by decide, csvHeader_readable⟩
    · obtain ⟨x, hx, rfl⟩ := List.mem_map.mp hrow
      exact ⟨Nat.le_add_left _ _, (hm x.1 (hmem x hx).1).row_readable hr (hmem x hx).2⟩
  have hascii : ∀ c ∈ r.output sorting mode members, c.toNat < 128 ∧ c ≠ '\r' := by
    intro c hc
    rw [houtput] at hc
    obtain ⟨row, hrow, hc⟩ := List.mem_flatMap.mp hc
    exact row_chars (fun column hcolumn => ((hreadable row hrow).2 column hcolumn).chars) hc
  obtain ⟨hdecode, huniversal⟩ := decode_universal hascii
  have hgroup : rows.map out = reportEntries r float sorting mode members := by
    simp only [rows, reportEntries, List.map_flatMap, List.map_map]
    rfl
  have hnodup : ((rows.map out).map fun x => (x.1, x.2.1)).Nodup := by
    rw [hgroup]
    refine Dict.nodup_flatMap hkeys fun member hmember => ?_
    rw [List.map_map]
    have hsub : (printed sorting mode member).Sublist (member.observedOrders sorting) := printed_subset
    have horders := ((hm member hmember).order_nodup hr).sublist (hsub.map _)
    have hsome := horders.map (Option.some_injective _)
    rw [List.map_map] at hsome
    exact hsome
  have hlines : (rows.map fun x => r.row x.1 x.2).foldlM (readLine float csvHeader) [] =
      .ok ((rows.map out).foldl Dict.collect []) := by
    refine foldlM_readLine (fun x hx d hfresh => (hm x.1 (hmem x hx).1).readLine_row hr d hfresh) ?_
    rw [List.map_map] at hnodup
    exact hnodup
  have hdata : dataRows (csvHeader :: rows.map fun x => r.row x.1 x.2) = rows.map fun x => r.row x.1 x.2 := by
    rw [dataRows, List.tail_cons, List.filter_eq_self]
    intro row hrow
    obtain ⟨x, -, rfl⟩ := List.mem_map.mp hrow
    rfl
  rw [← hgroup]
  refine ⟨hnodup, ?_⟩
  rw [readHypothesesDict, hdecode]
  change (readCsv ';' (universalNewlines (r.output sorting mode members)) >>= _) = _
  rw [huniversal, houtput, readCsv_rows hreadable]
  change (dataRows _).foldlM _ _ = _
  rw [hdata]
  exact hlines

/-- What the dictionary holds after the report was read. -/
theorem readHypothesesDict_output {r : Report} {float : Text → Option F} (hr : ReadableReport r float)
    {sorting : Sorting} {members : List Member} (hm : ∀ member ∈ members, ReadableMember r sorting member)
    (hkeys : (members.map keyOf).Nodup) (mode : ReportMode) :
    ∃ dict, readHypothesesDict float (r.output sorting mode members) = .ok dict ∧
      ∀ member ∈ members, dict.get? (keyOf member) =
        if printed sorting mode member = [] then none
        else some ((printed sorting mode member).map fun found =>
          (some (r.order found.1), entryOf r float member found)) := by
  obtain ⟨hnodup, hread⟩ := readHypothesesDict_entries hr hm hkeys mode
  refine ⟨_, hread, fun member hmember => ?_⟩
  rw [Dict.get?_collect hnodup, reportEntries, Dict.under_flatMap hkeys hmember]
  simp

/-- An order that is listed once is the only one that a mode with the winner alone prints. -/
theorem filter_winner {found : List (List MyId × Nat)} {order : List MyId} {n : Nat} (h : (order, n) ∈ found)
    (hnodup : (found.map Prod.fst).Nodup) : (found.filter fun f => decide (order = f.1)) = [(order, n)] := by
  induction found with
  | nil => cases h
  | cons f found ih =>
    rw [List.map_cons, List.nodup_cons] at hnodup
    rcases List.mem_cons.mp h with rfl | h
    · rw [List.filter_cons_of_pos (by simp), List.filter_eq_nil_iff.mpr]
      intro g hg he
      have horder : order = g.1 := of_decide_eq_true he
      exact hnodup.1 (List.mem_map.mpr ⟨g, hg, horder.symm⟩)
    · have hne : order ≠ f.1 := by
        rintro rfl
        exact hnodup.1 (List.mem_map.mpr ⟨_, h, rfl⟩)
      rw [List.filter_cons_of_neg (by simpa using hne), ih h hnodup.2]

/-- Whole percentages, and confidences of whole counts and of halves. -/
def plainReport (locks : List Text) : Report where
  locks := locks
  cutoffThreshold := 0
  percentage n m := Text.ofNat (100 * n / m)
  confidence n m := if 2 * n = m then "0.5".toList else Text.ofNat (n / m)

def plainFloat (text : Text) : Option ℚ :=
  if text = "0.5".toList then some (1 / 2) else (pyInt text).map fun i => i

theorem plainReport_readable {locks : List Text} (hnames : ∀ name ∈ locks, name ≠ [] ∧ name.all isNameChar = true)
    (hnodup : locks.Nodup) : ReadableReport (plainReport locks) plainFloat := by
  have hfloat : ∀ n, (plainFloat (Text.ofNat n)).isSome := by
    intro n
    unfold plainFloat
    split
    · rfl
    · rw [pyInt_ofNat]
      rfl
  refine ⟨rfl, hnames, hnodup, fun n m => ⟨ofNat_fieldChars _, hfloat _⟩, fun n m => ?_⟩
  unfold plainReport confidenceOf
  dsimp only
  split
  · exact ⟨by decide +kernel, by decide +kernel⟩
  · refine ⟨ofNat_fieldChars _, ?_⟩
    split
    · rfl
    · exact hfloat _

/-- Two locks of which one is held at every access. -/
def eitherLock : Member :=
  { Member.new "inode".toList "w:i_size".toList with
    combinations := [⟨3, [0]⟩, ⟨3, [1]⟩], occurrences := 6, occurrencesWithLocks := 6 }

def eitherReport : Report := plainReport ["i_lock".toList, "rcu".toList]

theorem eitherLock_observed : eitherLock.Observed := ⟨⟨rfl, rfl⟩, by decide, by decide, by decide⟩

theorem eitherLock_known : ∀ lc ∈ eitherLock.combinations, ∀ id ∈ lc.locksHeld, id < eitherReport.locks.length := by
  decide

end LockDoc.Processing
