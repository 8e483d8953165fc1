import LockDoc.Lib.Group
import LockDoc.Hypothesizer.Copy
import LockDoc.Hypothesizer.Support
import LockDoc.Convert.Main
import LockDoc.Queries.LabelText

/-!
# The input of the hypothesizer

`create-txn-members-locks.sh` generates the query whose result, as `psql` prints it, the
hypothesizer reads. Accesses of a transaction to one member of an allocation are folded into
one; the query puts the members of a transaction into one string and its locks into another,
and counts equal rows. None of this changes what the hypothesizer counts.
-/
namespace LockDoc.Queries

open LockDoc.Convert (AccessKind)
open LockDoc.Hypothesizer
open Worklist

/-- A row of `accesses_flat`. -/
structure FlatAccess where
  id : Nat
  txnId : Option Nat
  allocId : Nat
  acType : AccessKind
  subclassId : Nat
  dataTypeId : Nat
  memberNameId : Nat
  byteOffset : Nat
  stacktraceId : Nat
  deriving DecidableEq, Repr

/-- The tables the query reads; `held` has the rows of `locks_held` that belong to a transaction,
by their distinct start times, with what the other tables say about their locks. The data type of
a flat access is that of its subclass. -/
structure Database where
  accessesFlat : List FlatAccess
  memberName : Nat → String
  dataTypeName : Nat → String
  subclass : Nat → Nat × Option String
  held : Nat → List HeldLock
  ordered : ∀ txn, (held txn).Pairwise (fun k l => k.start < l.start)
  typed : ∀ a ∈ accessesFlat, (subclass a.subclassId).1 = a.dataTypeId

/-- The arguments of the script; `none` is `any`. -/
structure Options where
  dataType : Option String
  member : Option String
  useSubclasses : Bool
  useWor : Bool

/-- `${TYPE_ID_COLUMN}`. -/
def Options.typeId (o : Options) (subclassId dataTypeId : Nat) : Nat :=
  if o.useSubclasses then subclassId else dataTypeId

/-- A row of the innermost subquery. -/
structure Folded where
  allocId : Nat
  txnId : Nat
  acType : AccessKind
  subclassId : Nat
  memberNameId : Nat
  byteOffset : Nat
  dataTypeId : Nat
  deriving DecidableEq, Repr

/-- A row of the subquery `withlocks`. -/
structure WithLocks where
  typeId : Nat
  typeName : Text
  membersAccessed : Text
  locksHeld : Text
  deriving DecidableEq, Repr

/-- `string_agg(…, ',')`. -/
def stringAgg (texts : List Text) : Text := [','].intercalate texts

/-- An access as the hypothesizer counts it: the member, and the labels of the locks held. -/
abbrev Observation := MemberKey × List Text

namespace Database

variable (db : Database) (o : Options)

/-- `${DATATYPE_FILTER} ${MEMBER_FILTER}`. -/
def selected : List FlatAccess :=
  db.accessesFlat.filter fun a =>
    o.dataType.all (fun name => db.dataTypeName a.dataTypeId = name) &&
      o.member.all (fun name => db.memberName a.memberNameId = name)

/-- `${TYPE_NAME_COLUMN}`, for a data type and a subclass that the query joins. -/
def typeName (subclassId dataTypeId : Nat) : Text :=
  typeText (db.dataTypeName dataTypeId) (if o.useSubclasses then (db.subclass subclassId).2 else none)

def memberText (acType : AccessKind) (memberNameId : Nat) : Text :=
  acType.action :: ':' :: (db.memberName memberNameId).toList

/-- The flat accesses within transactions. -/
def inTxns : List Folded :=
  (db.selected o).filterMap fun a =>
    a.txnId.map fun txn => ⟨a.allocId, txn, a.acType, a.subclassId, a.memberNameId, a.byteOffset, a.dataTypeId⟩

/-- The folded accesses: with `wor`, a write stands for the reads of the same member as well. -/
def fac : List Folded :=
  if o.useWor then
    (Group.groups (fun f => { f with acType := .read }) (db.inTxns o)).map fun g =>
      { g.1 with acType := if g.2.any (fun f => f.acType = .write) then .write else .read }
  else (db.inTxns o).dedup

/-- The labels of the locks that a transaction holds, for an access to an allocation. -/
def labels (txn allocId : Nat) : List Text := (db.held txn).map fun l => (label o.useSubclasses allocId l).text

/-- Accesses within one transaction and allocation are concatenated, ordered by member; the join
with `locks_held` leaves out a transaction without locks. -/
def concatgroups : List WithLocks :=
  (Group.groups (fun f => (f.allocId, f.txnId, o.typeId f.subclassId f.dataTypeId,
      db.typeName o f.subclassId (db.subclass f.subclassId).1)) (db.fac o)).filterMap fun g =>
    if db.held g.1.2.1 = [] then none
    else some
      { typeId := g.1.2.2.1
        typeName := g.1.2.2.2
        membersAccessed := stringAgg ((g.2.mergeSort fun f f' =>
          f.byteOffset < f'.byteOffset || (f.byteOffset = f'.byteOffset && (f.acType = .read || f'.acType = .write))).map
            fun f => db.memberText f.acType f.memberNameId)
        locksHeld := stringAgg (db.labels o g.1.2.1 g.1.1) }

/-- Accesses without locks stand for themselves. -/
def lockFree : List FlatAccess := (db.selected o).filter fun a => a.txnId = none

def withlocks : List WithLocks :=
  db.concatgroups o ++ (db.lockFree o).map fun a =>
    ⟨o.typeId a.subclassId a.dataTypeId, db.typeName o a.subclassId a.dataTypeId,
      db.memberText a.acType a.memberNameId, []⟩

/-- The rows of the result, with their counts. -/
def query : List (WithLocks × Nat) := (Group.groups id (db.withlocks o)).map fun g => (g.1, g.2.length)

/-- The folded accesses under locks and the accesses without: what there is to count. -/
def observations : List Observation :=
  ((db.fac o).filter fun f => db.held f.txnId ≠ []).map (fun f =>
    ((db.typeName o f.subclassId f.dataTypeId, db.memberText f.acType f.memberNameId),
      db.labels o f.txnId f.allocId)) ++
  (db.lockFree o).map fun a =>
    ((db.typeName o a.subclassId a.dataTypeId, db.memberText a.acType a.memberNameId), [])

/-- The names in the tables have none of the separators. -/
structure WellNamed : Prop where
  member : ∀ i, PlainText (db.memberName i).toList
  dataType : ∀ i, PlainText (db.dataTypeName i).toList
  subclass : ∀ i, ∀ s ∈ (db.subclass i).2, PlainText s.toList
  held : ∀ txn, ∀ l ∈ db.held txn, l.Named

end Database

/-- The columns of a row of the result. -/
def queryColumns (r : WithLocks × Nat) : List Text :=
  [r.1.typeName, r.1.membersAccessed, r.1.locksHeld, Text.ofNat r.2]

/-- What `psql` prints, unaligned, with tabs and without a footer. -/
def psqlOutput (rows : List (WithLocks × Nat)) : Text :=
  (["type_name".toList, "members_accessed".toList, "locks_held".toList, "occurrences".toList] ::
    rows.map queryColumns).flatMap (Text.row '\t')

/-! ## Reading the output -/

/-- What a data line stands for: one observation for each of its members and occurrences. -/
def observed (d : DataLine) : List Observation :=
  d.members.flatMap fun m => List.replicate d.occurrences ((d.datatype, m), d.locks)

/-- The observations behind a row without its count. -/
def WithLocks.observed (w : WithLocks) : List Observation :=
  (getlines ',' w.membersAccessed).map fun m => ((w.typeName, m), (getlines ',' w.locksHeld).filter (· ≠ []))

theorem decimal_ofNat (n : Nat) : decimal (Text.ofNat n) = n := Text.ofDigitChars_ofNat n

theorem stoull_ofNat (n : Nat) : stoull (Text.ofNat n) = if 2 ^ 64 ≤ n then .error .outOfRange else .ok n := by
  have hdigit : ∀ c ∈ Text.ofNat n, isdigit c = true := by
    intro c hc
    have := Text.isDigit_of_mem_ofNat hc
    simpa [isdigit, Char.isDigit, Char.le_def] using this
  obtain ⟨c, cs, hcs⟩ := List.exists_cons_of_ne_nil (Text.ofNat_ne_nil n)
  have hc : isdigit c = true := hdigit c (by simp [hcs])
  have htake : (Text.ofNat n).takeWhile isdigit = Text.ofNat n := List.takeWhile_eq_self_iff.mpr hdigit
  have hspace : isspace c = false := by
    by_contra hs
    simp only [isspace, Bool.not_eq_false, Bool.or_eq_true, decide_eq_true_eq] at hs
    rcases hs with ((((rfl | rfl) | rfl) | rfl) | rfl) | rfl <;> exact absurd hc (by decide)
  have hdrop : (Text.ofNat n).dropWhile isspace = c :: cs := by
    rw [hcs, List.dropWhile_cons, hspace]
    rfl
  have hval := decimal_ofNat n
  have hminus : c ≠ '-' := fun h => absurd (h ▸ hc) (by decide)
  have hplus : c ≠ '+' := fun h => absurd (h ▸ hc) (by decide)
  rw [hcs] at htake hval
  simp [stoull, hdrop, hminus, hplus, htake, hval]

/-- A text that stays within its column. -/
def InColumn (t : Text) : Prop := '\n' ∉ t ∧ '\t' ∉ t

theorem PlainText.inColumn {t : Text} (h : PlainText t) : InColumn t := ⟨h.1, h.2.1⟩

theorem inColumn_stringAgg {texts : List Text} (h : ∀ t ∈ texts, PlainText t) : InColumn (stringAgg texts) :=
  ⟨not_mem_intercalate (by decide) fun t ht => (h t ht).1, not_mem_intercalate (by decide) fun t ht => (h t ht).2.1⟩

/-- The columns of a row can be told apart. -/
structure WithLocks.Readable (w : WithLocks) : Prop where
  typeName : InColumn w.typeName
  membersAccessed : InColumn w.membersAccessed
  locksHeld : InColumn w.locksHeld

/-- The line of a row, and what `parseLine` makes of it. -/
def queryLine (r : WithLocks × Nat) : Text := ['\t'].intercalate (queryColumns r)

def dataLineOf (r : WithLocks × Nat) : DataLine :=
  ⟨r.1.typeName, getlines ',' r.1.membersAccessed, (getlines ',' r.1.locksHeld).filter (· ≠ []), r.2⟩

theorem parseLine_queryLine {r : WithLocks × Nat} (h : r.1.Readable) :
    parseLine (queryLine r) = if 2 ^ 64 ≤ r.2 then .error .outOfRange else .ok (some (dataLineOf r)) := by
  have hcount : '\t' ∉ Text.ofNat r.2 := (PlainText.ofNat r.2).2.1
  have hline : queryLine r = r.1.typeName ++ '\t' :: (r.1.membersAccessed ++ '\t' :: (r.1.locksHeld ++ '\t' ::
      Text.ofNat r.2)) := by simp [queryLine, queryColumns, List.intercalate]
  have hcols : getlines '\t' (queryLine r) = queryColumns r := by
    rw [hline, getlines_append h.typeName.2, getlines_append h.membersAccessed.2, getlines_append h.locksHeld.2,
      getlines_last hcount (Text.ofNat_ne_nil _)]
    rfl
  rw [parseLine, hcols]
  simp only [queryColumns, stoull_ofNat]
  split
  · rfl
  · rfl

theorem dataLines_table {header : List Text} (hline : '\n' ∉ ['\t'].intercalate header)
    (hheader : isHeader (['\t'].intercalate header) = true) {rows : List (WithLocks × Nat)} (h : ∀ r ∈ rows, r.1.Readable) :
    dataLines ((header :: rows.map queryColumns).flatMap (Text.row '\t')) = rows.map queryLine := by
  have hrow : ∀ columns : List Text, ∀ rest, '\n' ∉ ['\t'].intercalate columns →
      getlines '\n' (Text.row '\t' columns ++ rest) = ['\t'].intercalate columns :: getlines '\n' rest := by
    intro columns rest hno
    rw [Text.row, List.append_assoc, List.singleton_append, getlines_append hno]
  have hrows : getlines '\n' ((rows.map queryColumns).flatMap (Text.row '\t')) = rows.map queryLine := by
    induction rows with
    | nil => rfl
    | cons r rows ih =>
      have hr := h r List.mem_cons_self
      have hno : '\n' ∉ ['\t'].intercalate (queryColumns r) := by
        have hcount : '\n' ∉ Text.ofNat r.2 := (PlainText.ofNat r.2).1
        simp [queryColumns, List.intercalate, hr.typeName.1, hr.membersAccessed.1, hr.locksHeld.1, hcount]
      rw [List.map_cons, List.flatMap_cons, hrow _ _ hno, ih fun r hr => h r (List.mem_cons_of_mem _ hr)]
      rfl
  rw [dataLines, List.flatMap_cons, hrow _ _ hline, hrows]
  exact if_pos hheader

/-- The lines of rows, if they were all accepted. -/
theorem parsed_queryLines {rows : List (WithLocks × Nat)} (h : ∀ r ∈ rows, r.1.Readable)
    (hparse : ∀ line ∈ rows.map queryLine, ∃ d, parseLine line = .ok d) :
    parsed (rows.map queryLine) = rows.map dataLineOf := by
  induction rows with
  | nil => rfl
  | cons r rows ih =>
    obtain ⟨d, hd⟩ := hparse (queryLine r) (by simp)
    have hr := parseLine_queryLine (h r List.mem_cons_self)
    have hok : parseLine (queryLine r) = .ok (some (dataLineOf r)) := by
      rw [hr] at hd ⊢
      split at hd
      · cases hd
      · rw [if_neg (by assumption)]
    rw [List.map_cons, parsed_cons_some hok, List.map_cons,
      ih (fun r hr => h r (List.mem_cons_of_mem _ hr)) fun line hl => hparse line (List.mem_cons_of_mem _ hl)]

/-! ## What the rows stand for -/

theorem replicate_flatMap_perm {α β : Type} (n : Nat) (f : α → β) (xs : List α) :
    ((List.replicate n xs).flatMap fun ys => ys.map f).Perm (xs.flatMap fun x => List.replicate n (f x)) := by
  induction n with
  | zero => simp
  | succ n ih =>
    have hsucc : (xs.flatMap fun x => List.replicate (n + 1) (f x)) =
        xs.flatMap fun x => f x :: List.replicate n (f x) := by simp [List.replicate_succ]
    rw [List.replicate_succ, List.flatMap_cons, hsucc]
    exact (List.Perm.append_left _ ih).trans (List.map_append_flatMap_perm xs f fun x => List.replicate n (f x))

/-- A row with a count stands for as many rows without. -/
theorem observed_dataLineOf_perm (r : WithLocks × Nat) :
    (observed (dataLineOf r)).Perm ((List.replicate r.2 r.1).flatMap WithLocks.observed) := by
  have h := replicate_flatMap_perm r.2
    (fun m => ((r.1.typeName, m), (getlines ',' r.1.locksHeld).filter (· ≠ []))) (getlines ',' r.1.membersAccessed)
  refine List.Perm.trans h.symm (List.Perm.of_eq ?_)
  rw [← List.map_replicate (f := fun w : WithLocks => getlines ',' w.membersAccessed), List.flatMap_map]
  exact List.flatMap_congr fun w hw => by rw [List.eq_of_mem_replicate hw]; rfl

/-- Strings that were put together with commas. -/
theorem getlines_stringAgg {texts : List Text} (h : ∀ t ∈ texts, PlainText t ∧ t ≠ []) :
    getlines ',' (stringAgg texts) = texts :=
  getlines_intercalate fun t ht => ⟨(h t ht).1.2.2, (h t ht).2⟩

theorem locks_stringAgg {texts : List Text} (h : ∀ t ∈ texts, PlainText t ∧ t ≠ []) :
    (getlines ',' (stringAgg texts)).filter (· ≠ []) = texts := by
  rw [getlines_stringAgg h, List.filter_eq_self]
  intro t ht
  simpa using (h t ht).2

namespace Database

variable {db : Database} {o : Options}

theorem WellNamed.memberText (h : db.WellNamed) (acType : AccessKind) (i : Nat) :
    PlainText (db.memberText acType i) ∧ db.memberText acType i ≠ [] :=
  ⟨PlainText.cons (by cases acType <;> decide) (PlainText.cons (by decide) (h.member i)), by simp [Database.memberText]⟩

theorem WellNamed.typeName (h : db.WellNamed) (s d : Nat) : PlainText (db.typeName o s d) := by
  refine (h.dataType d).append (PlainText.option fun s' hs' => ?_)
  split at hs'
  · exact (h.subclass s s' hs').cons (by decide)
  · cases hs'

theorem WellNamed.labels (h : db.WellNamed) (txn allocId : Nat) :
    ∀ t ∈ db.labels o txn allocId, PlainText t ∧ t ≠ [] := by
  intro t ht
  obtain ⟨l, hl, rfl⟩ := List.mem_map.mp ht
  exact ⟨(h.held txn l hl).label _ _, Label.text_ne_nil _⟩

/-- Every column of the result can be told apart. -/
theorem WellNamed.readable (h : db.WellNamed) : ∀ w ∈ db.withlocks o, w.Readable := by
  intro w hw
  rcases List.mem_append.mp hw with hw | hw
  · obtain ⟨g, hg, hw⟩ := List.mem_filterMap.mp hw
    obtain ⟨f, -, hkey⟩ := (Group.mem_groups.mp hg).1
    split at hw
    · cases hw
    · cases hw
      refine ⟨?_, ?_, ?_⟩
      · rw [← hkey]
        exact (h.typeName _ _).inColumn
      · refine inColumn_stringAgg fun t ht => ?_
        obtain ⟨f', -, rfl⟩ := List.mem_map.mp ht
        exact (h.memberText _ _).1
      · exact inColumn_stringAgg fun t ht => (h.labels _ _ t ht).1
  · obtain ⟨a, -, rfl⟩ := List.mem_map.mp hw
    exact ⟨(h.typeName _ _).inColumn, (h.memberText _ _).1.inColumn, PlainText.nil.inColumn⟩

/-- What a folded access is counted as. -/
def observedFolded (db : Database) (o : Options) (f : Folded) : Observation :=
  ((db.typeName o f.subclassId f.dataTypeId, db.memberText f.acType f.memberNameId), db.labels o f.txnId f.allocId)

/-- Folded accesses are of data types of their subclasses. -/
theorem fac_typed {f : Folded} (hf : f ∈ db.fac o) : (db.subclass f.subclassId).1 = f.dataTypeId := by
  have hin : ∀ f ∈ db.inTxns o, (db.subclass f.subclassId).1 = f.dataTypeId := by
    intro f hf
    obtain ⟨a, ha, hf⟩ := List.mem_filterMap.mp hf
    obtain ⟨txn, -, rfl⟩ := Option.map_eq_some_iff.mp hf
    exact db.typed a (List.mem_filter.mp ha).1
  unfold fac at hf
  split at hf
  · obtain ⟨g, hg, rfl⟩ := List.mem_map.mp hf
    obtain ⟨f', hf', hkey⟩ := (Group.mem_groups.mp hg).1
    rw [← hkey]
    exact hin f' hf'
  · exact hin f (List.mem_dedup.mp hf)

theorem observed_concatgroups (h : db.WellNamed) :
    ((db.concatgroups o).flatMap WithLocks.observed).Perm
      (((db.fac o).filter fun f => db.held f.txnId ≠ []).map (db.observedFolded o)) := by
  let key : Folded → Nat × Nat × Nat × Text := fun f =>
    (f.allocId, f.txnId, o.typeId f.subclassId f.dataTypeId, db.typeName o f.subclassId (db.subclass f.subclassId).1)
  -- Group by group: the string of the members is taken apart again.
  have hgroup : ((db.concatgroups o).flatMap WithLocks.observed).Perm
      ((Group.groups key (db.fac o)).flatMap fun g =>
        (g.2.filter fun f => db.held f.txnId ≠ []).map (db.observedFolded o)) := by
    rw [concatgroups, List.filterMap_eq_flatMap_toList, List.flatMap_assoc]
    refine List.Perm.flatMap_left _ fun g hg => ?_
    have hmem : ∀ f ∈ g.2, f ∈ db.fac o ∧ key f = g.1 := fun f hf => Group.key_of_mem hg hf
    by_cases hheld : db.held g.1.2.1 = []
    · have hnone : g.2.filter (fun f => db.held f.txnId ≠ []) = [] := by
        rw [List.filter_eq_nil_iff]
        intro f hf
        rw [← (hmem f hf).2] at hheld
        simpa [key] using hheld
      rw [if_pos hheld, hnone]
      exact List.Perm.refl _
    · have hall : g.2.filter (fun f => db.held f.txnId ≠ []) = g.2 := by
        rw [List.filter_eq_self]
        intro f hf
        rw [← (hmem f hf).2] at hheld
        simpa [key] using hheld
      rw [if_neg hheld, hall, Option.toList_some, List.flatMap_singleton, WithLocks.observed]
      rw [locks_stringAgg (h.labels _ _), getlines_stringAgg fun t ht => by
        obtain ⟨f, -, rfl⟩ := List.mem_map.mp ht
        exact h.memberText _ _, List.map_map]
      refine ((List.mergeSort_perm g.2 _).map _).trans (List.Perm.of_eq (List.map_congr_left fun f hf => ?_))
      obtain ⟨hfac, hkey⟩ := hmem f hf
      rw [← hkey]
      simp only [Function.comp_apply, observedFolded, key, fac_typed hfac]
  refine hgroup.trans ?_
  have hall := ((Group.flatMap_groups_perm key (db.fac o)).filter (fun f => db.held f.txnId ≠ [])).map
    (db.observedFolded o)
  rwa [List.filter_flatMap, List.map_flatMap] at hall

theorem observed_lockFree (h : db.WellNamed) :
    (((db.lockFree o).map fun a => (⟨o.typeId a.subclassId a.dataTypeId, db.typeName o a.subclassId a.dataTypeId,
      db.memberText a.acType a.memberNameId, []⟩ : WithLocks)).flatMap WithLocks.observed) =
      (db.lockFree o).map fun a =>
        ((db.typeName o a.subclassId a.dataTypeId, db.memberText a.acType a.memberNameId), []) := by
  rw [List.flatMap_map, List.map_eq_flatMap]
  refine List.flatMap_congr fun a _ => ?_
  obtain ⟨hplain, hne⟩ := h.memberText a.acType a.memberNameId
  simp [WithLocks.observed, getlines_last hplain.2.2 hne, getlines]

/-- What the lines of the output stand for is what there is to count. -/
theorem observed_query (h : db.WellNamed) {rows : List (WithLocks × Nat)} (hrows : rows.Perm (db.query o)) :
    ((rows.map dataLineOf).flatMap observed).Perm (db.observations o) := by
  rw [List.flatMap_map]
  refine (hrows.flatMap_right _).trans ?_
  refine (List.Perm.flatMap_left _ fun r _ => observed_dataLineOf_perm r).trans ?_
  have hcounts : ((Group.groups id (db.withlocks o)).flatMap fun g => List.replicate g.2.length g.1).Perm
      (db.withlocks o) := by simpa using Group.replicate_groups_perm id id (db.withlocks o)
  have hrest := hcounts.flatMap_right WithLocks.observed
  rw [List.flatMap_assoc] at hrest
  rw [query, List.flatMap_map]
  refine hrest.trans ?_
  rw [withlocks, List.flatMap_append, observed_lockFree h]
  exact (observed_concatgroups h).append_right _

end Database

/-- Occurrences of mentions are counts of what the lines stand for. -/
theorem mentionedOccurrences_observed (locks : List (List Char)) (q : MemberKey → List MyId → Bool) (ds : List DataLine) :
    mentionedOccurrences (ds.flatMap (DataLine.mentions locks)) (fun m => q m.key m.locksHeld) =
      (ds.flatMap observed).countP (fun x => q x.1 (x.2.map fun name => locks.idxOf name)) := by
  have hone : ∀ d : DataLine, mentionedOccurrences (d.mentions locks) (fun m => q m.key m.locksHeld) =
      (observed d).countP (fun x => q x.1 (x.2.map fun name => locks.idxOf name)) := by
    intro d
    unfold DataLine.mentions observed
    induction d.members with
    | nil => rfl
    | cons m members ih =>
      rw [List.flatMap_cons, List.countP_append, ← ih, List.countP_replicate, List.map_cons]
      by_cases hq : q (d.datatype, m) (d.locksHeld locks) = true
      · simp [mentionedOccurrences, DataLine.locksHeld] at hq ⊢
        simp [hq]
      · simp [mentionedOccurrences, DataLine.locksHeld] at hq ⊢
        simp [hq]
  induction ds with
  | nil => rfl
  | cons d ds ih =>
    rw [List.flatMap_cons, List.flatMap_cons, List.countP_append, ← hone d, ← ih]
    simp [mentionedOccurrences]

/-- The locks of an observation contain a hypothesis, and are taken in an order. -/
def Shows (locks : List (List Char)) (h v : List MyId) (x : Observation) : Bool :=
  h.all (· ∈ x.2.map fun name => locks.idxOf name) && firstOccurrences h (x.2.map fun name => locks.idxOf name) = v

/-- What the hypothesizer has read of a table is what its rows stand for. -/
theorem loaded_rows {text : Text} {rows : List (WithLocks × Nat)} (hlines : dataLines text = rows.map queryLine)
    (hreadable : ∀ r ∈ rows, r.1.Readable) (hpos : ∀ r ∈ rows, 0 < r.2) {observations : List Observation}
    (hobs : ((rows.map dataLineOf).flatMap observed).Perm observations) {input : Input}
    (hl : Loaded (dataLines text) input) :
    (∀ key, (∃ e ∈ input.members, e.key = key) ↔ ∃ x ∈ observations, x.1 = key) ∧
    ∀ q : MemberKey → List MyId → Bool,
      mentionedOccurrences (mentionsIn input.locks (dataLines text)) (fun m => q m.key m.locksHeld) =
        observations.countP (fun x => q x.1 (x.2.map fun name => input.locks.idxOf name)) := by
  have hparsed : parsed (dataLines text) = rows.map dataLineOf := by
    have hparse := hl.parses
    rw [hlines] at hparse ⊢
    exact parsed_queryLines hreadable hparse
  refine ⟨?_, ?_⟩
  · intro key
    rw [hl.mem_keys, mem_mentionsIn_key, hparsed]
    constructor
    · rintro ⟨d, hd, hk, hm⟩
      obtain ⟨r, hr, rfl⟩ := List.mem_map.mp hd
      refine ⟨(key, (dataLineOf r).locks), hobs.mem_iff.mp ?_, rfl⟩
      refine List.mem_flatMap.mpr ⟨_, hd, List.mem_flatMap.mpr ⟨key.2, hm, ?_⟩⟩
      exact List.mem_replicate.mpr ⟨Nat.ne_of_gt (hpos r hr), by rw [hk]⟩
    · rintro ⟨x, hx, rfl⟩
      obtain ⟨d, hd, hx⟩ := List.mem_flatMap.mp (hobs.mem_iff.mpr hx)
      obtain ⟨m, hm, hx⟩ := List.mem_flatMap.mp hx
      rw [List.eq_of_mem_replicate hx]
      exact ⟨d, hd, rfl, hm⟩
  · intro q
    rw [mentionsIn, hparsed, mentionedOccurrences_observed, hobs.countP_eq]

/-- What the hypothesizer has read of the output of the query is what there is to count. -/
theorem loaded_query {db : Database} {o : Options} (hnamed : db.WellNamed) {rows : List (WithLocks × Nat)}
    (hrows : rows.Perm (db.query o)) {input : Input} (hl : Loaded (dataLines (psqlOutput rows)) input) :
    (∀ key, (∃ e ∈ input.members, e.key = key) ↔ ∃ x ∈ db.observations o, x.1 = key) ∧
    ∀ q : MemberKey → List MyId → Bool,
      mentionedOccurrences (mentionsIn input.locks (dataLines (psqlOutput rows))) (fun m => q m.key m.locksHeld) =
        (db.observations o).countP (fun x => q x.1 (x.2.map fun name => input.locks.idxOf name)) := by
  have hreadable : ∀ r ∈ rows, r.1.Readable := by
    intro r hr
    obtain ⟨g, hg, rfl⟩ := List.mem_map.mp (hrows.mem_iff.mp hr)
    obtain ⟨w, hw, hkey⟩ := (Group.mem_groups.mp hg).1
    exact hkey ▸ hnamed.readable w hw
  have hpos : ∀ r ∈ rows, 0 < r.2 := by
    intro r hr
    obtain ⟨g, hg, rfl⟩ := List.mem_map.mp (hrows.mem_iff.mp hr)
    obtain ⟨⟨w, hw, hkey⟩, hrest⟩ := Group.mem_groups.mp hg
    refine List.length_pos_of_mem (a := w) ?_
    rw [hrest, List.mem_filter]
    exact ⟨hw, decide_eq_true hkey⟩
  exact loaded_rows (dataLines_table (by decide) (by decide) hreadable) hreadable hpos
    (Database.observed_query hnamed hrows) hl

/-- The support of hypotheses, in terms of observations. -/
theorem support_of_counts {ms : List Mention} {locks : List Text} {observations : List Observation}
    (hcount : ∀ q : MemberKey → List MyId → Bool, mentionedOccurrences ms (fun m => q m.key m.locksHeld) =
      observations.countP (fun x => q x.1 (x.2.map fun name => locks.idxOf name)))
    {key : MemberKey} {member : Member} (hm : MemberCounts ms key member) (maxHypoLen : Nat) :
    ∃ found, Yields (fun n => findHypotheses n member maxHypoLen) found ∧
      found.occurrences = observations.countP (fun x => x.1 = key) ∧
      ∀ (h : List MyId) (x : LockingHypothesisMatches), found.hypotheses[h]? = some x →
        (∀ v, x.orderMatches.getD v 0 = observations.countP (fun y => y.1 = key && Shows locks h v y)) ∧
        x.occurrences = observations.countP fun y => y.1 = key && h.all (· ∈ y.2.map fun name => locks.idxOf name) := by
  obtain ⟨-, found, hfound, -, -, hbuilt⟩ := findHypotheses_yields hm.fresh maxHypoLen
  refine ⟨found, hfound, ?_, fun h x hx => ?_⟩
  · rw [hbuilt.rest]
    exact hm.occurrences.trans (hcount fun key' _ => key' = key)
  · have hmem : h ∈ found.hypotheses := by
      rw [Std.ExtTreeMap.mem_iff_isSome_getElem?, hx]
      rfl
    have hh := ((hbuilt.keys h).mp hmem).1.1
    have hall : (fun lc : LockCombination => lc.containsLocks h) = fun lc => h.all (· ∈ lc.locksHeld) := by
      funext lc
      rw [Bool.eq_iff_iff, LockCombination.containsLocks_iff hh]
      simp
    rw [hbuilt.values h x hx]
    constructor
    · intro v
      rw [evaluation_shows hm hh]
      exact hcount fun key' held => key' = key && (h.all (· ∈ held) && firstOccurrences h held = v)
    · rw [evaluation_occurrences, hall, hm.sums fun held => h.all (· ∈ held)]
      exact hcount fun key' held => key' = key && h.all (· ∈ held)

theorem countP_and_eq_iff {α : Type} {p q : α → Bool} {xs : List α} :
    xs.countP (fun x => p x && q x) = xs.countP p ↔ ∀ x ∈ xs, p x = true → q x = true := by
  have hcomm : (fun x => p x && q x) = fun x => q x && p x := funext fun x => Bool.and_comm (p x) (q x)
  rw [hcomm, ← List.countP_filter, List.countP_eq_length_filter (p := p), List.countP_eq_length]
  simp only [List.mem_filter, and_imp]

/-- The hypothesizer counts the accesses of the database. Whatever order the rows come in, when it
has read the output of the query there is an entry for every member with an access, the member
occurs as often as there are folded accesses to it and accesses without locks, and the count of a
lock order under a hypothesis is the number of those whose locks contain the hypothesis in this order. -/
theorem query_support_exact (db : Database) (o : Options) (hnamed : db.WellNamed) (rows : List (WithLocks × Nat))
    (hrows : rows.Perm (db.query o)) (maxHypoLen : Nat) (input : Input)
    (hload : Yields (fun n => load n (psqlOutput rows)) input) :
    (∀ key, (∃ e ∈ input.members, e.key = key) ↔ ∃ x ∈ db.observations o, x.1 = key) ∧
    ∀ e ∈ input.members, ∃ found, Yields (fun n => findHypotheses n e.member maxHypoLen) found ∧
      found.occurrences = (db.observations o).countP (fun x => x.1 = e.key) ∧
      ∀ h x, found.hypotheses[h]? = some x → ∀ v,
        x.orderMatches.getD v 0 = (db.observations o).countP (fun y => y.1 = e.key && Shows input.locks h v y) := by
  have hl := loaded_of_yields hload
  obtain ⟨hkeys, hcount⟩ := loaded_query hnamed hrows hl
  refine ⟨hkeys, fun e he => ?_⟩
  obtain ⟨found, hfound, hocc, hsupport⟩ := support_of_counts hcount (hl.counts he) maxHypoLen
  exact ⟨found, hfound, hocc, fun h x hx => (hsupport h x hx).1⟩

/-- One access under one global lock, and one without locks. -/
def twoAccesses : Database where
  accessesFlat := [⟨1, some 1, 1, .read, 1, 1, 1, 0, 1⟩, ⟨2, none, 1, .read, 1, 1, 1, 0, 1⟩]
  memberName _ := "i_state"
  dataTypeName _ := "inode"
  subclass _ := (1, none)
  held _ := [⟨2, 3, 0x100, "rwlock_t", none, .writer, none⟩]
  ordered _ := List.pairwise_singleton _ _
  typed := by decide

theorem twoAccesses_named : twoAccesses.WellNamed where
  member _ := by
    change PlainText "i_state".toList
    decide
  dataType _ := by
    change PlainText "inode".toList
    decide
  subclass := by simp [twoAccesses]
  held _ l hl := by
    rw [List.mem_singleton.mp hl]
    exact ⟨by decide, by simp, by simp, by simp, by simp⟩

theorem twoAccesses_exact : ∃ input,
    Yields (fun n => load n (psqlOutput (twoAccesses.query ⟨none, none, false, false⟩))) input ∧
    ∀ e ∈ input.members, ∃ found, Yields (fun n => findHypotheses n e.member 0) found ∧
      found.occurrences = (twoAccesses.observations ⟨none, none, false, false⟩).countP (fun x => x.1 = e.key) := by
  have htext : psqlOutput (twoAccesses.query ⟨none, none, false, false⟩) =
      ("type_name\tmembers_accessed\tlocks_held\toccurrences\ninode\tr:i_state\t3(rwlock_t[w])\t1\n" ++
        "inode\tr:i_state\t\t1\n").toList := by decide +kernel
  obtain ⟨input, hread, hlen⟩ : ∃ input,
      (dataLines (psqlOutput (twoAccesses.query ⟨none, none, false, false⟩))).foldlM readLine ⟨[], []⟩ = .ok input ∧
        input.members.length < 65536 := by
    rw [htext]
    exact ⟨_, rfl, by decide +kernel⟩
  have hload := load_yields hread hlen
  refine ⟨_, hload, fun e he => ?_⟩
  obtain ⟨found, hfound, hocc, -⟩ :=
    (query_support_exact twoAccesses _ twoAccesses_named _ (List.Perm.refl _) 0 _ hload).2 e he
  exact ⟨found, hfound, hocc⟩

end LockDoc.Queries
