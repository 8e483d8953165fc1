import LockDoc.Convert.Blacklist
import LockDoc.Convert.Lifecycle
import LockDoc.Queries.Flat

/-!
# What the blacklists leave out

The blacklists that `convert` has translated are imported, and an access is left out of the flat
table if they say so. In the end this depends on names alone: those in the files and those of the
member, the subclass, the data type and the functions of the access.
-/
namespace LockDoc.Queries

open LockDoc.Convert FallibleRun Worklist

/-- The input function of an integer column, for numbers of digits. PostgreSQL also takes a sign
and blanks around the number; the scripts write neither. -/
def intColumn (text : String) : Option Nat :=
  if text.toList ≠ [] ∧ text.toList.all Char.isDigit = true ∧ Nat.ofDigitChars 10 text.toList 0 < 2 ^ 31 then
    some (Nat.ofDigitChars 10 text.toList 0)
  else none

/-- `NULL '\N'` of the import. -/
def nullable (text : String) : Option (Option Nat) := if text = "\\N" then some none else (intColumn text).map some

def importFnBlacklistRow (r : FnBlacklistRow) : Option BlacklistedFunction := do
  let subclassId ← nullable r.subclassId
  let memberNameId ← nullable r.memberID
  let sequence ← nullable r.sequence
  if r.fn.length ≤ 80 then some ⟨subclassId, memberNameId, r.fn, sequence⟩ else none

/-- The unique key `fn_bl_entry`, which null values do not violate. -/
def FnBlEntry (bl bl' : BlacklistedFunction) : Prop :=
  bl.subclassId.isNone ∨ bl.memberNameId.isNone ∨
    (bl.subclassId, bl.memberNameId, bl.fn) ≠ (bl'.subclassId, bl'.memberNameId, bl'.fn)

instance (bl bl' : BlacklistedFunction) : Decidable (FnBlEntry bl bl') := inferInstanceAs (Decidable (_ ∨ _ ∨ _))

/-- The import of `function_blacklist.csv`. -/
def importFunctionBlacklist (rows : List FnBlacklistRow) : Option (List BlacklistedFunction) := do
  let rows ← rows.mapM importFnBlacklistRow
  if rows.Pairwise FnBlEntry then some rows else none

/-- The import of `member_blacklist.csv`; both columns are part of the primary key. -/
def importMemberBlacklist (rows : List (String × Nat)) : Option (List (Nat × Nat)) := do
  let rows ← rows.mapM fun r => (intColumn r.1).map fun subclassId => (subclassId, r.2)
  if rows.Nodup then some rows else none

/-- The blacklists in the tables are those of a conversion. -/
structure Tables.Blacklists (t : Tables) (cfg : Config) (σ : State) (memberNames : List Text)
    (fnLines memberLines : List String) : Prop where
  functions : importFunctionBlacklist (fnBlacklistOFile cfg σ memberNames fnLines) = some t.functionBlacklist
  members : importMemberBlacklist (memberBlacklistOFile cfg σ memberNames memberLines) = some t.memberBlacklist

/-- A line of the function blacklist names a frame of the call stack: everywhere, or in accesses to
the data type or subclass, all of them or those to the member. -/
def NamesFrame (cfg : Config) (s : Subclass) (name : String) (st : ImportedFrame) (line : String) : Prop :=
  ∃ dataTypeBl member sequence, columns delimiterBlacklists line = [dataTypeBl, member, st.function, sequence] ∧
    (dataTypeBl = "\\N" ∧ member = "\\N" ∨
      dataTypeBl ≠ "\\N" ∧ NamesSubclass cfg s dataTypeBl ∧ (member = "\\N" ∨ member = name)) ∧
    (sequence = "\\N" ∨ intColumn sequence = some st.sequence)

/-- A line of the member blacklist names a member. -/
def NamesMember (cfg : Config) (s : Subclass) (name line : String) : Prop :=
  ∃ dataTypeBl, columns delimiterBlacklists line = [dataTypeBl, name] ∧ dataTypeBl ≠ "\\N" ∧ NamesSubclass cfg s dataTypeBl

theorem intColumn_toString {n : Nat} {i : Nat} (h : intColumn (toString n) = some i) : i = n := by
  unfold intColumn at h
  split at h
  · cases h
    exact Text.ofDigitChars_ofNat n
  · cases h

theorem toString_ne_null (n : Nat) : toString n ≠ "\\N" := by
  intro h
  have hmem : '\\' ∈ (toString n).toList := by
    rw [h]
    decide
  exact absurd (Text.isDigit_of_mem_ofNat hmem) (by decide)

theorem nullable_toString {n : Nat} {i : Option Nat} (h : nullable (toString n) = some i) : i = some n := by
  rw [nullable, if_neg (toString_ne_null n)] at h
  obtain ⟨j, hj, rfl⟩ := Option.map_eq_some_iff.mp h
  rw [intColumn_toString hj]

theorem nullable_eq_none {text : String} : nullable text = some none ↔ text = "\\N" := by
  unfold nullable
  split <;> simp_all

/-- A null sequence means every depth. -/
theorem nullable_all {text : String} {i : Option Nat} (h : nullable text = some i) (k : Nat) :
    i.all (· = k) = true ↔ text = "\\N" ∨ intColumn text = some k := by
  cases i with
  | none => exact iff_of_true rfl (.inl (nullable_eq_none.mp h))
  | some i =>
    have hne : text ≠ "\\N" := fun he => by simp [nullable_eq_none.mpr he] at h
    rw [nullable, if_neg hne, Option.map_eq_some_iff] at h
    obtain ⟨j, hj, he⟩ := h
    cases he
    simp [hne, hj]

/-- What a list is mapped to, if no element fails. -/
theorem mem_of_mapM {α β : Type} {f : α → Option β} {xs : List α} {ys : List β} (h : xs.mapM f = some ys) {y : β} :
    y ∈ ys ↔ ∃ x ∈ xs, f x = some y := by
  induction xs generalizing ys with
  | nil =>
    cases h
    simp
  | cons x xs ih =>
    rw [List.mapM_cons] at h
    simp only [Option.bind_eq_bind, Option.bind_eq_some_iff, Option.pure_def, Option.some.injEq] at h
    obtain ⟨z, hz, zs, hzs, rfl⟩ := h
    simp [ih hzs, hz, eq_comm]

variable {cfg : Config} {σ : State} {t : Tables} {memberNames : List Text} {fnLines memberLines : List String}

/-- The import leaves out no row. -/
theorem mapM_isSome {α β : Type} {f : α → Option β} {xs : List α} {ys : List β} (h : xs.mapM f = some ys) {x : α}
    (hx : x ∈ xs) : ∃ y, f x = some y := by
  induction xs generalizing ys with
  | nil => cases hx
  | cons x' xs ih =>
    rw [List.mapM_cons] at h
    simp only [Option.bind_eq_bind, Option.bind_eq_some_iff, Option.pure_def, Option.some.injEq] at h
    obtain ⟨z, hz, zs, hzs, rfl⟩ := h
    cases hx with
    | head => exact ⟨z, hz⟩
    | tail _ hx => exact ih hzs hx

theorem importFnBlacklistRow_fields {r : FnBlacklistRow} {bl : BlacklistedFunction} (h : importFnBlacklistRow r = some bl) :
    nullable r.subclassId = some bl.subclassId ∧ nullable r.memberID = some bl.memberNameId ∧ r.fn = bl.fn ∧
      nullable r.sequence = some bl.sequence := by
  unfold importFnBlacklistRow at h
  simp only [Option.bind_eq_bind, Option.bind_eq_some_iff] at h
  obtain ⟨subclassId, hs, memberNameId, hm, sequence, hseq, h⟩ := h
  split at h
  · cases h
    exact ⟨hs, hm, rfl, hseq⟩
  · cases h

/-- The rows of the function blacklist, but for their ids. -/
theorem mem_fnBlacklistOFile {lines : List String} (row : String × String × String × String) :
    (∃ i, (⟨i, row.1, row.2.1, row.2.2.1, row.2.2.2⟩ : FnBlacklistRow) ∈ fnBlacklistOFile cfg σ memberNames lines) ↔
      ∃ line ∈ lines.tail, row ∈ fnBlacklistLine cfg σ memberNames line := by
  rw [← List.mem_flatMap]
  unfold fnBlacklistOFile
  constructor
  · rintro ⟨i, hi⟩
    obtain ⟨j, hj, he⟩ := List.mem_mapIdx.mp hi
    have hrow : (lines.tail.flatMap (fnBlacklistLine cfg σ memberNames))[j] = row := by
      obtain ⟨-, hid, hmember, hfn, hsequence⟩ := FnBlacklistRow.mk.inj he
      exact Prod.ext hid (Prod.ext hmember (Prod.ext hfn hsequence))
    exact hrow ▸ List.getElem_mem hj
  · intro h
    obtain ⟨j, hj, he⟩ := List.getElem_of_mem h
    exact ⟨j + 1, List.mem_mapIdx.mpr ⟨j, hj, by rw [he]⟩⟩

/-- An entry of the table comes from a line. -/
theorem line_of_entry (h : t.Blacklists cfg σ memberNames fnLines memberLines) {bl : BlacklistedFunction}
    (hbl : bl ∈ t.functionBlacklist) : ∃ line ∈ fnLines.tail, ∃ id member sequence,
      (id, member, bl.fn, sequence) ∈ fnBlacklistLine cfg σ memberNames line ∧ nullable id = some bl.subclassId ∧
        nullable member = some bl.memberNameId ∧ nullable sequence = some bl.sequence := by
  have hrows := h.functions
  unfold importFunctionBlacklist at hrows
  simp only [Option.bind_eq_bind, Option.bind_eq_some_iff] at hrows
  obtain ⟨rows, hmap, hkey⟩ := hrows
  split at hkey
  · cases hkey
    obtain ⟨⟨i, id, member, fn, sequence⟩, hr, himport⟩ := (mem_of_mapM hmap).mp hbl
    obtain ⟨line, hline, hrow⟩ := (mem_fnBlacklistOFile (id, member, fn, sequence)).mp ⟨i, hr⟩
    obtain ⟨hs, hm, hfn, hseq⟩ := importFnBlacklistRow_fields himport
    exact ⟨line, hline, id, member, sequence, hfn ▸ hrow, hs, hm, hseq⟩
  · cases hkey

/-- A row for a line is in the table. -/
theorem entry_of_line (h : t.Blacklists cfg σ memberNames fnLines memberLines) {line id member fn sequence : String}
    (hline : line ∈ fnLines.tail) (hrow : (id, member, fn, sequence) ∈ fnBlacklistLine cfg σ memberNames line) :
    ∃ bl ∈ t.functionBlacklist, bl.fn = fn ∧ nullable id = some bl.subclassId ∧
      nullable member = some bl.memberNameId ∧ nullable sequence = some bl.sequence := by
  have hrows := h.functions
  unfold importFunctionBlacklist at hrows
  simp only [Option.bind_eq_bind, Option.bind_eq_some_iff] at hrows
  obtain ⟨rows, hmap, hkey⟩ := hrows
  split at hkey
  · cases hkey
    obtain ⟨i, hr⟩ := (mem_fnBlacklistOFile _).mpr ⟨line, hline, hrow⟩
    obtain ⟨bl, himport⟩ := mapM_isSome hmap hr
    obtain ⟨hs, hm, hfn, hseq⟩ := importFnBlacklistRow_fields himport
    exact ⟨bl, (mem_of_mapM hmap).mpr ⟨_, hr, himport⟩, hfn.symm, hs, hm, hseq⟩
  · cases hkey

/-- The ids for a name are numbers, so that only `\N` stands for every subclass. -/
theorem blacklistIDs_number {dataTypeBl id : String} {ids : List String} (h : blacklistIDs cfg σ dataTypeBl = some ids)
    (hid : id ∈ ids) : dataTypeBl = "\\N" ∧ id = "\\N" ∨ dataTypeBl ≠ "\\N" ∧ ∃ i : Nat, id = toString i := by
  unfold blacklistIDs at h
  split at h
  · rename_i hne
    refine .inr ⟨hne, ?_⟩
    split at h <;> obtain ⟨i, -, rfl⟩ := Option.map_eq_some_iff.mp h
    · exact ⟨i, List.mem_singleton.mp hid⟩
    · obtain ⟨i', -, rfl⟩ := List.mem_map.mp hid
      exact ⟨i', rfl⟩
  · rename_i he
    cases h
    exact .inl ⟨not_not.mp he, (List.mem_singleton.mp hid).trans (not_not.mp he)⟩

/-- An entry is about the member of a subclass if its line names the two. -/
theorem entry_names (hd : Distinct σ.subclasses) (hn : memberNames.Nodup) {s : Subclass} (hs : s ∈ σ.subclasses)
    {m : Nat} {name : String} (hname : memberNames[m]? = some name.toList) {line id member' fn sequence : String}
    (hrow : (id, member', fn, sequence) ∈ fnBlacklistLine cfg σ memberNames line) {bl : BlacklistedFunction}
    (hid : nullable id = some bl.subclassId) (hmember : nullable member' = some bl.memberNameId)
    (h : (bl.subclassId.isNone && bl.memberNameId.isNone || bl.subclassId = some s.id && bl.memberNameId.isNone ||
      bl.subclassId = some s.id && bl.memberNameId = some (m + 1)) = true) :
    ∃ dataTypeBl member, columns delimiterBlacklists line = [dataTypeBl, member, fn, sequence] ∧
      (dataTypeBl = "\\N" ∧ member = "\\N" ∨
        dataTypeBl ≠ "\\N" ∧ NamesSubclass cfg s dataTypeBl ∧ (member = "\\N" ∨ member = name)) := by
  obtain ⟨dataTypeBl, member, ids, hcol, hids, hmem, hmemberID⟩ := mem_fnBlacklistLine.mp hrow
  refine ⟨dataTypeBl, member, hcol, ?_⟩
  have hnone : bl.memberNameId = none → member = "\\N" := by
    intro he
    rw [he, nullable_eq_none] at hmember
    subst hmember
    by_contra hne
    rw [memberID, if_pos hne] at hmemberID
    obtain ⟨k, -, hk⟩ := Option.map_eq_some_iff.mp hmemberID
    exact toString_ne_null k hk
  have hsome : bl.memberNameId = some (m + 1) → member = name := by
    intro he
    rw [memberID] at hmemberID
    split at hmemberID
    · obtain ⟨k, hk, rfl⟩ := Option.map_eq_some_iff.mp hmemberID
      rw [he] at hmember
      cases nullable_toString hmember
      exact (memberNameId_eq_iff hn hname).mp hk
    · rename_i hnull
      cases hmemberID
      rw [not_not.mp hnull, nullable_eq_none.mpr rfl, he] at hmember
      cases hmember
  simp only [Bool.or_eq_true, Bool.and_eq_true, Option.isNone_iff_eq_none, decide_eq_true_eq] at h
  rcases blacklistIDs_number hids hmem with ⟨rfl, rfl⟩ | ⟨hne, i, rfl⟩
  · have hid := Option.some.inj ((nullable_eq_none.mpr rfl).symm.trans hid)
    simp only [← hid, true_and, reduceCtorEq, false_and, or_false] at h
    exact .inl ⟨rfl, hnone h⟩
  · have hi := nullable_toString hid
    simp only [hi, reduceCtorEq, false_and, false_or, Option.some.injEq, ← and_or_left] at h
    obtain ⟨rfl, h⟩ := h
    exact .inr ⟨hne, (mem_blacklistIDs hd hs hne).mp ⟨ids, hids, hmem⟩, h.imp hnone hsome⟩

/-- A line that names the member of a subclass has a row that is about the two. -/
theorem row_of_names (hd : Distinct σ.subclasses) (hn : memberNames.Nodup) {s : Subclass} (hs : s ∈ σ.subclasses)
    {m : Nat} {name : String} (hname : memberNames[m]? = some name.toList) {line dataTypeBl member fn sequence : String}
    (hcol : columns delimiterBlacklists line = [dataTypeBl, member, fn, sequence])
    (h : dataTypeBl = "\\N" ∧ member = "\\N" ∨
      dataTypeBl ≠ "\\N" ∧ NamesSubclass cfg s dataTypeBl ∧ (member = "\\N" ∨ member = name)) :
    ∃ id member', (id, member', fn, sequence) ∈ fnBlacklistLine cfg σ memberNames line ∧
      (id = "\\N" ∧ member' = "\\N" ∨
        id = toString s.id ∧ (member' = "\\N" ∨ member' = toString (m + 1))) := by
  have hglobal : memberID memberNames "\\N" = some "\\N" := if_neg (not_not.mpr rfl)
  rcases h with ⟨rfl, rfl⟩ | ⟨hne, hnames, hmember⟩
  · have hids : blacklistIDs cfg σ "\\N" = some ["\\N"] := if_neg (not_not.mpr rfl)
    exact ⟨"\\N", "\\N", mem_fnBlacklistLine.mpr ⟨_, _, _, hcol, hids, List.mem_singleton_self _, hglobal⟩, .inl ⟨rfl, rfl⟩⟩
  · obtain ⟨ids, hids, hid⟩ := (mem_blacklistIDs hd hs hne).mpr hnames
    by_cases hnull : member = "\\N"
    · subst hnull
      exact ⟨_, _, mem_fnBlacklistLine.mpr ⟨_, _, _, hcol, hids, hid, hglobal⟩, .inr ⟨rfl, .inl rfl⟩⟩
    · have hnumber : memberID memberNames member = some (toString (m + 1)) := by
        rw [memberID, if_pos hnull, (memberNameId_eq_iff hn hname).mpr (hmember.resolve_left hnull)]
        rfl
      exact ⟨_, _, mem_fnBlacklistLine.mpr ⟨_, _, _, hcol, hids, hid, hnumber⟩, .inr ⟨rfl, .inr rfl⟩⟩

theorem functionBlacklisted_iff (h : t.Blacklists cfg σ memberNames fnLines memberLines) (hd : Distinct σ.subclasses)
    (hn : memberNames.Nodup) {s : Subclass} (hs : s ∈ σ.subclasses) {m : Nat} {name : String}
    (hname : memberNames[m]? = some name.toList) (ac : ImportedAccess) :
    t.functionBlacklisted ac s.id (m + 1) = true ↔
      ∃ st ∈ t.stacktraces, st.id = ac.stacktraceId ∧ ∃ line ∈ fnLines.tail, NamesFrame cfg s name st line := by
  unfold Tables.functionBlacklisted
  rw [List.any_eq_true]
  refine exists_congr fun st => and_congr_right fun hst => ?_
  rw [List.any_eq_true]
  constructor
  · rintro ⟨bl, hbl, hmatch⟩
    simp only [Bool.and_eq_true, decide_eq_true_eq] at hmatch
    obtain ⟨⟨hfn, hst⟩, habout, hsequence⟩ := hmatch
    obtain ⟨line, hline, id, member, sequence, hrow, hid, hmember, hseq⟩ := line_of_entry h hbl
    rw [hfn] at hrow
    obtain ⟨dataTypeBl, member', hcol, hnames⟩ :=
      entry_names hd hn hs hname hrow hid hmember
        (by simpa only [Bool.or_eq_true, Bool.and_eq_true, decide_eq_true_eq] using habout)
    exact ⟨hst.symm, line, hline, dataTypeBl, member', sequence, hcol, hnames, (nullable_all hseq st.sequence).mp hsequence⟩
  · rintro ⟨hst, line, hline, dataTypeBl, member, sequence, hcol, hnames, hsequence⟩
    obtain ⟨id, member', hrow, habout⟩ := row_of_names hd hn hs hname hcol hnames
    obtain ⟨bl, hbl, hfn, hid, hmember, hseq⟩ := entry_of_line h hline hrow
    refine ⟨bl, hbl, ?_⟩
    have hall := (nullable_all hseq st.sequence).mpr hsequence
    rcases habout with ⟨rfl, rfl⟩ | ⟨rfl, rfl | rfl⟩
    · have hid := Option.some.inj (hid.symm.trans (nullable_eq_none.mpr rfl))
      have hmember := Option.some.inj (hmember.symm.trans (nullable_eq_none.mpr rfl))
      simp [hid, hmember, hfn, hst, hall]
    · have hmember := Option.some.inj (hmember.symm.trans (nullable_eq_none.mpr rfl))
      simp [nullable_toString hid, hmember, hfn, hst, hall]
    · simp [nullable_toString hid, nullable_toString hmember, hfn, hst, hall]

theorem mem_memberBlacklist (h : t.Blacklists cfg σ memberNames fnLines memberLines) {i m : Nat} :
    (i, m) ∈ t.memberBlacklist ↔
      ∃ line ∈ memberLines.tail, (toString i, m) ∈ memberBlacklistLine cfg σ memberNames line := by
  have hrows := h.members
  unfold importMemberBlacklist at hrows
  simp only [Option.bind_eq_bind, Option.bind_eq_some_iff] at hrows
  obtain ⟨rows, hmap, hkey⟩ := hrows
  split at hkey
  · cases hkey
    rw [← List.mem_flatMap, mem_of_mapM hmap]
    constructor
    · rintro ⟨⟨id, m'⟩, hr, himport⟩
      obtain ⟨i', hi, he⟩ := Option.map_eq_some_iff.mp himport
      cases he
      obtain ⟨line, hline, hrow⟩ := List.mem_flatMap.mp hr
      obtain ⟨dataTypeBl, member, ids, -, hids, hid, -⟩ := mem_memberBlacklistLine.mp hrow
      rcases blacklistIDs_number hids hid with ⟨-, rfl⟩ | ⟨-, j, rfl⟩
      · have hnone : intColumn "\\N" = none := by decide
        exact absurd (hnone.symm.trans hi) (by simp)
      · rw [intColumn_toString hi]
        exact hr
    · intro hr
      obtain ⟨⟨i', m'⟩, himport⟩ := mapM_isSome hmap hr
      obtain ⟨j, hj, he⟩ := Option.map_eq_some_iff.mp himport
      refine ⟨_, hr, ?_⟩
      rw [hj, intColumn_toString hj]
      rfl
  · cases hkey

theorem memberBlacklisted_iff (h : t.Blacklists cfg σ memberNames fnLines memberLines) (hd : Distinct σ.subclasses)
    (hn : memberNames.Nodup) {s : Subclass} (hs : s ∈ σ.subclasses) {m : Nat} {name : String}
    (hname : memberNames[m]? = some name.toList) :
    (s.id, m + 1) ∈ t.memberBlacklist ↔ ∃ line ∈ memberLines.tail, NamesMember cfg s name line := by
  rw [mem_memberBlacklist h]
  refine exists_congr fun line => and_congr_right fun _ => ?_
  rw [mem_memberBlacklistLine]
  constructor
  · rintro ⟨dataTypeBl, member, ids, hcol, hids, hid, hmember⟩
    rw [(memberNameId_eq_iff hn hname).mp hmember] at hcol
    rcases blacklistIDs_number hids hid with ⟨-, hnull⟩ | ⟨hne, -⟩
    · exact absurd hnull (toString_ne_null s.id)
    · exact ⟨dataTypeBl, hcol, hne, (mem_blacklistIDs hd hs hne).mp ⟨ids, hids, hid⟩⟩
  · rintro ⟨dataTypeBl, hcol, hne, hnames⟩
    obtain ⟨ids, hids, hid⟩ := (mem_blacklistIDs hd hs hne).mpr hnames
    exact ⟨dataTypeBl, name, ids, hcol, hids, hid, (memberNameId_eq_iff hn hname).mpr rfl⟩

/-- Whatever the numbers are that a conversion has given to subclasses and members: in its tables
an access to a member of a subclass is left out exactly if a line of the member blacklist names the
member, or a line of the function blacklist a frame of its call stack. -/
theorem blacklisted_iff {trace : List Event} (hconv : convert cfg trace = .ok σ) {names : List Text}
    (h : t.Blacklists cfg σ (memberNamesOf names) fnLines memberLines) {s : Subclass} (hs : s ∈ σ.subclasses)
    {m : Nat} {name : String} (hname : (memberNamesOf names)[m]? = some name.toList) (ac : ImportedAccess) :
    t.blacklisted ac s.id (m + 1) = true ↔
      (∃ line ∈ memberLines.tail, NamesMember cfg s name line) ∨
        ∃ st ∈ t.stacktraces, st.id = ac.stacktraceId ∧ ∃ line ∈ fnLines.tail, NamesFrame cfg s name st line := by
  have hd := convert_distinct hconv
  have hn := memberNamesOf_nodup names
  rw [Tables.blacklisted, Bool.or_eq_true, List.contains_iff_mem, memberBlacklisted_iff h hd hn hs hname,
    functionBlacklisted_iff h hd hn hs hname]

/-- `evict` below `inode_add` is left out for `dentry:ext4`, and with it for every `ext4`. -/
def evictBlacklisted : Tables :=
  { oneImported with
    functionBlacklist := [⟨some 1, some 1, "evict", some 1⟩]
    stacktraces := [⟨1, 0, "inode_add"⟩, ⟨1, 1, "evict"⟩] }

def evictLines : List String := ["subclass_id;member_name_id;fn;sequence", "dentry:ext4;i_state;evict;1"]

theorem evict_blacklisted : ∃ σ, convert (.trackAll true) borrowedSubclass = .ok σ ∧
    evictBlacklisted.Blacklists (.trackAll true) σ (memberNamesOf ["i_state".toList]) evictLines [] ∧
      ∃ s ∈ σ.subclasses, s.name = "ext4" ∧
        evictBlacklisted.blacklisted ⟨1, 1, none, .read, 0x1008, 1⟩ s.id 1 = true := by
  have hend : okAnd (convert (.trackAll true) borrowedSubclass) (fun σ => σ.subclasses = [⟨1, "ext4", 0, true⟩]) = true := by
    decide +kernel
  obtain ⟨σ, hσ, hsub⟩ := okAnd_iff.mp hend
  have hsub := of_decide_eq_true hsub
  have hrow : fnBlacklistLine (.trackAll true) σ (memberNamesOf ["i_state".toList]) "dentry:ext4;i_state;evict;1" =
      [("1", "1", "evict", "1")] := by
    unfold fnBlacklistLine blacklistIDs subclass2id type2id
    rw [hsub]
    decide +kernel
  have hbl : evictBlacklisted.Blacklists (.trackAll true) σ (memberNamesOf ["i_state".toList]) evictLines [] := by
    constructor
    · have hfile : fnBlacklistOFile (.trackAll true) σ (memberNamesOf ["i_state".toList]) evictLines =
          [⟨1, "1", "1", "evict", "1"⟩] := by
        rw [fnBlacklistOFile, evictLines, List.tail_cons, List.flatMap_singleton, hrow]
        rfl
      rw [hfile]
      decide +kernel
    · rfl
  have hs : (⟨1, "ext4", 0, true⟩ : Subclass) ∈ σ.subclasses := hsub ▸ List.mem_singleton_self _
  refine ⟨σ, hσ, hbl, _, hs, rfl, (blacklisted_iff (m := 0) hσ hbl hs rfl _).mpr (.inr ?_)⟩
  refine ⟨⟨1, 1, "evict"⟩, by decide, rfl, "dentry:ext4;i_state;evict;1", by decide, ?_⟩
  refine ⟨"dentry:ext4", "i_state", "1", by decide +kernel, .inr ⟨by decide, ?_, .inr rfl⟩, .inr (by decide +kernel)⟩
  decide +kernel

end LockDoc.Queries
