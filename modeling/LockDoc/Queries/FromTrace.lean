import LockDoc.Convert.Columns
import LockDoc.Convert.HeldSet
import LockDoc.Convert.LockRows
import LockDoc.Queries.Flat

/-!
# From the trace to the support of a rule

`convert`, the import, the post-processing, the query and the hypothesizer, put together. What the
hypothesizer counts for a hypothesis goes back to the accesses of the trace and to the locks that
their contexts held: a hypothesis has full support exactly if its locks were held at every access
to the member.
-/
namespace LockDoc.Queries

open LockDoc.Convert
open LockDoc.Hypothesizer
open FallibleRun Worklist

/-- A row of `accesses.csv` in its table. -/
def importAccess (row : AccessRow) : ImportedAccess :=
  ⟨row.access.id, row.access.allocId, row.txnId, row.access.kind, row.access.address, row.access.stacktraceId⟩

namespace Tables

variable (t : Tables) (db : Database) (o : Options)

/-- The left joins that tell where in its allocation a lock is. -/
def embedding (allocId address : Nat) : Embedding :=
  match t.allocations allocId with
  | none => ⟨"", none, none, false⟩
  | some a =>
    let dataTypeId := (db.subclass a.subclassId).1
    let offset : Int := address - a.baseAddress
    let lockMember := (t.flatRows ⟨a.subclassId, dataTypeId, offset⟩).head?
    { dataType := db.dataTypeName dataTypeId
      subclass := (db.subclass a.subclassId).2
      member := lockMember.bind fun sl => t.memberNames sl.memberNameId
      exact := lockMember.any fun sl => offset = sl.byteOffset }

/-- A row of `locks`, joined with a row of `locks_held`. -/
def heldLock (l : LockRow) (start : Nat) : HeldLock :=
  ⟨start, l.id, l.address, l.lockType, l.lockVarName, l.subLock, l.embeddedIn.map fun a => (a, t.embedding db a l.address)⟩

/-- The label of a lock in an access to an allocation. -/
def lockLabel (allocId : Nat) (l : LockRow) : Text := (label o.useSubclasses allocId (t.heldLock db l 0)).text

/-- The database holds the output of a conversion, and has been post-processed. The members of a
data type do not overlap, so that a lock is in one of them. -/
structure Imported (σ : State) : Prop where
  accesses : t.accesses = σ.accessOFile.map importAccess
  disjoint : Disjoint t.structsLayout
  flat : t.postProcess = some db.accessesFlat
  held : ∀ txn, (db.held txn).Perm ((σ.lockManager.locksHeldOFile.filter fun r => r.txnId = txn).flatMap fun r =>
    (σ.locksOFile.filter fun l => l.id = r.lockId).map fun l => t.heldLock db l r.start)

end Tables

namespace Database

variable (db : Database) (o : Options)

/-- The folded access of an access in a transaction. -/
def fold (a : FlatAccess) (txn : Nat) : Folded :=
  ⟨a.allocId, txn, a.acType, a.subclassId, a.memberNameId, a.byteOffset, a.dataTypeId⟩

/-- The kind that an access counts as: with `wor`, a read is a write if its transaction writes to
the same member of the allocation. -/
def kind (a : FlatAccess) : AccessKind :=
  match a.txnId with
  | none => a.acType
  | some txn =>
    if o.useWor then
      if (db.inTxns o).any (fun f => f.acType = .write && { f with acType := .read } = { fold a txn with acType := .read })
      then .write else .read
    else a.acType

/-- The member that an access counts for. -/
def key (a : FlatAccess) : MemberKey :=
  (db.typeName o a.subclassId a.dataTypeId, db.memberText (db.kind o a) a.memberNameId)

/-- The locks that an access counts with. -/
def locksOf (a : FlatAccess) : List Text := (a.txnId.map fun txn => db.labels o txn a.allocId).getD []

variable {db o}

theorem mem_inTxns {f : Folded} : f ∈ db.inTxns o ↔ ∃ a ∈ db.selected o, ∃ txn, a.txnId = some txn ∧ fold a txn = f := by
  simp only [inTxns, List.mem_filterMap, Option.map_eq_some_iff, fold]

/-- A folded access stands for the accesses that count as its kind. -/
theorem mem_fac {f : Folded} : f ∈ db.fac o ↔
    ∃ a ∈ db.selected o, ∃ txn, a.txnId = some txn ∧ f = { fold a txn with acType := db.kind o a } := by
  cases hwor : o.useWor with
  | false =>
    have hkind : ∀ a : FlatAccess, db.kind o a = a.acType := by
      intro a
      unfold kind
      split <;> simp [hwor]
    rw [fac, hwor, if_neg Bool.false_ne_true, List.mem_dedup, mem_inTxns]
    simp only [hkind]
    constructor
    · rintro ⟨a, ha, txn, htxn, rfl⟩
      exact ⟨a, ha, txn, htxn, rfl⟩
    · rintro ⟨a, ha, txn, htxn, rfl⟩
      exact ⟨a, ha, txn, htxn, rfl⟩
  | true =>
    have hkind : ∀ (a : FlatAccess) (txn : Nat), a.txnId = some txn → db.kind o a =
        if ((db.inTxns o).filter fun f => { f with acType := .read } = { fold a txn with acType := .read }).any
          (fun f => f.acType = .write) then .write else .read := by
      intro a txn htxn
      rw [kind, htxn, List.any_filter]
      simp [hwor, Bool.and_comm]
    rw [fac, hwor, if_pos rfl, List.mem_map]
    constructor
    · rintro ⟨g, hg, rfl⟩
      obtain ⟨⟨f, hf, hkey⟩, hrest⟩ := Group.mem_groups.mp hg
      obtain ⟨a, ha, txn, htxn, rfl⟩ := mem_inTxns.mp hf
      refine ⟨a, ha, txn, htxn, ?_⟩
      rw [hkind a txn htxn, hrest, ← hkey]
    · rintro ⟨a, ha, txn, htxn, rfl⟩
      have hf : fold a txn ∈ db.inTxns o := mem_inTxns.mpr ⟨a, ha, txn, htxn, rfl⟩
      refine ⟨({ fold a txn with acType := .read }, (db.inTxns o).filter fun f =>
        { f with acType := .read } = { fold a txn with acType := .read }), ?_, ?_⟩
      · exact Group.mem_groups.mpr ⟨⟨fold a txn, hf, rfl⟩, rfl⟩
      · rw [hkind a txn htxn]

/-- The observations are those of the accesses, if no transaction is without locks. -/
theorem mem_observations (hlocks : ∀ a ∈ db.selected o, ∀ txn, a.txnId = some txn → db.held txn ≠ []) {x : Observation} :
    x ∈ db.observations o ↔ ∃ a ∈ db.selected o, (db.key o a, db.locksOf o a) = x := by
  unfold observations
  rw [List.mem_append, List.mem_map, List.mem_map]
  constructor
  · rintro (⟨f, hf, rfl⟩ | ⟨a, ha, rfl⟩)
    · obtain ⟨a, ha, txn, htxn, rfl⟩ := mem_fac.mp (List.mem_filter.mp hf).1
      refine ⟨a, ha, ?_⟩
      rw [key, locksOf, htxn]
      rfl
    · obtain ⟨ha, htxn⟩ := List.mem_filter.mp ha
      have htxn := of_decide_eq_true htxn
      refine ⟨a, ha, ?_⟩
      rw [key, locksOf, kind, htxn]
      rfl
  · rintro ⟨a, ha, rfl⟩
    cases htxn : a.txnId with
    | none =>
      refine .inr ⟨a, List.mem_filter.mpr ⟨ha, decide_eq_true htxn⟩, ?_⟩
      rw [key, locksOf, kind, htxn]
      rfl
    | some txn =>
      refine .inl ⟨_, List.mem_filter.mpr ⟨mem_fac.mpr ⟨a, ha, txn, htxn, rfl⟩, decide_eq_true (hlocks a ha txn htxn)⟩, ?_⟩
      rw [key, locksOf, htxn]
      rfl

end Database

variable {cfg : Config} {trace : List Event} {σ : State} {t : Tables} {db : Database} {o : Options}

/-- The flat accesses are accesses of the trace. -/
theorem Tables.Imported.row_of_flat (h : t.Imported db σ) {a : FlatAccess} (ha : a ∈ db.accessesFlat) :
    ∃ row ∈ σ.accessOFile, a.id = row.access.id ∧ a.txnId = row.txnId := by
  have hflat := h.flat
  unfold Tables.postProcess at hflat
  split at hflat
  · rw [← Option.some.inj hflat, accessesFlat_delAtomic] at ha
    obtain ⟨ac, hac, ha⟩ := List.mem_flatMap.mp ha
    rw [h.accesses] at hac
    obtain ⟨row, hrow, rfl⟩ := List.mem_map.mp hac
    split at ha
    · split at ha
      · cases ha
      · obtain ⟨sl, -, rfl⟩ := List.mem_map.mp ha
        exact ⟨row, hrow, rfl, rfl⟩
    · cases ha
  · cases hflat

/-- The labels of a recorded transaction are those of the sub locks that it was recorded with. -/
theorem Tables.Imported.mem_labels (h : t.Imported db σ) (hconv : convert cfg trace = .ok σ) {txn : Nat}
    {held : List (LockPtr × SubLock)} (hset : σ.lockManager.Settled txn held) (allocId : Nat) {name : Text} :
    name ∈ db.labels o txn allocId ↔
      ∃ x ∈ held, ∃ l ∈ σ.locksOFile, σ.lockManager.RowOf x l ∧ t.lockLabel db o allocId l = name := by
  obtain ⟨hnodup, hrows⟩ := convert_lockRows hconv
  have hone : ∀ l ∈ σ.locksOFile, ∀ l' ∈ σ.locksOFile, l.id = l'.id → l = l' := fun l hl l' hl' he =>
    List.inj_on_of_nodup_map hnodup hl hl' he
  have hlabel : ∀ (l : LockRow) (start : Nat),
      (label o.useSubclasses allocId (t.heldLock db l start)).text = t.lockLabel db o allocId l := fun _ _ => rfl
  simp only [Database.labels, List.mem_map, (h.held txn).mem_iff, List.mem_flatMap]
  constructor
  · rintro ⟨-, ⟨r, hr, l, hl, rfl⟩, rfl⟩
    obtain ⟨hl, hid⟩ := List.mem_filter.mp hl
    obtain ⟨x, hx, hxr⟩ := List.mem_map.mp (hset.rows.mem_iff.mp (List.mem_map_of_mem hr))
    have hx := List.mem_dedup.mp hx
    obtain ⟨l', hl', hrow⟩ := hrows x (hset.used x hx)
    have hll : l' = l := hone l' hl' l hl (hrow.id.trans (hxr.trans (of_decide_eq_true hid).symm))
    exact ⟨x, hx, l, hl, hll ▸ hrow, (hlabel l _).symm⟩
  · rintro ⟨x, hx, l, hl, hrow, rfl⟩
    obtain ⟨r, hr, hxr⟩ := List.mem_map.mp (hset.rows.mem_iff.mpr (List.mem_map_of_mem (List.mem_dedup.mpr hx)))
    have hid : l.id = r.lockId := hrow.id.trans hxr.symm
    exact ⟨_, ⟨r, hr, l, List.mem_filter.mpr ⟨hl, decide_eq_true hid⟩, rfl⟩, hlabel l _⟩

/-- On a legal trace the rows of the accesses are backed by what was held. -/
theorem convert_rowOf (hlegal : Legal cfg trace) (hconv : convert cfg trace = .ok σ) :
    List.Forall₂ (RowOf σ.lockManager.Settled) (reference cfg trace).admitted σ.accessOFile ∧
      (σ.accessOFile.map fun row => row.access.id).Nodup := by
  obtain ⟨σ₁, hrun, hfin⟩ := bind_ok.mp hconv
  obtain ⟨r, hr⟩ := run_trackStep (r := .init) hrun
  have htracks : Tracks cfg (σ₁, r) :=
    run_invariant (fun s e t hI hC hst => step_tracks hI hC hst) hlegal (init_tracks cfg) hr
  obtain ⟨σ', hσ', hrows⟩ := finish_tracks htracks
  rw [hfin] at hσ'
  cases hσ'
  simp only [reference, hr]
  exact hrows

/-- An access is counted with the labels of what its context held. -/
theorem Tables.Imported.mem_locksOf (h : t.Imported db σ) (hconv : convert cfg trace = .ok σ) {ad : Admitted}
    {row : AccessRow} (hrow : RowOf σ.lockManager.Settled ad row) {a : FlatAccess} (htxn : a.txnId = row.txnId)
    {name : Text} : name ∈ db.locksOf o a ↔
      ∃ x ∈ ad.held, ∃ l ∈ σ.locksOFile, σ.lockManager.RowOf x l ∧ t.lockLabel db o a.allocId l = name := by
  unfold Database.locksOf
  cases hid : a.txnId with
  | none =>
    rw [hrow.null.mp (htxn.symm.trans hid)]
    simp
  | some txn => exact h.mem_labels hconv (hrow.backed txn (htxn.symm.trans hid)) a.allocId

/-- A transaction with an access has locks. -/
theorem Tables.Imported.held_ne_nil (h : t.Imported db σ) (hconv : convert cfg trace = .ok σ) {ad : Admitted}
    {row : AccessRow} (hrow : RowOf σ.lockManager.Settled ad row) {txn : Nat} (htxn : row.txnId = some txn) :
    db.held txn ≠ [] := by
  obtain ⟨x, held, hheld⟩ := List.exists_cons_of_ne_nil fun he => by
    rw [hrow.null.mpr he] at htxn
    cases htxn
  have hset := hrow.backed txn htxn
  obtain ⟨l, hl, hx⟩ := (convert_lockRows hconv).2 x (hset.used x (hheld ▸ List.mem_cons_self))
  have hlabel := (h.mem_labels (o := ⟨none, none, false, false⟩) hconv hset 0).mpr
    ⟨x, hheld ▸ List.mem_cons_self, l, hl, hx, rfl⟩
  intro hnil
  rw [Database.labels, hnil] at hlabel
  cases hlabel

/-- A flat access and the row of `accesses.csv` with its id. -/
theorem Tables.Imported.txn_of_flat (h : t.Imported db σ) (hids : (σ.accessOFile.map fun row => row.access.id).Nodup)
    {a : FlatAccess} (ha : a ∈ db.accessesFlat) {row : AccessRow} (hrow : row ∈ σ.accessOFile)
    (hid : a.id = row.access.id) : a.txnId = row.txnId := by
  obtain ⟨row', hrow', hid', htxn⟩ := h.row_of_flat ha
  rw [htxn, List.inj_on_of_nodup_map hids hrow' hrow (hid'.symm.trans hid)]

/-- Every row belongs to an access of the reference. -/
theorem exists_admitted {B : Nat → List (LockPtr × SubLock) → Prop} {ads : List Admitted} {file : List AccessRow}
    (h : List.Forall₂ (RowOf B) ads file) {row : AccessRow} (hrow : row ∈ file) :
    ∃ (n : Nat) (ad : Admitted), ads[n]? = some ad ∧ file[n]? = some row := by
  obtain ⟨n, hn, rfl⟩ := List.getElem_of_mem hrow
  have hn' : n < ads.length := h.length_eq ▸ hn
  exact ⟨n, ads[n], List.getElem?_eq_getElem hn', List.getElem?_eq_getElem hn⟩

theorem rowOf_getElem {B : Nat → List (LockPtr × SubLock) → Prop} {ads : List Admitted} {file : List AccessRow}
    (h : List.Forall₂ (RowOf B) ads file) {n : Nat} {ad : Admitted} {row : AccessRow} (had : ads[n]? = some ad)
    (hrow : file[n]? = some row) : RowOf B ad row := by
  obtain ⟨hn, rfl⟩ := List.getElem?_eq_some_iff.mp had
  obtain ⟨hn', rfl⟩ := List.getElem?_eq_some_iff.mp hrow
  exact h.get hn hn'

/-- A rule has full support exactly if it was kept: for the lines of every legal trace, in the
hypotheses that come out of the conversion, the import, the post-processing and the query, a hypothesis
occurs as often as the member exactly if at every access of the trace that counts for the member the
context held, for each of its locks, a sub lock with this label. -/
theorem full_support_iff (cfg : Config) (delimiter : Char) (lines : List String) (trace : List Event)
    (hreads : Reads cfg delimiter .init (skipHeader lines) trace) (hlegal : Legal cfg trace) {σ : State}
    (hlines : convertLines cfg delimiter lines = .ok σ) (t : Tables) (db : Database) (himport : t.Imported db σ)
    (o : Options) (hnamed : db.WellNamed) (rows : List (WithLocks × Nat)) (hrows : rows.Perm (db.query o)) (maxHypoLen : Nat)
    (input : Input) (hload : Yields (fun n => load n (psqlOutput rows)) input) :
    ∀ e ∈ input.members, ∃ found, Yields (fun n => findHypotheses n e.member maxHypoLen) found ∧
      ∀ (h : List MyId) (x : LockingHypothesisMatches), found.hypotheses[h]? = some x →
        (x.occurrences = found.occurrences ↔
          ∀ (n : Nat) ad row, (reference cfg trace).admitted[n]? = some ad → σ.accessOFile[n]? = some row →
            ∀ a ∈ db.selected o, a.id = row.access.id → db.key o a = e.key →
              ∀ i ∈ h, ∃ s ∈ ad.held, ∃ l ∈ σ.locksOFile, σ.lockManager.RowOf s l ∧
                input.locks.idxOf (t.lockLabel db o a.allocId l) = i) := by
  have hconv := (convertLines_reads hreads σ).mp hlines
  obtain ⟨hrowOf, hids⟩ := convert_rowOf hlegal hconv
  have hl := loaded_of_yields hload
  obtain ⟨-, hcount⟩ := loaded_query hnamed hrows hl
  intro e he
  obtain ⟨found, hfound, hocc, hsupport⟩ := support_of_counts hcount (hl.counts he) maxHypoLen
  refine ⟨found, hfound, fun h x hx => ?_⟩
  rw [(hsupport h x hx).2, hocc, countP_and_eq_iff]
  -- The observations are those of the accesses of the trace.
  have hlocks : ∀ a ∈ db.selected o, ∀ txn, a.txnId = some txn → db.held txn ≠ [] := by
    intro a ha txn htxn
    obtain ⟨row, hrow, -, hsame⟩ := himport.row_of_flat (List.mem_filter.mp ha).1
    obtain ⟨n, ad, had, hn⟩ := exists_admitted hrowOf hrow
    exact himport.held_ne_nil hconv (rowOf_getElem hrowOf had hn) (hsame.symm.trans htxn)
  constructor
  · intro hshown n ad row had hn a ha hid hkey i hi
    have hrow := List.mem_of_getElem? hn
    have htxn := himport.txn_of_flat hids (List.mem_filter.mp ha).1 hrow hid
    have hobs := (Database.mem_observations hlocks).mpr ⟨a, ha, rfl⟩
    have hin := List.all_eq_true.mp (hshown _ hobs (decide_eq_true hkey)) i hi
    obtain ⟨name, hname, rfl⟩ := List.mem_map.mp (of_decide_eq_true hin)
    obtain ⟨s, hs, l, hl, hrowl, rfl⟩ := (himport.mem_locksOf hconv (rowOf_getElem hrowOf had hn) htxn).mp hname
    exact ⟨s, hs, l, hl, hrowl, rfl⟩
  · intro hheld y hy hkey
    obtain ⟨a, ha, rfl⟩ := (Database.mem_observations hlocks).mp hy
    obtain ⟨row, hrow, hid, htxn⟩ := himport.row_of_flat (List.mem_filter.mp ha).1
    obtain ⟨n, ad, had, hn⟩ := exists_admitted hrowOf hrow
    rw [List.all_eq_true]
    intro i hi
    obtain ⟨s, hs, l, hl, hrowl, rfl⟩ := hheld n ad row had hn a ha hid (of_decide_eq_true hkey) i hi
    have hname := (himport.mem_locksOf (o := o) hconv (rowOf_getElem hrowOf had hn) htxn).mpr ⟨s, hs, l, hl, hrowl, rfl⟩
    exact decide_eq_true (List.mem_map_of_mem hname)

/-- The tables of a conversion with one access under a lock, which is in an allocation that is not known. -/
def writerTables : Tables :=
  { oneImported with
    accesses := [⟨1, 2, some 1, .read, 0x1008, 1⟩]
    allocations := fun i => if i = 2 then some ⟨1, 0x1000⟩ else none }

def writerDatabase : Database where
  accessesFlat := [⟨1, some 1, 2, .read, 1, 1, 2, 8, 1⟩]
  memberName _ := "i_lock"
  dataTypeName _ := "inode"
  subclass _ := (1, none)
  held txn := if txn = 1 then [⟨2, 2, 0x100, "rwlock_t", none, .writer, some (1, ⟨"", none, none, false⟩)⟩] else []
  ordered txn := by
    split
    · exact List.pairwise_singleton _ _
    · exact List.Pairwise.nil
  typed := by decide

theorem writerDatabase_named : writerDatabase.WellNamed where
  member _ := by
    change PlainText "i_lock".toList
    decide
  dataType _ := by
    change PlainText "inode".toList
    decide
  subclass := by simp [writerDatabase]
  held txn l hl := by
    simp only [writerDatabase] at hl
    split at hl
    · rw [List.mem_singleton.mp hl]
      exact ⟨by decide, by simp, by simp; decide, by simp, by simp⟩
    · cases hl

/-- The trace with a header line, the allocation, and the access between the operations on the lock. -/
def writerLines : List String :=
  ["ts;action;lock_op;ptr;size;base_ptr;type;lock_member;file;line;instrptr;stacktrace;flags;ctx",
    "1;a;0;1000;64;0;inode;;;0;0;;0;0", "2;l;1;100;0;0;rwlock_t;i_lock;/linux/fs/inode.c;2;0;;0;0",
    "3;r;0;1008;4;1000;;;;0;c0de;;0;0", "4;l;3;100;0;0;rwlock_t;i_lock;/linux/fs/inode.c;4;0;;0;0"]

theorem writerLines_reads : Reads (.trackAll false) ';' .init (skipHeader writerLines) accessUnderWriter := by
  let allocated : Vars := { Vars.init.fresh with action := 'a', typeStr := "inode", baseAddress := 0x1000, size := 64 }
  let locked : Vars := { allocated.fresh with
    action := 'l', lockType := "rwlock_t", lockMember := "i_lock", file := "/linux/fs/inode.c", line := 2, address := 0x100
    flags := 0 }
  let read : Vars := { locked.fresh with
    action := 'r', address := 0x1008, size := 4, baseAddress := 0x1000, instrPtr := 0xc0de, stacktrace := "" }
  let unlocked : Vars := { read.fresh with
    action := 'l', lockOP := .vWrite, lockType := "rwlock_t", lockMember := "i_lock", file := "/linux/fs/inode.c", line := 4
    address := 0x100, flags := 0 }
  have hheader : skipHeader writerLines = writerLines.tail := by decide +kernel
  rw [hheader]
  exact .cons _ allocated _ _ 1 _ (by decide +kernel) (by decide +kernel) (by decide +kernel)
    (.cons _ locked _ _ 2 _ (by decide +kernel) (by decide +kernel) (by decide +kernel)
      (.cons _ read _ _ 3 _ (by decide +kernel) (by decide +kernel) (by decide +kernel)
        (.cons _ unlocked _ _ 4 _ (by decide +kernel) (by decide +kernel) (by decide +kernel) (.nil _))))

/-- What there is after the conversion of `accessUnderWriter`. -/
theorem accessUnderWriter_converted : ∃ σ, convert (.trackAll false) accessUnderWriter = .ok σ ∧
    σ.accessOFile = [⟨⟨1, 3, 2, .read, 4, 0x1008, 1, 0⟩, some 1⟩] ∧
    σ.locksOFile = [⟨2, 0x100, some 1, "rwlock_t", .writer, none, 0⟩, ⟨1, 0x100, some 1, "rwlock_t", .reader, none, 0⟩] ∧
    σ.lockManager.locksHeldOFile = [⟨1, 2, 2, "fs/inode.c", 2⟩] ∧
    0 < σ.lockManager.objects ∧ (σ.lockManager.heap 0).cls = .rwLock := by
  have hend : okAnd (convert (.trackAll false) accessUnderWriter) (fun σ =>
      σ.accessOFile = [⟨⟨1, 3, 2, .read, 4, 0x1008, 1, 0⟩, some 1⟩] ∧
      σ.locksOFile = [⟨2, 0x100, some 1, "rwlock_t", .writer, none, 0⟩, ⟨1, 0x100, some 1, "rwlock_t", .reader, none, 0⟩] ∧
      σ.lockManager.locksHeldOFile = [⟨1, 2, 2, "fs/inode.c", 2⟩] ∧
      0 < σ.lockManager.objects ∧ (σ.lockManager.heap 0).cls = .rwLock) = true := by decide +kernel
  obtain ⟨σ, hσ, h⟩ := okAnd_iff.mp hend
  exact ⟨σ, hσ, of_decide_eq_true h⟩

theorem writerTables_imported {σ : State} (hacc : σ.accessOFile = [⟨⟨1, 3, 2, .read, 4, 0x1008, 1, 0⟩, some 1⟩])
    (hlocks : σ.locksOFile =
      [⟨2, 0x100, some 1, "rwlock_t", .writer, none, 0⟩, ⟨1, 0x100, some 1, "rwlock_t", .reader, none, 0⟩])
    (hheld : σ.lockManager.locksHeldOFile = [⟨1, 2, 2, "fs/inode.c", 2⟩]) :
    writerTables.Imported writerDatabase σ where
  accesses := by
    rw [hacc]
    rfl
  disjoint := by
    change Disjoint oneImported.structsLayout
    unfold Disjoint
    decide
  flat := by
    have hflat : writerTables.flatRows ⟨1, 1, 8⟩ = [⟨1, "spinlock_t", 2, 8, 4, by decide⟩] := by
      rw [flatRows_eq]
      decide
    have hac : writerTables.accesses = [⟨1, 2, some 1, .read, 0x1008, 1⟩] := rfl
    have hloc : writerTables.located ⟨1, 2, some 1, .read, 0x1008, 1⟩ = some ⟨1, 1, 8⟩ := rfl
    exact postProcess_singleton hac hloc hflat (by decide) rfl rfl
  held txn := by
    rw [hheld, hlocks]
    by_cases htxn : txn = 1
    · subst htxn
      exact List.Perm.refl _
    · have hne : ¬1 = txn := fun h => htxn h.symm
      simp [writerDatabase, htxn, hne]

theorem accessUnderWriter_support : ∃ σ input, convertLines (.trackAll false) ';' writerLines = .ok σ ∧
    Yields (fun n => load n (psqlOutput (writerDatabase.query ⟨none, none, false, false⟩))) input ∧
    ∀ e ∈ input.members, ∃ found, Yields (fun n => findHypotheses n e.member 0) found ∧
      ∀ (h : List MyId) (x : LockingHypothesisMatches), found.hypotheses[h]? = some x → (∀ i ∈ h, i = 0) →
        x.occurrences = found.occurrences := by
  obtain ⟨σ, hσ, hacc, hlocks, hheld, hobj, hcls⟩ := accessUnderWriter_converted
  have hlegal : checkAlong (trackStep (.trackAll false)) (legalStep (.trackAll false)) accessUnderWriter
      (.init (.trackAll false), .init) = true := by decide +kernel
  have htext : psqlOutput (writerDatabase.query ⟨none, none, false, false⟩) =
      ("type_name\tmembers_accessed\tlocks_held\toccurrences\ninode\tr:i_lock\tEMBOTHER(.?[w])\t1\n").toList := by
    decide +kernel
  obtain ⟨input, hread, hlocks', hlen⟩ : ∃ input,
      (dataLines (psqlOutput (writerDatabase.query ⟨none, none, false, false⟩))).foldlM readLine ⟨[], []⟩ = .ok input ∧
        input.locks = ["EMBOTHER(.?[w])".toList] ∧ input.members.length < 65536 := by
    rw [htext]
    exact ⟨_, rfl, by decide +kernel, by decide +kernel⟩
  have hload := load_yields hread hlen
  have himport := writerTables_imported hacc hlocks hheld
  have hlines := (convertLines_reads writerLines_reads σ).mpr hσ
  refine ⟨σ, _, hlines, hload, fun e he => ?_⟩
  obtain ⟨found, hfound, hsupport⟩ := full_support_iff (.trackAll false) ';' writerLines accessUnderWriter
    writerLines_reads (along_of_check hlegal) hlines writerTables writerDatabase himport _ writerDatabase_named _
    (List.Perm.refl _) 0 _ hload e he
  refine ⟨found, hfound, fun h x hx hzero => (hsupport h x hx).mpr ?_⟩
  intro n ad row had hrow a ha hid hkey i hi
  have hadmitted : (reference (.trackAll false) accessUnderWriter).admitted.map Admitted.held = [[(0, .writer)]] := by
    decide +kernel
  have hwriter : ad.held = [(0, .writer)] :=
    List.mem_singleton.mp (hadmitted ▸ List.mem_map_of_mem (List.mem_of_getElem? had))
  have hused : σ.lockManager.Used (0, .writer) := ⟨hobj, by simp [hcls, LockClass.has]⟩
  obtain ⟨l, hl, hrowl⟩ := (convert_lockRows hσ).2 _ hused
  refine ⟨(0, .writer), by simp [hwriter], l, hl, hrowl, ?_⟩
  have hside := hrowl.side
  rw [hlocks] at hl
  rw [hzero i hi, List.mem_singleton.mp (List.mem_filter.mp ha).1]
  rcases List.mem_cons.mp hl with rfl | hl
  · have hlabel : writerTables.lockLabel writerDatabase ⟨none, none, false, false⟩ 2
        ⟨2, 0x100, some 1, "rwlock_t", .writer, none, 0⟩ = "EMBOTHER(.?[w])".toList := by decide +kernel
    simp only [hlabel, hlocks']
    decide
  · rw [List.mem_singleton.mp hl] at hside
    cases hside

end LockDoc.Queries
