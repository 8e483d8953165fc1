import LockDoc.Lib.Like
import LockDoc.Queries.TxnMembersLocks

/-!
# Flat tables

`post-process-trace.sh` from the imported tables to `accesses_flat`. The layout of a data type is
spread out over a table with one row for each offset, so that an access finds its member by an
equality; accesses to atomic members are deleted; an access without a member ends the script; the
blacklists leave out members and functions. What remains is what a search for the member of each
access gives.
-/
namespace LockDoc.Queries

open LockDoc.Convert (AccessKind)

/-- A row of `structs_layout`; `dataTypeName` is the type of the member. -/
structure LayoutRow where
  dataTypeId : Nat
  dataTypeName : String
  memberNameId : Nat
  byteOffset : Nat
  size : Nat
  pos : 0 < size
  deriving DecidableEq

/-- A row of `accesses`. -/
structure ImportedAccess where
  id : Nat
  allocId : Nat
  txnId : Option Nat
  type : AccessKind
  address : Int
  stacktraceId : Nat
  deriving DecidableEq, Repr

/-- A row of `allocations`. -/
structure ImportedAllocation where
  subclassId : Nat
  baseAddress : Int
  deriving DecidableEq, Repr

/-- A row of `stacktraces`. -/
structure ImportedFrame where
  id : Nat
  sequence : Nat
  function : String
  deriving DecidableEq, Repr

/-- A row of `function_blacklist`. -/
structure BlacklistedFunction where
  subclassId : Option Nat
  memberNameId : Option Nat
  fn : String
  sequence : Option Nat
  deriving DecidableEq, Repr

/-- The tables after the import; the ones with an `id` as primary key are looked up by it. -/
structure Tables where
  accesses : List ImportedAccess
  allocations : Nat → Option ImportedAllocation
  subclasses : Nat → Option Nat
  dataTypes : Nat → Option String
  structsLayout : List LayoutRow
  memberNames : Nat → Option String
  memberBlacklist : List (Nat × Nat)
  functionBlacklist : List BlacklistedFunction
  stacktraces : List ImportedFrame

/-- The subclass and the data type of an access, and its offset in the allocation. -/
structure Location where
  subclassId : Nat
  dataTypeId : Nat
  offset : Int
  deriving DecidableEq, Repr

/-- `generate_series(0,1048576)` ends here. -/
def looongSequence : Nat := 1048576

/-- `flatten-structs_layout.sh`: a row for each offset that belongs to a member. -/
def structsLayoutFlat (layout : List LayoutRow) : List (LayoutRow × Nat) :=
  (List.range (looongSequence + 1)).flatMap fun offset =>
    (layout.filter fun sl => sl.byteOffset ≤ offset && offset ≤ sl.byteOffset + sl.size - 1).map fun sl => (sl, offset)

/-- The patterns of `del-atomic-from-trace.sh`; the star in the second is no wildcard. -/
def atomicPatterns : List (List Char) := ["%atomic\\_t%".toList, "%atomic64\\_t*".toList, "%atomic\\_long\\_t%".toList]

def LayoutRow.isAtomic (sl : LayoutRow) : Bool :=
  atomicPatterns.any fun pattern => Like.Matches (Like.parse pattern) sl.dataTypeName.toList

namespace Tables

variable (t : Tables)

/-- The joins with `allocations`, `subclasses` and `data_types`. -/
def located (ac : ImportedAccess) : Option Location := do
  let a ← t.allocations ac.allocId
  let dataTypeId ← t.subclasses a.subclassId
  let _ ← t.dataTypes dataTypeId
  some ⟨a.subclassId, dataTypeId, ac.address - a.baseAddress⟩

/-- The join with `structs_layout_flat`. -/
def flatRows (loc : Location) : List LayoutRow :=
  ((structsLayoutFlat t.structsLayout).filter fun r => r.1.dataTypeId = loc.dataTypeId && (r.2 : Int) = loc.offset).map
    Prod.fst

/-- `del-atomic-from-trace.sh`. -/
def delAtomic : Tables :=
  { t with accesses := t.accesses.filter fun ac => !(t.located ac).any fun loc => (t.flatRows loc).any LayoutRow.isAtomic }

/-- `check_broken_accesses.sql`: the ids of accesses without a member. -/
def checkBrokenAccesses : List Nat :=
  t.accesses.flatMap fun ac =>
    match t.located ac with
    | none => []
    | some loc =>
      if t.flatRows loc = [] then [ac.id]
      else ((t.flatRows loc).filter fun sl => (t.memberNames sl.memberNameId).isNone).map fun _ => ac.id

/-- A frame of the call stack is blacklisted: everywhere, for a data type or for a member. -/
def functionBlacklisted (ac : ImportedAccess) (subclassId memberNameId : Nat) : Bool :=
  t.stacktraces.any fun st => t.functionBlacklist.any fun bl =>
    bl.fn = st.function && ac.stacktraceId = st.id &&
      ((bl.subclassId.isNone && bl.memberNameId.isNone ||
          bl.subclassId = some subclassId && bl.memberNameId.isNone ||
          bl.subclassId = some subclassId && bl.memberNameId = some memberNameId) &&
        bl.sequence.all (· = st.sequence))

/-- The `WHERE` clause of `accesses_flat_table.sql`. -/
def blacklisted (ac : ImportedAccess) (subclassId memberNameId : Nat) : Bool :=
  t.memberBlacklist.contains (subclassId, memberNameId) || t.functionBlacklisted ac subclassId memberNameId

def flatAccess (ac : ImportedAccess) (loc : Location) (sl : LayoutRow) : FlatAccess :=
  ⟨ac.id, ac.txnId, ac.allocId, ac.type, loc.subclassId, loc.dataTypeId, sl.memberNameId, sl.byteOffset, ac.stacktraceId⟩

/-- `accesses_flat_table.sql`. -/
def accessesFlat : List FlatAccess :=
  t.accesses.flatMap fun ac =>
    match t.located ac with
    | none => []
    | some loc =>
      ((t.flatRows loc).filter fun sl =>
        (t.memberNames sl.memberNameId).isSome && !t.blacklisted ac loc.subclassId sl.memberNameId).map
          (flatAccess ac loc)

/-- The part of `post-process-trace.sh` that makes the table; a broken access ends it. -/
def postProcess : Option (List FlatAccess) :=
  if t.delAtomic.checkBrokenAccesses = [] then some t.delAtomic.accessesFlat else none

end Tables

/-- The member of a data type around an offset. -/
def LayoutRow.covers (loc : Location) (sl : LayoutRow) : Bool :=
  sl.dataTypeId = loc.dataTypeId && (sl.byteOffset : Int) ≤ loc.offset && loc.offset < sl.byteOffset + sl.size

/-- Members of a data type do not overlap. -/
def Disjoint (layout : List LayoutRow) : Prop :=
  layout.Pairwise fun sl sl' => sl.dataTypeId = sl'.dataTypeId →
    sl.byteOffset + sl.size ≤ sl'.byteOffset ∨ sl'.byteOffset + sl'.size ≤ sl.byteOffset

/-- The types that the script takes for atomic. Of the 64-bit types it only sees those whose name
ends with a star. -/
def LayoutRow.Atomic (sl : LayoutRow) : Prop :=
  "atomic_t".toList <:+: sl.dataTypeName.toList ∨ "atomic64_t*".toList <:+ sl.dataTypeName.toList ∨
    "atomic_long_t".toList <:+: sl.dataTypeName.toList

instance (sl : LayoutRow) : Decidable sl.Atomic := inferInstanceAs (Decidable (_ ∨ _))

/-- The row of an access, told by a search for its member. -/
def Tables.rowOf (t : Tables) (ac : ImportedAccess) : Option FlatAccess := do
  let loc ← t.located ac
  let sl ← t.structsLayout.find? (LayoutRow.covers loc)
  if sl.Atomic ∨ t.blacklisted ac loc.subclassId sl.memberNameId then none else some (Tables.flatAccess ac loc sl)

theorem isAtomic_iff (sl : LayoutRow) : sl.isAtomic = true ↔ sl.Atomic := by
  have hparse : atomicPatterns.map Like.parse =
      [.any :: ("atomic_t".toList.map .lit ++ [.any]), .any :: ("atomic64_t*".toList.map .lit ++ []),
        .any :: ("atomic_long_t".toList.map .lit ++ [.any])] := by decide
  have hany : sl.isAtomic = (atomicPatterns.map Like.parse).any fun ps => Like.Matches ps sl.dataTypeName.toList := by
    rw [LayoutRow.isAtomic, List.any_map]
    rfl
  rw [hany, hparse]
  simp only [List.any_cons, List.any_nil, Bool.or_false, Bool.or_eq_true, Like.matches_infix, Like.matches_suffix]
  rfl

theorem flatMap_range_eq {α : Type} (n d : Nat) (xs : Nat → List α) :
    ((List.range n).flatMap fun i => if i = d then xs i else []) = if d < n then xs d else [] := by
  induction n with
  | zero => simp
  | succ n ih =>
    rw [List.range_succ, List.flatMap_append, ih, List.flatMap_singleton]
    by_cases hd : n = d
    · subst hd
      simp
    · by_cases hlt : d < n
      · simp [hd, hlt, Nat.lt_succ_of_lt hlt]
      · have hge : ¬d < n + 1 := by omega
        simp [hd, hlt, hge]

variable {t : Tables}

theorem flatMap_filter {α β : Type} (p : α → Bool) (f : α → List β) (xs : List α) :
    (xs.filter p).flatMap f = xs.flatMap fun x => if p x then f x else [] := by
  induction xs with
  | nil => rfl
  | cons x xs ih =>
    rw [List.flatMap_cons, ← ih]
    by_cases h : p x = true <;> simp [h]

/-- The equality with a row of the flat layout is a search for the members around the offset, up
to the end of the sequence. -/
theorem flatRows_eq (loc : Location) :
    t.flatRows loc =
      if 0 ≤ loc.offset ∧ loc.offset ≤ looongSequence then t.structsLayout.filter (LayoutRow.covers loc) else [] := by
  have hrow : ∀ offset : Nat,
      (((t.structsLayout.filter fun sl => sl.byteOffset ≤ offset && offset ≤ sl.byteOffset + sl.size - 1).map
        fun sl => (sl, offset)).filter
          fun r => r.1.dataTypeId = loc.dataTypeId && (r.2 : Int) = loc.offset).map Prod.fst =
        if (offset : Int) = loc.offset then t.structsLayout.filter (LayoutRow.covers loc) else [] := by
    intro offset
    rw [List.filter_map, List.map_map, List.filter_filter]
    have hid : (Prod.fst ∘ fun sl : LayoutRow => (sl, offset)) = id := rfl
    rw [hid, List.map_id]
    split
    · rename_i he
      refine List.filter_congr fun sl _ => ?_
      have := sl.pos
      rw [Bool.eq_iff_iff]
      simp only [Function.comp_apply, LayoutRow.covers, Bool.and_eq_true, decide_eq_true_eq, ← he, and_true]
      constructor
      · rintro ⟨hd, hlo, hhi⟩
        exact ⟨⟨hd, by omega⟩, by omega⟩
      · rintro ⟨⟨hd, hlo⟩, hhi⟩
        exact ⟨hd, by omega, by omega⟩
    · rename_i he
      rw [List.filter_eq_nil_iff]
      intro sl _
      simp [he]
  rw [Tables.flatRows, structsLayoutFlat, List.filter_flatMap, List.map_flatMap]
  simp only [hrow]
  by_cases h : 0 ≤ loc.offset
  · obtain ⟨d, hd⟩ := Int.eq_ofNat_of_zero_le h
    have hcast : ∀ offset : Nat, ((offset : Int) = loc.offset) = (offset = d) := by
      intro offset
      rw [hd]
      exact propext Nat.cast_inj
    simp only [hcast]
    rw [flatMap_range_eq _ d fun _ => t.structsLayout.filter (LayoutRow.covers loc)]
    have hiff : d < looongSequence + 1 ↔ 0 ≤ loc.offset ∧ loc.offset ≤ looongSequence := by omega
    simp only [hiff]
  · rw [if_neg fun hc => h hc.1, List.flatMap_eq_nil_iff]
    intro offset _
    have hne : ¬(offset : Int) = loc.offset := by omega
    rw [if_neg hne]

/-- Members that do not overlap: there is at most one around an offset. -/
theorem filter_covers {layout : List LayoutRow} (h : Disjoint layout) (loc : Location) :
    layout.filter (LayoutRow.covers loc) = (layout.find? (LayoutRow.covers loc)).toList := by
  induction layout with
  | nil => rfl
  | cons sl layout ih =>
    obtain ⟨hsl, hrest⟩ := List.pairwise_cons.mp h
    by_cases hc : sl.covers loc = true
    · have hnone : layout.filter (LayoutRow.covers loc) = [] := by
        rw [List.filter_eq_nil_iff]
        intro sl' hsl' hc'
        have hdis := hsl sl' hsl'
        simp only [LayoutRow.covers, Bool.and_eq_true, decide_eq_true_eq] at hc hc'
        have := hdis (hc.1.1.trans hc'.1.1.symm)
        omega
      rw [List.filter_cons_of_pos hc, List.find?_cons_of_pos hc, hnone]
      rfl
    · rw [List.filter_cons_of_neg hc, List.find?_cons_of_neg hc, ih hrest]

theorem flatRows_delAtomic (loc : Location) : t.delAtomic.flatRows loc = t.flatRows loc := by
  unfold Tables.flatRows
  rfl

/-- The table is made from what is kept, with the layout and the blacklists as they were. -/
theorem accessesFlat_delAtomic : t.delAtomic.accessesFlat = t.accesses.flatMap fun ac =>
    if !(t.located ac).any fun loc => (t.flatRows loc).any LayoutRow.isAtomic then
      match t.located ac with
      | none => []
      | some loc => ((t.flatRows loc).filter fun sl => (t.memberNames sl.memberNameId).isSome &&
          !t.blacklisted ac loc.subclassId sl.memberNameId).map (Tables.flatAccess ac loc)
    else [] := by
  have hloc : ∀ ac, t.delAtomic.located ac = t.located ac := fun _ => rfl
  have hnames : t.delAtomic.memberNames = t.memberNames := rfl
  have hblack : ∀ ac s m, t.delAtomic.blacklisted ac s m = t.blacklisted ac s m := fun _ _ _ => rfl
  have haccesses : t.delAtomic.accesses =
      t.accesses.filter fun ac => !(t.located ac).any fun loc => (t.flatRows loc).any LayoutRow.isAtomic := rfl
  rw [Tables.accessesFlat, haccesses, flatMap_filter]
  simp only [hloc, hnames, hblack, flatRows_delAtomic]

/-- What is not atomic is kept. -/
theorem mem_delAtomic {ac : ImportedAccess} (hac : ac ∈ t.accesses) {loc : Location} (hloc : t.located ac = some loc)
    (hatomic : (t.flatRows loc).any LayoutRow.isAtomic = false) : ac ∈ t.delAtomic.accesses := by
  have hkeep : (!(t.located ac).any fun loc => (t.flatRows loc).any LayoutRow.isAtomic) = true := by
    rw [hloc, Option.any_some, hatomic, Bool.not_false]
  exact List.mem_filter.mpr ⟨hac, hkeep⟩

/-- After the check every access that is left has a member with a name. -/
theorem member_of_checked (h : t.delAtomic.checkBrokenAccesses = []) {ac : ImportedAccess} (hac : ac ∈ t.accesses)
    {loc : Location} (hloc : t.located ac = some loc) :
    t.flatRows loc ≠ [] ∧ ((t.flatRows loc).any LayoutRow.isAtomic = false →
      ∀ sl ∈ t.flatRows loc, (t.memberNames sl.memberNameId).isSome = true) := by
  by_cases hatomic : (t.flatRows loc).any LayoutRow.isAtomic = true
  · refine ⟨?_, fun hn => absurd hatomic (by simp [hn])⟩
    intro hnil
    rw [hnil] at hatomic
    cases hatomic
  · have hleft := mem_delAtomic hac hloc (Bool.eq_false_iff.mpr hatomic)
    have hnone := List.flatMap_eq_nil_iff.mp h ac hleft
    have hloc' : t.delAtomic.located ac = some loc := hloc
    rw [hloc'] at hnone
    dsimp only at hnone
    split at hnone
    · cases hnone
    · rename_i hne
      refine ⟨hne, fun _ sl hsl => ?_⟩
      rw [List.map_eq_nil_iff, List.filter_eq_nil_iff] at hnone
      have := hnone sl hsl
      rwa [Bool.not_eq_true, Option.isNone_eq_false_iff] at this

/-- If the members of each data type do not overlap and the script gets through, every access has
a member, and the flat table is what the search for it gives: one row for each access, but none for
accesses to members of an atomic type and for what the blacklists leave out. -/
theorem postProcess_exact (t : Tables) (hdisjoint : Disjoint t.structsLayout) {flat : List FlatAccess}
    (h : t.postProcess = some flat) :
    flat = t.accesses.filterMap t.rowOf ∧
      ∀ ac ∈ t.accesses, ∀ loc, t.located ac = some loc → ∃ sl ∈ t.structsLayout, sl.covers loc = true := by
  unfold Tables.postProcess at h
  split at h
  · rename_i hcheck
    cases h
    have hmember : ∀ ac ∈ t.accesses, ∀ loc, t.located ac = some loc →
        ∃ sl, t.structsLayout.find? (LayoutRow.covers loc) = some sl ∧ t.flatRows loc = [sl] := by
      intro ac hac loc hloc
      obtain ⟨hne, -⟩ := member_of_checked hcheck hac hloc
      rw [flatRows_eq] at hne
      have hflat := @flatRows_eq t loc
      split at hne
      · rename_i hseq
        rw [if_pos hseq, filter_covers hdisjoint] at hflat
        rw [filter_covers hdisjoint] at hne
        cases hfind : t.structsLayout.find? (LayoutRow.covers loc) with
        | none => simp [hfind] at hne
        | some sl => exact ⟨sl, rfl, by simpa [hfind] using hflat⟩
      · exact absurd rfl hne
    refine ⟨?_, ?_⟩
    · have hrow : ∀ ac ∈ t.accesses, ∀ loc sl, t.located ac = some loc → t.flatRows loc = [sl] →
          sl.isAtomic = false → (t.memberNames sl.memberNameId).isSome = true := by
        intro ac hac loc sl hloc hflat hatomic
        have hnames := (member_of_checked hcheck hac hloc).2
        rw [hflat] at hnames
        exact hnames (by simp [hatomic]) sl List.mem_cons_self
      rw [List.filterMap_eq_flatMap_toList, accessesFlat_delAtomic]
      refine List.flatMap_congr fun ac hac => ?_
      cases hloc : t.located ac with
      | none => simp [Tables.rowOf, hloc]
      | some loc =>
        obtain ⟨sl, hfind, hflat⟩ := hmember ac hac loc hloc
        have hany : ((some loc).any fun loc => (t.flatRows loc).any LayoutRow.isAtomic) = sl.isAtomic := by
          rw [Option.any_some, hflat]
          simp
        rw [hany]
        cases hatomic : sl.isAtomic with
        | true =>
          have hspec := (isAtomic_iff sl).mp hatomic
          simp [Tables.rowOf, hloc, hfind, hspec]
        | false =>
          have hspec : ¬sl.Atomic := fun h => by simp [(isAtomic_iff sl).mpr h] at hatomic
          have hname := hrow ac hac loc sl hloc hflat hatomic
          cases hblack : t.blacklisted ac loc.subclassId sl.memberNameId <;>
            simp [Tables.rowOf, hloc, hfind, hflat, hspec, hname, hblack]
    · intro ac hac loc hloc
      obtain ⟨sl, hfind, -⟩ := hmember ac hac loc hloc
      exact ⟨sl, List.mem_of_find?_eq_some hfind, List.find?_some hfind⟩
  · cases h

/-- A single access to a member that nothing leaves out. -/
theorem postProcess_singleton {ac : ImportedAccess} {loc : Location} {sl : LayoutRow} (hac : t.accesses = [ac])
    (hloc : t.located ac = some loc) (hflat : t.flatRows loc = [sl]) (hatomic : sl.isAtomic = false)
    (hname : (t.memberNames sl.memberNameId).isSome = true)
    (hblack : t.blacklisted ac loc.subclassId sl.memberNameId = false) :
    t.postProcess = some [Tables.flatAccess ac loc sl] := by
  have hdel : t.delAtomic = t := by
    have hkeep : t.accesses.filter (fun ac => !(t.located ac).any fun loc => (t.flatRows loc).any LayoutRow.isAtomic) =
        t.accesses := by
      refine List.filter_eq_self.mpr fun ac' hac' => ?_
      rw [hac] at hac'
      rw [List.mem_singleton.mp hac', hloc, Option.any_some, hflat]
      simp [hatomic]
    rw [Tables.delAtomic, hkeep]
  have hcheck : t.checkBrokenAccesses = [] := by
    rw [Tables.checkBrokenAccesses, hac, List.flatMap_singleton, hloc]
    simp [hflat, Option.isSome_iff_ne_none.mp hname]
  rw [Tables.postProcess, hdel, if_pos hcheck, Tables.accessesFlat, hac, List.flatMap_singleton, hloc]
  simp [hflat, hname, hblack]

/-- One access to the second member of a data type. -/
def oneImported : Tables where
  accesses := [⟨1, 1, none, .read, 0x1008, 1⟩]
  allocations _ := some ⟨1, 0x1000⟩
  subclasses _ := some 1
  dataTypes _ := some "inode"
  structsLayout := [⟨1, "int", 1, 0, 8, by decide⟩, ⟨1, "spinlock_t", 2, 8, 4, by decide⟩]
  memberNames _ := some "i_lock"
  memberBlacklist := []
  functionBlacklist := []
  stacktraces := []

theorem oneImported_exact : oneImported.postProcess = some [⟨1, none, 1, .read, 1, 1, 2, 8, 1⟩] ∧
    oneImported.accesses.filterMap oneImported.rowOf = [⟨1, none, 1, .read, 1, 1, 2, 8, 1⟩] := by
  have hdisjoint : Disjoint oneImported.structsLayout := by
    unfold Disjoint
    decide
  have hflat : oneImported.flatRows ⟨1, 1, 8⟩ = [⟨1, "spinlock_t", 2, 8, 4, by decide⟩] := by
    rw [flatRows_eq]
    decide
  have hac : oneImported.accesses = [⟨1, 1, none, .read, 0x1008, 1⟩] := rfl
  have hloc : oneImported.located ⟨1, 1, none, .read, 0x1008, 1⟩ = some ⟨1, 1, 8⟩ := rfl
  have h := postProcess_singleton hac hloc hflat (by decide) rfl rfl
  exact ⟨h, (postProcess_exact oneImported hdisjoint h).1.symm⟩

end LockDoc.Queries
