import LockDoc.Hypothesizer.Renumber
import LockDoc.Queries.TxnMembersLocks

/-!
# Counting stack traces

With `stack`, `create-txn-members-locks.sh` generates another query: it finds the locks of every
single access and counts, for each member and string of locks, the distinct stack traces. The
hypothesizer reads its result like that of the other query; what it counts then are sightings,
not accesses.
-/
namespace LockDoc.Queries

open LockDoc.Convert (AccessKind)
open LockDoc.Hypothesizer
open Worklist

/-- A row of the subquery `obs`. -/
structure Obs where
  typeId : Nat
  memberNameId : Nat
  acType : AccessKind
  stacktraceId : Nat
  locksHeld : Text
  deriving DecidableEq, Repr

/-- What the query counts: a member accessed under locks, in a stack trace. -/
structure Sighting where
  typeId : Nat
  memberNameId : Nat
  acType : AccessKind
  stacktraceId : Nat
  locks : List Text
  deriving DecidableEq, Repr

def Sighting.obs (s : Sighting) : Obs := ⟨s.typeId, s.memberNameId, s.acType, s.stacktraceId, stringAgg s.locks⟩

/-- The columns that `fstacks` groups by. -/
def Obs.key (x : Obs) : Nat × Nat × AccessKind × Text := (x.typeId, x.memberNameId, x.acType, x.locksHeld)

namespace Database

variable (db : Database) (o : Options)

/-- The columns of an access that `obs` groups by. -/
def obsKey (a : FlatAccess) : Nat × Nat × Nat × AccessKind × Nat :=
  (a.id, o.typeId a.subclassId a.dataTypeId, a.memberNameId, a.acType, a.stacktraceId)

/-- The join of an access with the locks of its transaction. -/
def lockJoin (a : FlatAccess) : List (FlatAccess × HeldLock) :=
  (a.txnId.elim [] db.held).map fun l => (a, l)

/-- All accesses with their locks, and all accesses without. -/
def obs : List Obs :=
  ((Group.groups (fun r => obsKey o r.1) (db.accessesFlat.flatMap db.lockJoin)).map fun g =>
    { typeId := g.1.2.1
      memberNameId := g.1.2.2.1
      acType := g.1.2.2.2.1
      stacktraceId := g.1.2.2.2.2
      locksHeld := stringAgg ((g.2.mergeSort fun r r' => r.2.start ≤ r'.2.start).map fun r =>
        (label o.useSubclasses r.1.allocId r.2).text) }) ++
  (Group.groups (obsKey o) (db.accessesFlat.filter fun a => a.txnId = none)).map fun g =>
    { typeId := g.1.2.1
      memberNameId := g.1.2.2.1
      acType := g.1.2.2.2.1
      stacktraceId := g.1.2.2.2.2
      locksHeld := [] }

/-- `COUNT(DISTINCT obs.stacktrace_id)`. -/
def fstacks : List ((Nat × Nat × AccessKind × Text) × Nat) :=
  (Group.groups Obs.key (db.obs o)).map fun g => (g.1, (g.2.map Obs.stacktraceId).dedup.length)

/-- `${TYPE_NAME_COLUMN}` after `${TYPE_NAME_JOIN_STACKS}`. -/
def stackTypeName (typeId : Nat) : Text :=
  if o.useSubclasses then typeText (db.dataTypeName (db.subclass typeId).1) (db.subclass typeId).2
  else typeText (db.dataTypeName typeId) none

def stackRow (k : Nat × Nat × AccessKind × Text) : WithLocks :=
  ⟨k.1, db.stackTypeName o k.1, db.memberText k.2.2.1 k.2.1, k.2.2.2⟩

/-- The rows of the result, with their counts. The filters are for a table `ac`, which this query
does not have; with a filter there is no result. -/
def stackQuery : Option (List (WithLocks × Nat)) :=
  if o.dataType.isSome || o.member.isSome then none
  else some ((db.fstacks o).map fun r => (db.stackRow o r.1, r.2))

/-- The sighting that an access is; an access of a transaction without locks is none. -/
def sighting (a : FlatAccess) : Sighting :=
  ⟨o.typeId a.subclassId a.dataTypeId, a.memberNameId, a.acType, a.stacktraceId,
    a.txnId.elim [] fun txn => db.labels o txn a.allocId⟩

def sightedAccesses : List FlatAccess :=
  db.accessesFlat.filter fun a => a.txnId.all fun txn => db.held txn ≠ []

def sightings : List Sighting := (db.sightedAccesses.map (db.sighting o)).dedup

/-- A sighting as the hypothesizer counts it. -/
def sightingObserved (s : Sighting) : Observation :=
  ((db.stackTypeName o s.typeId, db.memberText s.acType s.memberNameId), s.locks)

end Database

/-- What `psql` prints. -/
def psqlStackOutput (rows : List (WithLocks × Nat)) : Text :=
  (["type_name".toList, "member".toList, "locks_held".toList, "occurrences".toList] ::
    rows.map queryColumns).flatMap (Text.row '\t')

namespace Database

variable {db : Database} {o : Options}

/-! ## One observation for each access -/

/-- A join has the rows of one access where it is asked for one access. -/
theorem filter_lockJoin (hids : (db.accessesFlat.map FlatAccess.id).Nodup) {a : FlatAccess} (ha : a ∈ db.accessesFlat) :
    (db.accessesFlat.flatMap db.lockJoin).filter (fun r => obsKey o r.1 = obsKey o a) = db.lockJoin a := by
  have hself : db.accessesFlat.filter (fun b => obsKey o b = obsKey o a) = [a] := by
    refine List.perm_singleton.mp ((List.perm_ext_iff_of_nodup ((hids.of_map _).filter _)
      (List.nodup_singleton a)).mpr fun b => ?_)
    rw [List.mem_filter, List.mem_singleton, decide_eq_true_eq]
    constructor
    · rintro ⟨hb, hkey⟩
      exact List.inj_on_of_nodup_map hids hb ha (congrArg Prod.fst hkey)
    · rintro rfl
      exact ⟨ha, rfl⟩
  have hjoin : ∀ xs : List FlatAccess, (xs.flatMap db.lockJoin).filter (fun r => obsKey o r.1 = obsKey o a) =
      (xs.filter fun b => obsKey o b = obsKey o a).flatMap db.lockJoin := by
    intro xs
    induction xs with
    | nil => rfl
    | cons b xs ih =>
      have hone : (db.lockJoin b).filter (fun r => obsKey o r.1 = obsKey o a) =
          if obsKey o b = obsKey o a then db.lockJoin b else [] := by
        unfold lockJoin
        by_cases hb : obsKey o b = obsKey o a <;> simp [List.filter_map, Function.comp_def, hb]
      rw [List.flatMap_cons, List.filter_append, ih, hone]
      by_cases hb : obsKey o b = obsKey o a
      · rw [if_pos hb, List.filter_cons_of_pos (by simpa using hb), List.flatMap_cons]
      · rw [if_neg hb, List.filter_cons_of_neg (by simpa using hb), List.nil_append]
  rw [hjoin, hself, List.flatMap_singleton]

/-- The locks of a transaction come in their order. -/
theorem lockJoin_labels {a : FlatAccess} {txn : Nat} (ht : a.txnId = some txn) :
    (((db.lockJoin a).mergeSort fun r r' => r.2.start ≤ r'.2.start).map fun r =>
      (label o.useSubclasses r.1.allocId r.2).text) = db.labels o txn a.allocId := by
  have hsorted : (db.lockJoin a).Pairwise fun r r' => decide (r.2.start ≤ r'.2.start) = true := by
    rw [lockJoin, ht, List.pairwise_map]
    exact (db.ordered txn).imp fun h => decide_eq_true (Nat.le_of_lt h)
  rw [List.mergeSort_of_pairwise hsorted, lockJoin, ht, List.map_map]
  rfl

/-- The observations are those of the accesses that are sighted. -/
theorem mem_obs (hids : (db.accessesFlat.map FlatAccess.id).Nodup) {x : Obs} :
    x ∈ db.obs o ↔ ∃ a ∈ db.sightedAccesses, x = (db.sighting o a).obs := by
  rw [obs, List.mem_append, List.mem_map, List.mem_map]
  constructor
  · rintro (⟨g, hg, rfl⟩ | ⟨g, hg, rfl⟩)
    · obtain ⟨⟨⟨a, l⟩, hr, hkey⟩, hrest⟩ := Group.mem_groups.mp hg
      obtain ⟨a', ha, hr⟩ := List.mem_flatMap.mp hr
      obtain ⟨l', hl, hpair⟩ := List.mem_map.mp hr
      obtain ⟨rfl, rfl⟩ := Prod.mk.inj hpair
      rw [← hkey, filter_lockJoin hids ha] at hrest
      cases ht : a'.txnId with
      | none => simp [ht] at hl
      | some txn =>
        rw [ht] at hl
        refine ⟨a', List.mem_filter.mpr ⟨ha, ?_⟩, ?_⟩
        · simpa [ht] using List.ne_nil_of_mem hl
        · rw [hrest, lockJoin_labels ht, ← hkey]
          simp [Sighting.obs, sighting, ht, obsKey]
    · obtain ⟨⟨a, ha, hkey⟩, -⟩ := Group.mem_groups.mp hg
      obtain ⟨ha, ht⟩ := List.mem_filter.mp ha
      have ht : a.txnId = none := of_decide_eq_true ht
      refine ⟨a, List.mem_filter.mpr ⟨ha, by simp [ht]⟩, ?_⟩
      rw [← hkey]
      simp [Sighting.obs, sighting, ht, obsKey, stringAgg]
  · rintro ⟨a, ha, rfl⟩
    obtain ⟨ha, hheld⟩ := List.mem_filter.mp ha
    cases ht : a.txnId with
    | none =>
      refine .inr ⟨_, Group.group_of_mem (obsKey o) (List.mem_filter.mpr ⟨ha, decide_eq_true ht⟩), ?_⟩
      simp [Sighting.obs, sighting, ht, obsKey, stringAgg]
    | some txn =>
      have hne : db.held txn ≠ [] := by simpa [ht] using hheld
      obtain ⟨l, hl⟩ := List.exists_mem_of_ne_nil _ hne
      have hjoin : (a, l) ∈ db.lockJoin a := by
        rw [lockJoin, ht]
        exact List.mem_map_of_mem hl
      refine .inl ⟨_, Group.group_of_mem (fun r => obsKey o r.1) (List.mem_flatMap.mpr ⟨a, ha, hjoin⟩), ?_⟩
      rw [filter_lockJoin hids ha, lockJoin_labels ht]
      simp [Sighting.obs, sighting, ht, obsKey]

/-! ## What the rows stand for -/

/-- The name of a type is found from either of its ids. -/
theorem stackTypeName_sighting {a : FlatAccess} (ha : a ∈ db.accessesFlat) :
    db.stackTypeName o (db.sighting o a).typeId = db.typeName o a.subclassId a.dataTypeId := by
  unfold stackTypeName typeName sighting Options.typeId
  split
  · rw [db.typed a ha]
  · rfl

theorem WellNamed.sighting_locks (h : db.WellNamed) {s : Sighting} (hs : s ∈ db.sightings o) :
    ∀ t ∈ s.locks, PlainText t ∧ t ≠ [] := by
  obtain ⟨a, -, rfl⟩ := List.mem_map.mp (List.mem_dedup.mp hs)
  unfold sighting
  cases a.txnId with
  | none => simp
  | some txn => exact h.labels txn a.allocId

theorem WellNamed.stackTypeName (h : db.WellNamed) (typeId : Nat) : PlainText (db.stackTypeName o typeId) := by
  by_cases hu : o.useSubclasses = true
  · simpa [Database.stackTypeName, Database.typeName, hu] using h.typeName (o := o) typeId (db.subclass typeId).1
  · simpa [Database.stackTypeName, Database.typeName, hu] using h.typeName (o := o) 0 typeId

/-- Strings of locks are equal for equal locks only, so the distinct pairs of the query are the sightings. -/
theorem obs_pairs_perm (h : db.WellNamed) (hids : (db.accessesFlat.map FlatAccess.id).Nodup) :
    ((db.obs o).map fun x => (x.key, x.stacktraceId)).dedup.Perm
      ((db.sightings o).map fun s => (s.obs.key, s.stacktraceId)) := by
  have hlocks : ∀ s ∈ db.sightings o, getlines ',' (stringAgg s.locks) = s.locks := fun s hs =>
    getlines_stringAgg (h.sighting_locks hs)
  have hinj : ∀ s ∈ db.sightings o, ∀ s' ∈ db.sightings o,
      (s.obs.key, s.stacktraceId) = (s'.obs.key, s'.stacktraceId) → s = s' := by
    intro s hs s' hs' heq
    simp only [Obs.key, Sighting.obs, Prod.mk.injEq] at heq
    obtain ⟨⟨htype, hmember, hkind, htext⟩, hstack⟩ := heq
    have hsame : s.locks = s'.locks := by rw [← hlocks s hs, ← hlocks s' hs', htext]
    cases s
    cases s'
    exact Sighting.mk.injEq .. ▸ ⟨htype, hmember, hkind, hstack, hsame⟩
  refine (List.perm_ext_iff_of_nodup (List.nodup_dedup _)
    (List.Nodup.map_on hinj (List.nodup_dedup _))).mpr fun p => ?_
  simp only [List.mem_dedup, List.mem_map, sightings, mem_obs hids]
  constructor
  · rintro ⟨x, ⟨a, ha, rfl⟩, rfl⟩
    exact ⟨_, ⟨a, ha, rfl⟩, rfl⟩
  · rintro ⟨s, ⟨a, ha, rfl⟩, rfl⟩
    exact ⟨_, ⟨a, ha, rfl⟩, rfl⟩

/-- A row of the query stands for sightings. -/
theorem observed_stackRow (h : db.WellNamed) {s : Sighting} (hs : s ∈ db.sightings o) :
    (db.stackRow o s.obs.key).observed = [db.sightingObserved o s] := by
  obtain ⟨hplain, hne⟩ := h.memberText s.acType s.memberNameId
  rw [WithLocks.observed]
  change (getlines ',' (db.memberText s.acType s.memberNameId)).map
    (fun m => ((db.stackTypeName o s.typeId, m), (getlines ',' (stringAgg s.locks)).filter (· ≠ []))) = _
  rw [locks_stringAgg (h.sighting_locks hs), getlines_last hplain.2.2 hne]
  rfl

theorem observed_stackQuery (h : db.WellNamed) (hids : (db.accessesFlat.map FlatAccess.id).Nodup)
    {result rows : List (WithLocks × Nat)} (hquery : db.stackQuery o = some result) (hrows : rows.Perm result) :
    ((rows.map dataLineOf).flatMap observed).Perm ((db.sightings o).map (db.sightingObserved o)) := by
  obtain ⟨-, ⟨⟩⟩ := Option.ite_none_left_eq_some.mp hquery
  rw [List.flatMap_map]
  refine (hrows.flatMap_right _).trans ?_
  refine (List.Perm.flatMap_left _ fun r _ => observed_dataLineOf_perm r).trans ?_
  have hcounts := (Group.replicate_distinct_perm Obs.key Obs.stacktraceId (db.stackRow o) (db.obs o)).flatMap_right
    WithLocks.observed
  rw [List.flatMap_assoc] at hcounts
  rw [fstacks, List.map_map, List.flatMap_map]
  refine hcounts.trans ?_
  refine (((obs_pairs_perm h hids).map fun p => db.stackRow o p.1).flatMap_right WithLocks.observed).trans ?_
  rw [List.map_map, List.flatMap_map, List.map_eq_flatMap]
  exact List.Perm.of_eq (List.flatMap_congr fun s hs => observed_stackRow h hs)

/-- Every row of the result counts some sighting. -/
theorem stackRow_of_mem (hids : (db.accessesFlat.map FlatAccess.id).Nodup) {result : List (WithLocks × Nat)}
    (hquery : db.stackQuery o = some result) {r : WithLocks × Nat} (hr : r ∈ result) :
    0 < r.2 ∧ ∃ s ∈ db.sightings o, r.1 = db.stackRow o s.obs.key := by
  obtain ⟨-, ⟨⟩⟩ := Option.ite_none_left_eq_some.mp hquery
  obtain ⟨k, hk, rfl⟩ := List.mem_map.mp hr
  obtain ⟨g, hg, rfl⟩ := List.mem_map.mp hk
  obtain ⟨⟨x, hx, hkey⟩, hrest⟩ := Group.mem_groups.mp hg
  obtain ⟨a, ha, rfl⟩ := (mem_obs hids).mp hx
  refine ⟨?_, _, List.mem_dedup.mpr (List.mem_map_of_mem ha), congrArg (db.stackRow o) hkey.symm⟩
  have hmem : (db.sighting o a).obs ∈ g.2 := by
    rw [hrest]
    exact List.mem_filter.mpr ⟨hx, decide_eq_true hkey⟩
  exact List.length_pos_of_mem (List.mem_dedup.mpr (List.mem_map_of_mem hmem))

end Database

/-- What the hypothesizer has read of the output of the query is what was sighted. -/
theorem loaded_stackQuery {db : Database} {o : Options} (hnamed : db.WellNamed)
    (hids : (db.accessesFlat.map FlatAccess.id).Nodup) {result rows : List (WithLocks × Nat)}
    (hquery : db.stackQuery o = some result) (hrows : rows.Perm result) {input : Input}
    (hl : Loaded (dataLines (psqlStackOutput rows)) input) :
    (∀ key, (∃ e ∈ input.members, e.key = key) ↔
      ∃ x ∈ (db.sightings o).map (db.sightingObserved o), x.1 = key) ∧
    ∀ q : MemberKey → List MyId → Bool,
      mentionedOccurrences (mentionsIn input.locks (dataLines (psqlStackOutput rows))) (fun m => q m.key m.locksHeld) =
        ((db.sightings o).map (db.sightingObserved o)).countP
          (fun x => q x.1 (x.2.map fun name => input.locks.idxOf name)) := by
  have hof : ∀ r ∈ rows, 0 < r.2 ∧ ∃ s ∈ db.sightings o, r.1 = db.stackRow o s.obs.key := fun r hr =>
    Database.stackRow_of_mem hids hquery (hrows.mem_iff.mp hr)
  have hreadable : ∀ r ∈ rows, r.1.Readable := by
    intro r hr
    obtain ⟨-, s, hs, hrow⟩ := hof r hr
    rw [hrow]
    exact ⟨(hnamed.stackTypeName _).inColumn, (hnamed.memberText _ _).1.inColumn,
      inColumn_stringAgg fun t ht => (hnamed.sighting_locks hs t ht).1⟩
  exact loaded_rows (dataLines_table (by decide) (by decide) hreadable) hreadable (fun r hr => (hof r hr).1)
    (Database.observed_stackQuery hnamed hids hquery hrows) hl

/-- With `stack`, the hypothesizer counts sightings. Whatever order the rows come in, there is an
entry for every member with a sighting, the member occurs as often as there are sightings of it, and
the count of a lock order under a hypothesis is the number of those whose locks contain the
hypothesis in this order: accesses that differ in their stack trace count, and others do not. -/
theorem stack_support_exact (db : Database) (o : Options) (hnamed : db.WellNamed)
    (hids : (db.accessesFlat.map FlatAccess.id).Nodup) (result rows : List (WithLocks × Nat))
    (hquery : db.stackQuery o = some result) (hrows : rows.Perm result) (maxHypoLen : Nat) (input : Input)
    (hload : Yields (fun n => load n (psqlStackOutput rows)) input) :
    (∀ key, (∃ e ∈ input.members, e.key = key) ↔ ∃ s ∈ db.sightings o, (db.sightingObserved o s).1 = key) ∧
    ∀ e ∈ input.members, ∃ found, Yields (fun n => findHypotheses n e.member maxHypoLen) found ∧
      found.occurrences = (db.sightings o).countP (fun s => (db.sightingObserved o s).1 = e.key) ∧
      ∀ h x, found.hypotheses[h]? = some x →
        x.occurrences = (db.sightings o).countP (fun s => (db.sightingObserved o s).1 = e.key &&
          h.all (· ∈ s.locks.map fun name => input.locks.idxOf name)) ∧
        ∀ v, x.orderMatches.getD v 0 = (db.sightings o).countP (fun s =>
          (db.sightingObserved o s).1 = e.key && Shows input.locks h v (db.sightingObserved o s)) := by
  have hl := loaded_of_yields hload
  obtain ⟨hkeys, hcount⟩ := loaded_stackQuery hnamed hids hquery hrows hl
  refine ⟨fun key => ?_, fun e he => ?_⟩
  · rw [hkeys key]
    simp only [List.mem_map, exists_exists_and_eq_and]
  · obtain ⟨found, hfound, hocc, hsupport⟩ := support_of_counts hcount (hl.counts he) maxHypoLen
    refine ⟨found, hfound, ?_, fun h x hx => ⟨?_, fun v => ?_⟩⟩
    · rw [hocc, List.countP_map]
      rfl
    · rw [(hsupport h x hx).2, List.countP_map]
      rfl
    · rw [(hsupport h x hx).1 v, List.countP_map]
      rfl

/-- Two accesses from one place and one from another, all under one lock. -/
def repeatedAccess : Database :=
  { twoAccesses with
    accessesFlat :=
      [⟨1, some 1, 1, .read, 1, 1, 1, 0, 1⟩, ⟨2, some 2, 1, .read, 1, 1, 1, 0, 1⟩, ⟨3, some 3, 1, .read, 1, 1, 1, 0, 2⟩]
    typed := by decide }

theorem repeatedAccess_named : repeatedAccess.WellNamed :=
  ⟨twoAccesses_named.member, twoAccesses_named.dataType, twoAccesses_named.subclass, twoAccesses_named.held⟩

/-- What the hypothesizer reads of the accesses, in either mode. -/
theorem repeatedAccess_loaded : ∃ rows input input',
    repeatedAccess.stackQuery ⟨none, none, false, false⟩ = some rows ∧
    Yields (fun n => load n (psqlOutput (repeatedAccess.query ⟨none, none, false, false⟩))) input ∧
    Yields (fun n => load n (psqlStackOutput rows)) input' := by
  have htext : psqlOutput (repeatedAccess.query ⟨none, none, false, false⟩) =
      "type_name\tmembers_accessed\tlocks_held\toccurrences\ninode\tr:i_state\t3(rwlock_t[w])\t3\n".toList := by
    decide +kernel
  have htext' : ((repeatedAccess.stackQuery ⟨none, none, false, false⟩).map psqlStackOutput) =
      some "type_name\tmember\tlocks_held\toccurrences\ninode\tr:i_state\t3(rwlock_t[w])\t2\n".toList := by
    decide +kernel
  obtain ⟨rows, hrows, hstack⟩ := Option.map_eq_some_iff.mp htext'
  obtain ⟨input, hread, hlen⟩ : ∃ input,
      (dataLines (psqlOutput (repeatedAccess.query ⟨none, none, false, false⟩))).foldlM readLine ⟨[], []⟩ = .ok input ∧
        input.members.length < 65536 := by
    rw [htext]
    exact ⟨_, rfl, by decide +kernel⟩
  obtain ⟨input', hread', hlen'⟩ : ∃ input',
      (dataLines (psqlStackOutput rows)).foldlM readLine ⟨[], []⟩ = .ok input' ∧ input'.members.length < 65536 := by
    rw [hstack]
    exact ⟨_, rfl, by decide +kernel⟩
  exact ⟨rows, _, _, hrows, load_yields hread hlen, load_yields hread' hlen'⟩

theorem repeatedAccess_sightings : ∃ rows input,
    repeatedAccess.stackQuery ⟨none, none, false, false⟩ = some rows ∧
    Yields (fun n => load n (psqlStackOutput rows)) input ∧
    ∀ e ∈ input.members, ∃ found, Yields (fun n => findHypotheses n e.member 0) found ∧ found.occurrences = 2 := by
  obtain ⟨rows, -, input, hquery, -, hload⟩ := repeatedAccess_loaded
  obtain ⟨hkeys, hsupport⟩ := stack_support_exact repeatedAccess _ repeatedAccess_named (by decide) rows rows hquery
    (List.Perm.refl _) 0 input hload
  refine ⟨rows, input, hquery, hload, fun e he => ?_⟩
  obtain ⟨found, hfound, hocc, -⟩ := hsupport e he
  obtain ⟨s, hs, hkey⟩ := (hkeys e.key).mp ⟨e, he, rfl⟩
  have htwo : ∀ s ∈ repeatedAccess.sightings ⟨none, none, false, false⟩,
      (repeatedAccess.sightings ⟨none, none, false, false⟩).countP (fun s' =>
        (repeatedAccess.sightingObserved ⟨none, none, false, false⟩ s').1 =
          (repeatedAccess.sightingObserved ⟨none, none, false, false⟩ s).1) = 2 := by decide +kernel
  refine ⟨found, hfound, ?_⟩
  rw [hocc, ← hkey]
  exact htwo s hs

/-! ## Full support -/

/-- There is a hypothesis of the named locks, and it occurs as often as the member. -/
def FullySupported (input : Input) (found : Member) (names : List Text) : Prop :=
  ∃ (h : List MyId) (x : LockingHypothesisMatches), found.hypotheses[h]? = some x ∧ x.occurrences = found.occurrences ∧
    (h.map fun i => input.locks[i]?).Perm (names.map some)

theorem mem_map_idxOf_iff {locks names : List Text} (hnodup : locks.Nodup) {i : MyId} {name : Text}
    (hi : locks[i]? = some name) : i ∈ (names.map fun n => locks.idxOf n) ↔ name ∈ names := by
  obtain ⟨hlt, rfl⟩ := List.getElem?_eq_some_iff.mp hi
  rw [List.mem_map]
  constructor
  · rintro ⟨n, hn, rfl⟩
    rwa [List.getElem_idxOf]
  · intro hn
    exact ⟨_, hn, hnodup.idxOf_getElem i hlt⟩

/-- Known names are found under their ids. -/
theorem names_of_ids {locks names : List Text} (hknown : ∀ name ∈ names, name ∈ locks) :
    ((names.map fun n => locks.idxOf n).map fun i => locks[i]?) = names.map some := by
  rw [List.map_map]
  refine List.map_congr_left fun name hname => ?_
  have hlt := List.idxOf_lt_length_of_mem (hknown name hname)
  rw [Function.comp_apply, List.getElem?_eq_getElem hlt, List.getElem_idxOf]

/-- Different ids have different names. -/
theorem nodup_of_ids {locks names : List Text} (hnodup : locks.Nodup) {h : List MyId} (hh : h.Nodup)
    (hnames : (h.map fun i => locks[i]?).Perm (names.map some)) : names.Nodup := by
  refine List.Nodup.of_map some (hnames.nodup_iff.mp (List.Nodup.map_on ?_ hh))
  intro i hi j _ hij
  obtain ⟨name, -, hname⟩ := List.mem_map.mp (hnames.mem_iff.mp (List.mem_map_of_mem hi))
  obtain ⟨hlt, hget⟩ := List.getElem?_eq_some_iff.mp hname.symm
  obtain ⟨hlt', hget'⟩ := List.getElem?_eq_some_iff.mp (hij ▸ hname.symm)
  exact hnodup.getElem_inj_iff.mp (hget.trans hget'.symm)

section

variable {lines : List Text} {input : Input} {observations : List Observation}
  (hcount : ∀ q : MemberKey → List MyId → Bool, mentionedOccurrences (mentionsIn input.locks lines)
    (fun m => q m.key m.locksHeld) = observations.countP (fun x => q x.1 (x.2.map fun name => input.locks.idxOf name)))

include hcount

/-- What is observed was mentioned. -/
theorem mentioned_of_observed {y : Observation} (hy : y ∈ observations) {q : MemberKey → List MyId → Bool}
    (hq : q y.1 (y.2.map fun name => input.locks.idxOf name) = true) :
    ∃ m ∈ mentionsIn input.locks lines, q m.key m.locksHeld = true := by
  have hpos : 0 < observations.countP fun x => q x.1 (x.2.map fun name => input.locks.idxOf name) :=
    List.countP_pos_iff.mpr ⟨y, hy, hq⟩
  rw [← hcount] at hpos
  obtain ⟨n, hn, -⟩ := List.exists_mem_ne_zero_of_sum_ne_zero (Nat.ne_of_gt hpos)
  obtain ⟨m, hm, -⟩ := List.mem_map.mp hn
  exact ⟨m, List.mem_filter.mp hm⟩

variable (hl : Loaded lines input)

include hl

/-- A lock that is held in an observation has an id. -/
theorem known_of_observed {y : Observation} (hy : y ∈ observations) {name : Text} (hname : name ∈ y.2) :
    name ∈ input.locks := by
  by_contra hno
  obtain ⟨m, hm, hlast⟩ := mentioned_of_observed hcount hy
    (q := fun _ held => decide (input.locks.length ∈ held))
    (decide_eq_true (List.mem_map.mpr ⟨name, hname, List.idxOf_eq_length hno⟩))
  obtain ⟨d, hd, hm⟩ := List.mem_flatMap.mp hm
  obtain ⟨element, -, rfl⟩ := List.mem_map.mp hm
  obtain ⟨name', hname', hid⟩ := List.mem_map.mp (of_decide_eq_true hlast)
  exact Nat.ne_of_lt (List.idxOf_lt_length_of_mem (hl.known d hd name' hname')) hid

/-- Locks that are held together in an observation of a member are held together in a combination. -/
theorem combination_of_observed {e : Entry} (he : e ∈ input.members) {y : Observation} (hy : y ∈ observations)
    (hkey : y.1 = e.key) {h : List MyId} (hh : ∀ i ∈ h, i ∈ y.2.map fun name => input.locks.idxOf name) :
    ∃ lc ∈ e.member.combinations, ∀ i ∈ h, i ∈ lc.locksHeld := by
  obtain ⟨m, hm, hq⟩ := mentioned_of_observed hcount hy
    (q := fun key held => decide (key = e.key) && h.all fun i => decide (i ∈ held)) (by simpa [hkey] using hh)
  simp only [Bool.and_eq_true, decide_eq_true_eq, List.all_eq_true] at hq
  obtain ⟨lc, hlc, hsame⟩ := ((hl.counts he).combinations m.locksHeld).mpr ⟨m, hm, hq.1, rfl⟩
  exact ⟨lc, hlc, fun i hi => hsame ▸ hq.2 i hi⟩

/-- A set of locks has full support if it is held in all observations of the member, up to the
length limit. -/
theorem fullySupported_iff {e : Entry} (he : e ∈ input.members) (hsome : ∃ y ∈ observations, y.1 = e.key)
    (maxHypoLen : Nat) : ∃ found, Yields (fun n => findHypotheses n e.member maxHypoLen) found ∧
      ∀ names, FullySupported input found names ↔ names.Nodup ∧ (0 < maxHypoLen → names.length ≤ maxHypoLen) ∧
        ∀ y ∈ observations, y.1 = e.key → ∀ name ∈ names, name ∈ y.2 := by
  have hm := hl.counts he
  obtain ⟨-, found, hfound, -, -, hbuilt⟩ := findHypotheses_yields hm.fresh maxHypoLen
  obtain ⟨found', hfound', hocc, hsupport⟩ := support_of_counts hcount hm maxHypoLen
  obtain rfl := Yields.unique hfound' hfound
  refine ⟨found', hfound', fun names => ?_⟩
  have hfull : ∀ (h : List MyId) (x : LockingHypothesisMatches), found'.hypotheses[h]? = some x →
      (x.occurrences = found'.occurrences ↔
        ∀ y ∈ observations, y.1 = e.key → ∀ i ∈ h, i ∈ y.2.map fun name => input.locks.idxOf name) := by
    intro h x hx
    rw [(hsupport h x hx).2, hocc, countP_and_eq_iff]
    simp only [decide_eq_true_eq, List.all_eq_true]
  constructor
  · rintro ⟨h, x, hx, hall, hnames⟩
    have hmem : h ∈ found'.hypotheses := by
      rw [Std.ExtTreeMap.mem_iff_isSome_getElem?, hx]
      rfl
    obtain ⟨⟨hsorted, -⟩, hlen⟩ := (hbuilt.keys h).mp hmem
    have hlength : h.length = names.length := by simpa using hnames.length_eq
    refine ⟨nodup_of_ids hl.nodup (hsorted.imp Nat.ne_of_lt) hnames, hlength ▸ hlen, fun y hy hkey name hname => ?_⟩
    obtain ⟨i, hi, hn⟩ := List.mem_map.mp (hnames.mem_iff.mpr (List.mem_map_of_mem hname))
    exact (mem_map_idxOf_iff hl.nodup hn).mp ((hfull h x hx).mp hall y hy hkey i hi)
  · rintro ⟨hnodup, hlen, hall⟩
    obtain ⟨y, hy, hkey⟩ := hsome
    have hknown : ∀ name ∈ names, name ∈ input.locks := fun name hname =>
      known_of_observed hcount hl hy (hall y hy hkey name hname)
    let ids := names.map fun name => input.locks.idxOf name
    have hids : ids.Nodup := List.Nodup.map_on (fun a ha b _ hab => (List.idxOf_inj (hknown a ha)).mp hab) hnodup
    let h := ids.insertionSort (· ≤ ·)
    have hperm : h.Perm ids := List.perm_insertionSort _ ids
    have hheld : ∀ y ∈ observations, y.1 = e.key → ∀ i ∈ h, i ∈ y.2.map fun name => input.locks.idxOf name := by
      intro y hy hkey i hi
      obtain ⟨name, hname, rfl⟩ := List.mem_map.mp (hperm.mem_iff.mp hi)
      exact List.mem_map_of_mem (hall y hy hkey name hname)
    have hmem : h ∈ found'.hypotheses := by
      refine (hbuilt.keys h).mpr ⟨⟨pairwise_lt_of_nodup hids,
        combination_of_observed hcount hl he hy hkey (hheld y hy hkey)⟩, ?_⟩
      simpa [hperm.length_eq, ids] using hlen
    obtain ⟨x, hx⟩ := Option.isSome_iff_exists.mp (Std.ExtTreeMap.mem_iff_isSome_getElem?.mp hmem)
    exact ⟨h, x, hx, (hfull h x hx).mpr hheld, names_of_ids hknown ▸ hperm.map _⟩

end

/-- Without a filter, and unless writes stand for reads, both queries see the same. -/
theorem mem_observations_iff {db : Database} {o : Options} (hnone : o.dataType = none ∧ o.member = none)
    (hwor : o.useWor = false) {y : Observation} :
    y ∈ db.observations o ↔ ∃ s ∈ db.sightings o, db.sightingObserved o s = y := by
  have hselected : db.selected o = db.accessesFlat := by
    simp [Database.selected, hnone.1, hnone.2]
  have hone : ∀ a ∈ db.accessesFlat, db.sightingObserved o (db.sighting o a) =
      ((db.typeName o a.subclassId a.dataTypeId, db.memberText a.acType a.memberNameId),
        a.txnId.elim [] fun txn => db.labels o txn a.allocId) := by
    intro a ha
    rw [Database.sightingObserved, Database.stackTypeName_sighting ha]
    rfl
  simp only [Database.observations, Database.fac, hwor, Bool.false_eq_true, if_false, List.mem_append, List.mem_map,
    List.mem_filter, List.mem_dedup, Database.inTxns, Database.lockFree, hselected, List.mem_filterMap,
    Database.sightings, Database.sightedAccesses, decide_eq_true_eq, Option.map_eq_some_iff, exists_exists_and_eq_and]
  constructor
  · rintro (⟨f, ⟨⟨a, ha, txn, ht, rfl⟩, hheld⟩, rfl⟩ | ⟨a, ⟨ha, ht⟩, rfl⟩)
    · exact ⟨a, ⟨ha, by simpa [ht] using hheld⟩, by rw [hone a ha, ht]; rfl⟩
    · exact ⟨a, ⟨ha, by simp [ht]⟩, by rw [hone a ha, ht]; rfl⟩
  · rintro ⟨a, ⟨ha, hheld⟩, rfl⟩
    rw [hone a ha]
    cases ht : a.txnId with
    | none => exact .inr ⟨a, ⟨ha, ht⟩, rfl⟩
    | some txn => exact .inl ⟨_, ⟨⟨a, ha, txn, ht, rfl⟩, by simpa [ht] using hheld⟩, rfl⟩

/-- Both modes find the same rules to be kept always. Once the hypothesizer has read the output of
either query, there are entries for the same members, and the sets of locks with full support are
the same, whatever ids the locks get and however often the accesses are counted. -/
theorem stack_fullySupported_iff (db : Database) (o : Options) (hnamed : db.WellNamed)
    (hids : (db.accessesFlat.map FlatAccess.id).Nodup) (hwor : o.useWor = false)
    (result rows rows' : List (WithLocks × Nat)) (hquery : db.stackQuery o = some result)
    (hrows : rows.Perm (db.query o)) (hrows' : rows'.Perm result) (maxHypoLen : Nat) (input input' : Input)
    (hload : Yields (fun n => load n (psqlOutput rows)) input)
    (hload' : Yields (fun n => load n (psqlStackOutput rows')) input') :
    (∀ key, (∃ e ∈ input.members, e.key = key) ↔ ∃ e ∈ input'.members, e.key = key) ∧
    ∀ e ∈ input.members, ∀ e' ∈ input'.members, e'.key = e.key →
      ∃ found found', Yields (fun n => findHypotheses n e.member maxHypoLen) found ∧
        Yields (fun n => findHypotheses n e'.member maxHypoLen) found' ∧
        ∀ names, FullySupported input found names ↔ FullySupported input' found' names := by
  have hl := loaded_of_yields hload
  have hl' := loaded_of_yields hload'
  obtain ⟨hkeys, hcount⟩ := loaded_query hnamed hrows hl
  obtain ⟨hkeys', hcount'⟩ := loaded_stackQuery hnamed hids hquery hrows' hl'
  have hnone : o.dataType = none ∧ o.member = none := by
    simpa using (Option.ite_none_left_eq_some.mp hquery).1
  have hsame : ∀ y, y ∈ db.observations o ↔ y ∈ (db.sightings o).map (db.sightingObserved o) := fun y => by
    rw [mem_observations_iff hnone hwor, List.mem_map]
  refine ⟨fun key => ?_, fun e he e' he' hkey => ?_⟩
  · rw [hkeys, hkeys']
    simp only [hsame]
  · obtain ⟨found, hfound, hfull⟩ := fullySupported_iff hcount hl he ((hkeys e.key).mp ⟨e, he, rfl⟩) maxHypoLen
    obtain ⟨found', hfound', hfull'⟩ := fullySupported_iff hcount' hl' he' ((hkeys' e'.key).mp ⟨e', he', rfl⟩) maxHypoLen
    refine ⟨found, found', hfound, hfound', fun names => ?_⟩
    rw [hfull, hfull', hkey]
    simp only [hsame]

theorem repeatedAccess_fullySupported : ∃ rows input input',
    repeatedAccess.stackQuery ⟨none, none, false, false⟩ = some rows ∧
    Yields (fun n => load n (psqlOutput (repeatedAccess.query ⟨none, none, false, false⟩))) input ∧
    Yields (fun n => load n (psqlStackOutput rows)) input' ∧
    ∀ e ∈ input.members, ∀ e' ∈ input'.members, e'.key = e.key →
      ∃ found found', Yields (fun n => findHypotheses n e.member 0) found ∧
        Yields (fun n => findHypotheses n e'.member 0) found' ∧
        ∀ names, FullySupported input found names ↔ FullySupported input' found' names := by
  obtain ⟨rows, input, input', hquery, hload, hload'⟩ := repeatedAccess_loaded
  exact ⟨rows, input, input', hquery, hload, hload',
    (stack_fullySupported_iff repeatedAccess _ repeatedAccess_named (by decide) rfl rows _ rows hquery (List.Perm.refl _)
      (List.Perm.refl _) 0 input input' hload hload').2⟩

end LockDoc.Queries
