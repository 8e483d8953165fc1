import LockDoc.Lib.Run
import LockDoc.Lib.Timeline
import LockDoc.Convert.Lock

/-!
# Counterexample queries

`counterexample.sql.sh`: the chain of joins it generates for the locks of a rule, and what
the generated query finds. Every lock of the rule is joined with a held lock of the
transaction, under an alias with the number of the lock; temporal conditions compare
aliases. The labels of locks are the ones that `create-txn-members-locks.sh` writes.
-/
namespace LockDoc.Queries

open FallibleRun (bind_ok)
open LockDoc.Convert (SubLock)

/-- Where in an allocation a lock resides. The member is `none` if the layout of the data
type has none there; `exact` says that the lock is at the beginning of its member, a label
marks other locks with a question mark. -/
structure Embedding where
  dataType : String
  subclass : Option String
  member : Option String
  exact : Bool
  deriving DecidableEq, Repr

inductive Place where
  | global (lockVarName : Option String) (id : Nat) (lockType : String)
  | embSame (e : Embedding)
  | embOther (e : Embedding)
  deriving DecidableEq, Repr

/-- The label of a lock, and the way a lock is passed to the script. -/
structure Label where
  place : Place
  subLock : SubLock
  deriving DecidableEq, Repr

/-- A row of `locks_held`, with what the other tables say about its lock. -/
structure HeldLock where
  start : Nat
  id : Nat
  address : Nat
  lockType : String
  lockVarName : Option String
  subLock : SubLock
  embeddedIn : Option (Nat × Embedding)
  deriving DecidableEq, Repr

/-- An access: its allocation, and the locks of its transaction in the order of their
distinct start times. -/
structure Access where
  allocId : Nat
  held : List HeldLock
  ordered : held.Pairwise (fun k l => k.start < l.start)

/-- The label that `create-txn-members-locks.sh` gives to a held lock, with or without
subclasses. -/
def label (useSubclasses : Bool) (allocId : Nat) (l : HeldLock) : Label :=
  match l.embeddedIn with
  | none => ⟨.global l.lockVarName l.id l.lockType, l.subLock⟩
  | some (a, e) =>
    let e := if useSubclasses then e else { e with subclass := none }
    if a = allocId then ⟨.embSame e, l.subLock⟩ else ⟨.embOther e, l.subLock⟩

/-- The `locks_held` string of an access, as the hypothesizer reads it. -/
def Access.labels (a : Access) (useSubclasses : Bool) : List Label := a.held.map (label useSubclasses a.allocId)

inductive Connector where
  | any
  | seq
  deriving DecidableEq, Repr

def Label.isEmbOther (lock : Label) : Bool :=
  match lock.place with
  | .embOther _ => true
  | _ => false

/-- A lock name without a question mark. -/
def Label.locatable (lock : Label) : Bool :=
  match lock.place with
  | .global _ _ _ => true
  | .embSame e | .embOther e => e.exact && e.member.isSome

/-- The joins for one lock. Its start time has to be later than that of the aliases with
the given numbers. -/
structure LockJoin where
  lock : Label
  afterEmbOther : Option Nat
  afterPrevious : Option Nat
  deriving DecidableEq, Repr

inductive ScriptError where
  | usage
  | notLocatable
  deriving DecidableEq, Repr

/-- The loop over the arguments, with `LOCKNR` and `LAST_EMBOTHER`. -/
def lockJoins (connector : Connector) : Nat → Nat → List Label → Except ScriptError (List LockJoin)
  | _, _, [] => .ok []
  | lockNr, lastEmbOther, lock :: rest =>
    if !lock.locatable then .error .notLocatable
    else do
      let joins ← lockJoins connector (lockNr + 1) (if lock.isEmbOther then lockNr else lastEmbOther) rest
      .ok (⟨lock,
        if lock.isEmbOther && lastEmbOther > 0 then some lastEmbOther else none,
        if connector = .seq && lockNr > 1 then some (lockNr - 1) else none⟩ :: joins)

/-- The script: at least one lock has to be given. -/
def counterexampleSql (connector : Connector) (locks : List Label) : Except ScriptError (List LockJoin) :=
  if locks = [] then .error .usage else lockJoins connector 1 0 locks

/-- The sub lock condition: where the rule asks for the read lock, the write lock will do. -/
def subLockCond (wanted subLock : SubLock) : Bool := wanted = .reader || subLock = wanted

/-- The conditions on the columns of an embedded lock; without a subclass in the argument
there is no condition on it. -/
def embeddedCond (e : Embedding) (wanted : SubLock) (e' : Embedding) (l : HeldLock) : Bool :=
  subLockCond wanted l.subLock && e'.dataType = e.dataType &&
    (e.subclass = none || e'.subclass = e.subclass) && e'.member.isSome && e'.member = e.member

/-- The join conditions of a lock on a held lock. For the read side of a global lock, the
held lock is one at the address that the table `locks` gives for the id. -/
def joinCond (lockAddress : Nat → Option Nat) (allocId : Nat) (lock : Label) (l : HeldLock) : Bool :=
  match lock.place with
  | .global _ id _ => if lock.subLock = .reader then lockAddress id = some l.address else l.id = id
  | .embSame e => l.embeddedIn.any (fun (a, e') => a = allocId && embeddedCond e lock.subLock e' l)
  | .embOther e => l.embeddedIn.any (fun (a, e') => a ≠ allocId && embeddedCond e lock.subLock e' l)

/-- The comparison with the start time of an alias; aliases are numbered from one. -/
def startsAfter (row : List HeldLock) (other : Option Nat) (l : HeldLock) : Bool :=
  other.all (fun n => (row[n - 1]?).any (fun k => k.start < l.start))

/-- One more join: every row is extended by each held lock that meets the conditions. -/
def LockJoin.extend (lockAddress : Nat → Option Nat) (a : Access) (j : LockJoin) (row : List HeldLock) :
    List (List HeldLock) :=
  (a.held.filter (fun l => joinCond lockAddress a.allocId j.lock l && startsAfter row j.afterEmbOther l &&
    startsAfter row j.afterPrevious l)).map (fun l => row ++ [l])

/-- The rows of the whole chain of joins. -/
def joinRows (lockAddress : Nat → Option Nat) (a : Access) (joins : List LockJoin) : List (List HeldLock) :=
  joins.foldl (fun rows j => rows.flatMap (j.extend lockAddress a)) [[]]

/-- A `CEX` query leaves the access out: its id is in the result of the subselect. -/
def excluded (lockAddress : Nat → Option Nat) (a : Access) (connector : Connector) (locks : List Label) :
    Except ScriptError Bool := do
  let joins ← counterexampleSql connector locks
  .ok (joinRows lockAddress a joins ≠ [])

/-- The start of the alias, if there is one, is earlier. -/
def Later (k : Option HeldLock) (l : HeldLock) : Prop := ∀ k' ∈ k, k'.start < l.start

/-- Some row of the joins exists, told by the locks: each has a held lock that meets its
conditions and is later than the held locks of the previous lock (for `SEQ`) and of the last
`EMBOTHER` lock. -/
def Found (lockAddress : Nat → Option Nat) (a : Access) (connector : Connector) :
    Option HeldLock → Option HeldLock → List Label → Prop
  | _, _, [] => True
  | previous, embOther, lock :: rest =>
    ∃ l ∈ a.held, joinCond lockAddress a.allocId lock l = true ∧ (lock.isEmbOther = true → Later embOther l) ∧
      (connector = .seq → Later previous l) ∧
      Found lockAddress a connector (some l) (if lock.isEmbOther then some l else embOther) rest

/-- The joins of one row at a time. -/
theorem foldl_flatMap_ne_nil {α β : Type} {f : β → α → List α} {js : List β} {rows : List α} :
    js.foldl (fun rows j => rows.flatMap (f j)) rows ≠ [] ↔
      ∃ row ∈ rows, js.foldl (fun rows j => rows.flatMap (f j)) [row] ≠ [] := by
  induction js generalizing rows with
  | nil =>
    simp only [List.foldl_nil, ne_eq, List.cons_ne_nil, not_false_eq_true, and_true]
    exact ⟨List.exists_mem_of_ne_nil rows, fun ⟨row, hrow⟩ => List.ne_nil_of_mem hrow⟩
  | cons j js ih =>
    simp only [List.foldl_cons]
    rw [ih]
    constructor
    · rintro ⟨row, hrow, h⟩
      obtain ⟨r, hr, hrow⟩ := List.mem_flatMap.mp hrow
      exact ⟨r, hr, ih.mpr ⟨row, by simpa using hrow, h⟩⟩
    · rintro ⟨r, hr, h⟩
      obtain ⟨row, hrow, h⟩ := ih.mp h
      exact ⟨row, List.mem_flatMap.mpr ⟨r, hr, by simpa using hrow⟩, h⟩

/-- The row of an alias number; there is none for zero. -/
def aliasRow (row : List HeldLock) (n : Nat) : Option HeldLock := if n = 0 then none else row[n - 1]?

theorem startsAfter_iff {row : List HeldLock} {n : Nat} {p : Bool} {l : HeldLock} (hn : n ≤ row.length) :
    startsAfter row (if p && decide (n > 0) then some n else none) l = true ↔ (p = true → Later (aliasRow row n) l) := by
  cases p with
  | false => simp [startsAfter]
  | true =>
    by_cases hz : n = 0
    · simp [hz, startsAfter, aliasRow, Later]
    · have hpos : n > 0 := Nat.pos_of_ne_zero hz
      have hget : row[n - 1]? = some (row.get ⟨n - 1, by omega⟩) := List.getElem?_eq_getElem (by omega)
      simp [startsAfter, aliasRow, Later, hz, hpos, hget]

theorem aliasRow_length (row : List HeldLock) : aliasRow row row.length = row.getLast? := by
  cases row with
  | nil => rfl
  | cons l row => simp [aliasRow, List.getLast?_eq_getElem?]

theorem mem_extend {lockAddress : Nat → Option Nat} {a : Access} {j : LockJoin} {row r : List HeldLock} :
    r ∈ j.extend lockAddress a row ↔ ∃ l ∈ a.held, joinCond lockAddress a.allocId j.lock l = true ∧
      startsAfter row j.afterEmbOther l = true ∧ startsAfter row j.afterPrevious l = true ∧ row ++ [l] = r := by
  simp [LockJoin.extend, and_assoc]

/-- The generated query has a row for the access exactly if the locks are found. -/
theorem lockJoins_found {lockAddress : Nat → Option Nat} {a : Access} {connector : Connector} {locks : List Label}
    {joins : List LockJoin} {row : List HeldLock} {last : Nat} (hlast : last ≤ row.length)
    (h : lockJoins connector (row.length + 1) last locks = .ok joins) :
    joins.foldl (fun rows j => rows.flatMap (j.extend lockAddress a)) [row] ≠ [] ↔
      Found lockAddress a connector row.getLast? (aliasRow row last) locks := by
  induction locks generalizing row last joins with
  | nil =>
    cases h
    simp [Found]
  | cons lock rest ih =>
    unfold lockJoins at h
    split at h
    · cases h
    · obtain ⟨joins', hrest, h⟩ := bind_ok.mp h
      cases h
      rw [List.foldl_cons, foldl_flatMap_ne_nil]
      have hprev : ∀ l, startsAfter row (if (decide (connector = .seq) && decide (row.length + 1 > 1)) then
          some (row.length + 1 - 1) else none) l = true ↔ (connector = .seq → Later row.getLast? l) := by
        intro l
        have := @startsAfter_iff row row.length (decide (connector = .seq)) l (Nat.le_refl _)
        rw [aliasRow_length, decide_eq_true_eq] at this
        rw [← this]
        simp
      have hlater : ∀ l, joins'.foldl (fun rows j => rows.flatMap (j.extend lockAddress a)) [row ++ [l]] ≠ [] ↔
          Found lockAddress a connector (some l) (if lock.isEmbOther then some l else aliasRow row last) rest := by
        intro l
        have hlen : (row ++ [l]).length = row.length + 1 := by simp
        rw [@ih joins' (row ++ [l]) (if lock.isEmbOther then row.length + 1 else last)
          (by rw [hlen]; split <;> omega) (by rw [hlen]; exact hrest), List.getLast?_concat]
        have halias : aliasRow (row ++ [l]) (if lock.isEmbOther then row.length + 1 else last) =
            if lock.isEmbOther then some l else aliasRow row last := by
          split
          · simp [aliasRow]
          · unfold aliasRow
            split
            · rfl
            · rw [List.getElem?_append_left (by omega)]
        rw [halias]
      simp only [Found, List.flatMap_singleton, mem_extend]
      constructor
      · rintro ⟨r, ⟨l, hl, hc, ho, hp, rfl⟩, hr⟩
        exact ⟨l, hl, hc, (startsAfter_iff hlast).mp ho, (hprev l).mp hp, (hlater l).mp hr⟩
      · rintro ⟨l, hl, hc, ho, hp, hr⟩
        exact ⟨row ++ [l], ⟨l, hl, hc, (startsAfter_iff hlast).mpr ho, (hprev l).mpr hp, rfl⟩, (hlater l).mpr hr⟩

theorem lockJoins_ok {connector : Connector} {locks : List Label} {nr last : Nat} {joins : List LockJoin}
    (h : lockJoins connector nr last locks = .ok joins) : ∀ lock ∈ locks, lock.locatable = true := by
  induction locks generalizing nr last joins with
  | nil => simp
  | cons lock rest ih =>
    unfold lockJoins at h
    split at h
    · cases h
    · rename_i hl
      obtain ⟨joins', hrest, -⟩ := bind_ok.mp h
      intro k hk
      rcases List.mem_cons.mp hk with rfl | hk
      · simpa using hl
      · exact ih hrest k hk

theorem lockJoins_total {connector : Connector} {locks : List Label} (nr last : Nat)
    (h : ∀ lock ∈ locks, lock.locatable = true) : ∃ joins, lockJoins connector nr last locks = .ok joins := by
  induction locks generalizing nr last with
  | nil => exact ⟨[], rfl⟩
  | cons lock rest ih =>
    obtain ⟨joins, hj⟩ := ih (nr + 1) (if lock.isEmbOther then nr else last) fun k hk => h k (by simp [hk])
    unfold lockJoins
    rw [hj]
    simp [h lock (by simp), bind, Except.bind]

/-- The script generates a query for locks with exactly known names, and the query leaves
the access out exactly if they are found. -/
theorem excluded_iff (lockAddress : Nat → Option Nat) (a : Access) (connector : Connector) (locks : List Label) :
    excluded lockAddress a connector locks = .ok true ↔
      locks ≠ [] ∧ (∀ lock ∈ locks, lock.locatable = true) ∧ Found lockAddress a connector none none locks := by
  unfold excluded
  rw [bind_ok]
  constructor
  · rintro ⟨joins, hj, h⟩
    unfold counterexampleSql at hj
    split at hj
    · cases hj
    · rename_i hne
      have hrows : joinRows lockAddress a joins ≠ [] := of_decide_eq_true (Except.ok.inj h)
      exact ⟨hne, lockJoins_ok hj, (@lockJoins_found _ _ _ _ _ [] 0 (Nat.le_refl 0) hj).mp hrows⟩
  · rintro ⟨hne, hl, hf⟩
    obtain ⟨joins, hj⟩ := @lockJoins_total connector locks 1 0 hl
    refine ⟨joins, by simp [counterexampleSql, hne, hj], ?_⟩
    have hrows := (@lockJoins_found _ _ _ _ _ [] 0 (Nat.le_refl 0) hj).mpr hf
    exact congrArg Except.ok (decide_eq_true hrows)

end LockDoc.Queries
