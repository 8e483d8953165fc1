import LockDoc.Lib.Run
import LockDoc.Convert.Transition

/-!
# The event loop of `convert`

`convert.cc`: allocations, accesses and lock operations, in the order the main
loop treats them. Accesses are buffered and attributed to a transaction when the
next other event arrives. An event is what the column parser hands to the second
`switch` of the loop; the columns themselves are not modelled here.
-/
namespace LockDoc.Convert

structure DataType where
  id : Nat
  name : String
  deriving DecidableEq, Repr

structure Subclass where
  id : Nat
  name : String
  dataTypeIdx : Nat
  realSubclass : Bool
  deriving DecidableEq, Repr

structure Allocation where
  start : Nat
  id : Nat
  size : Int
  subclassIdx : Nat
  deriving DecidableEq, Repr

inductive AccessKind where
  | read
  | write
  deriving DecidableEq, Repr

def AccessKind.action : AccessKind → Char
  | .read => 'r'
  | .write => 'w'

structure MemAccess where
  id : Nat
  ts : Nat
  allocId : Nat
  kind : AccessKind
  size : Int
  address : Nat
  stacktraceId : Nat
  ctx : Int
  deriving DecidableEq, Repr

/-- A row of `accesses.csv`; `txnId` is `none` for `\N`. -/
structure AccessRow where
  access : MemAccess
  txnId : Option Nat
  deriving DecidableEq, Repr

/-- A row of `allocations.csv`; `stop` is `none` for `\N`. -/
structure AllocRow where
  id : Nat
  subclassId : Nat
  baseAddress : Nat
  size : Int
  start : Nat
  stop : Option Nat
  deriving DecidableEq, Repr

/-- A row of `locks.csv`. -/
structure LockRow where
  id : Nat
  address : Nat
  embeddedIn : Option Nat
  lockType : String
  subLock : SubLock
  lockVarName : Option String
  flags : Nat
  deriving DecidableEq, Repr

structure AccessEvent where
  kind : AccessKind
  ts : Nat
  address : Nat
  size : Nat
  baseAddress : Nat
  instrPtr : Nat
  stacktrace : String
  ctx : Int
  deriving DecidableEq, Repr

inductive Event where
  | alloc (ts baseAddress size : Nat) (typeStr : String)
  | free (ts baseAddress size : Nat)
  | lockOp (e : LockEvent)
  | access (e : AccessEvent)
  | other (ts : Nat) (action : Char)
  deriving DecidableEq, Repr

namespace Event

def ts : Event → Nat
  | .alloc ts _ _ _ => ts
  | .free ts _ _ => ts
  | .lockOp e => e.ts
  | .access e => e.ts
  | .other ts _ => ts

/-- The character in the action column (`LOCKDOC_OP`). -/
def action : Event → Char
  | .alloc .. => 'a'
  | .free .. => 'f'
  | .lockOp _ => 'l'
  | .access e => e.kind.action
  | .other _ c => c

/-- The variable `address` of the main loop, with the default it has when unset. -/
def address : Event → Nat
  | .lockOp e => e.address
  | .access e => e.address
  | _ => 0x1337

/-- `compare("seqlock_t")`; every other event leaves `lockType` at `"empty"`. -/
def isSeqlock : Event → Bool
  | .lockOp e => e.lockType = "seqlock_t" || e.lockType = "seqcount_t"
  | _ => false

end Event

/-- The command line, the data types, and what the kernel image says about it. -/
structure Config where
  ctxTracing : Bool
  includeAllLocks : Bool
  processSeqlock : Bool
  kernelBaseDir : String
  types : List DataType
  dataSections : List (Nat × Nat)
  getGlobalLockVar : Nat → Option String

structure State where
  lockManager : LockManager
  activeAllocs : Std.ExtTreeMap Nat Allocation
  subclasses : List Subclass
  lastMemAccesses : List MemAccess
  stacktraces : List ((Nat × String) × Nat)
  curAllocID : Nat
  curSubclassID : Nat
  curAccessID : Nat
  curStacktraceID : Nat
  allocOFile : List AllocRow
  accessOFile : List AccessRow
  locksOFile : List LockRow
  ts : Nat

/-- `pseudoAllocID`, the allocation of non-static locks outside all allocations. -/
def Config.pseudoAllocID (cfg : Config) : Nat := if cfg.includeAllLocks then 1 else 0

def State.init (cfg : Config) : State where
  lockManager := .init
  activeAllocs := ∅
  subclasses := []
  lastMemAccesses := []
  stacktraces := []
  curAllocID := cfg.pseudoAllocID + 1
  curSubclassID := 1
  curAccessID := 1
  curStacktraceID := 1
  allocOFile := if cfg.includeAllLocks then [⟨cfg.pseudoAllocID, 0, 0, 0, 0, none⟩] else []
  accessOFile := []
  locksOFile := []
  ts := 0

/-- The execution context that transactions are kept under. -/
def Config.ctxOf (cfg : Config) (ctx : Int) : Int := if cfg.ctxTracing then ctx else 0

namespace State

def log (σ : State) (m : Msg) : State := { σ with lockManager := σ.lockManager.log m }

/-- Attribute one buffered access to the transaction on top of its context's stack. -/
def writeMemAccess (cfg : Config) (σ : State) (a : MemAccess) : State :=
  match σ.lockManager.stack (cfg.ctxOf a.ctx) with
  | [] => { σ with accessOFile := σ.accessOFile ++ [⟨a, none⟩] }
  | txn :: below =>
    { σ with
      accessOFile := σ.accessOFile ++ [⟨a, some txn.id⟩]
      lockManager := σ.lockManager.setStack (cfg.ctxOf a.ctx)
        ({ txn with memAccessCounter := txn.memAccessCounter + 1 } :: below) }

end State

/-- The look-behind filter: drop a read-write pair at the lock's own address. -/
def discardLockAccess (address : Nat) (pending : List MemAccess) : List MemAccess :=
  match pending.reverse with
  | w1 :: w0 :: rest =>
    if w0.ts = w1.ts ∧ w0.kind = .read ∧ w1.kind = .write ∧ w0.address = w1.address ∧
        w0.address = address ∧ w0.size = w1.size then rest.reverse
    else pending
  | _ => pending

def writeMemAccesses (cfg : Config) (action : Char) (address : Nat) (σ : State) : State :=
  if action = 'r' ∨ action = 'w' then σ
  else
    let pending := if action = 'p' ∨ action = 'v' then discardLockAccess address σ.lastMemAccesses
      else σ.lastMemAccesses
    { pending.foldl (State.writeMemAccess cfg) σ with lastMemAccesses := [] }

/-- `PSEUDOLOCK_ADDR_RCU`, `PSEUDOLOCK_ADDR_SOFTIRQ`, `PSEUDOLOCK_ADDR_HARDIRQ`. -/
def isPseudoLock (lockAddress : Nat) : Bool :=
  lockAddress = 0x42 || lockAddress = 0x45 || lockAddress = 0x44

def checkLockInSections (cfg : Config) (lockAddress : Nat) : Bool :=
  cfg.dataSections.any (fun s => s.1 ≤ lockAddress && lockAddress ≤ addU64 s.1 s.2)

/-- The active allocation around an address: the last one that starts at or before
it (`upper_bound`, then one step back), when the address is below its end. -/
def enclosingAllocation (allocs : Std.ExtTreeMap Nat Allocation) (lockAddress : Nat) : Option Allocation :=
  match allocs.getEntryLE? lockAddress with
  | some (base, a) => if lockAddress < addU64 base (toU64 a.size) then some a else none
  | none => none

/-- Categorise an unknown lock: its allocation id (an `unsigned`) and variable name,
or `none` if the lock is to be ignored. -/
def categorize (cfg : Config) (σ : State) (lockAddress : Nat) (lockMember : String) :
    Option (Nat × Option String) :=
  let allocationId := match enclosingAllocation σ.activeAllocs lockAddress with
    | some a => a.id % 2 ^ 32
    | none => 0
  if allocationId ≠ 0 then some (allocationId, none)
  else if checkLockInSections cfg lockAddress || (lockMember = "static" && isPseudoLock lockAddress) then
    some (0, cfg.getGlobalLockVar lockAddress)
  else if cfg.includeAllLocks then some (cfg.pseudoAllocID % 2 ^ 32, none)
  else none

/-- `writeLock`: one row per side the class uses, the writer first. -/
def writeLock (lk : RWLock) : List LockRow :=
  let row := fun side => LockRow.mk (lk.idOf side) lk.lockAddress
    (if lk.allocationId = 0 then none else some lk.allocationId) lk.lockType side
    (if lk.lockVarName = "" then none else some lk.lockVarName) lk.flags
  ([SubLock.writer, SubLock.reader].filter lk.cls.has).map row

/-- The first half of `handlePV`: the lock object the operation acts on, created on
the first `P()`, or `none` when the operation is ignored. -/
def resolveLock (cfg : Config) (σ : State) (e : LockEvent) : Except Abort (Option LockPtr × State) :=
  match σ.lockManager.findLock e.address with
  | some l => .ok (some l, σ)
  | none =>
    match categorize cfg σ e.address e.lockMember with
    | none => .ok (none, σ)
    | some (allocationId, lockVarName) =>
      if e.op = .vRead ∨ e.op = .vWrite then .ok (none, σ.log .cannotFindLock)
      else do
        let (l, lm) ← σ.lockManager.allocLock e.address allocationId e.lockType
          (lockVarName.getD "") e.flags
        .ok (some l, { σ with lockManager := lm, locksOFile := σ.locksOFile ++ writeLock (lm.heap l) })

def handlePV (cfg : Config) (σ : State) (e : LockEvent) : Except Abort State := do
  let (lock, σ) ← resolveLock cfg σ e
  match lock with
  | none => .ok σ
  | some l =>
    let lm ← σ.lockManager.transition l e cfg.kernelBaseDir (cfg.ctxOf e.ctx)
    .ok { σ with lockManager := lm }

/-- Split a type string at the first `:` into data type and subclass name. -/
def splitType (typeStr : String) : String × String × Bool :=
  if ':' ∈ typeStr.toList then
    (String.ofList (typeStr.toList.takeWhile (· ≠ ':')),
      String.ofList (typeStr.toList.dropWhile (· ≠ ':')).tail, true)
  else (typeStr, typeStr, false)

/-- The subclass index of a type string, with a new subclass appended if needed.
The index is `none` for an unknown data type. -/
def findSubclass (cfg : Config) (σ : State) (typeStr : String) : Except Abort (Option Nat × State) :=
  let (dataTypeName, subclassName, realSubclass) := splitType typeStr
  match σ.subclasses.findIdx? (fun s => s.name = subclassName) with
  | some i => .ok (some i, σ)
  | none =>
    match cfg.types.findIdx? (fun t => t.name = dataTypeName) with
    | none => .ok (none, σ.log (.unknownDatatype typeStr))
    | some dataTypeIdx =>
      if σ.subclasses.any (fun s => s.name = dataTypeName) then .error .dummySubclass
      else .ok (some σ.subclasses.length,
        { σ with
          subclasses := σ.subclasses ++ [⟨σ.curSubclassID, subclassName, dataTypeIdx, realSubclass⟩]
          curSubclassID := σ.curSubclassID + 1 })

def handleAlloc (cfg : Config) (σ : State) (ts baseAddress size : Nat) (typeStr : String) :
    Except Abort State :=
  if σ.activeAllocs.contains baseAddress then .ok (σ.log .occupiedAddress)
  else do
    let (idx, σ) ← findSubclass cfg σ typeStr
    match idx with
    | none => .ok σ
    | some i =>
      .ok { σ with
        activeAllocs := σ.activeAllocs.insert baseAddress ⟨ts, σ.curAllocID, toInt size, i⟩
        curAllocID := σ.curAllocID + 1 }

/-- The id column of a subclass. -/
def subclassId (σ : State) (a : Allocation) : Nat := ((σ.subclasses[a.subclassIdx]?).map Subclass.id).getD 0

/-- The row of a freed allocation reports the size column of the free event. -/
def handleFree (σ : State) (ts baseAddress size : Nat) : State :=
  match σ.activeAllocs[baseAddress]? with
  | none => σ.log .noActiveAllocationForFree
  | some a =>
    { σ with
      allocOFile := σ.allocOFile ++ [⟨a.id, subclassId σ a, baseAddress, size, a.start, some ts⟩]
      lockManager := σ.lockManager.deleteLockByArea baseAddress (toU64 a.size)
      activeAllocs := σ.activeAllocs.erase baseAddress }

/-- The id of a stack trace, a new one for a pair that was not seen before. -/
def addStacktrace (σ : State) (instrPtr : Nat) (stacktrace : String) : Nat × State :=
  let key := (instrPtr, if ',' ∈ stacktrace.toList then String.ofList stacktrace.toList.dropLast else stacktrace)
  match σ.stacktraces.lookup key with
  | some i => (i, σ)
  | none => (σ.curStacktraceID,
      { σ with
        stacktraces := σ.stacktraces ++ [(key, σ.curStacktraceID)]
        curStacktraceID := σ.curStacktraceID + 1 })

/-- The sanity check on an access, in `unsigned long long` arithmetic. -/
def outsideAllocation (e : AccessEvent) (a : Allocation) : Bool :=
  e.address < e.baseAddress || addU64 e.baseAddress (toU64 a.size) < e.address ||
    addU64 e.address e.size < e.baseAddress ||
    addU64 e.baseAddress (toU64 a.size) < addU64 e.address e.size

/-- Buffer a read or write of an active allocation. -/
def handleAccess (σ : State) (e : AccessEvent) : Except Abort State :=
  match σ.activeAllocs[e.baseAddress]? with
  | none => .ok (σ.log .noActiveAllocation)
  | some a =>
    if outsideAllocation e a then .error .accessOutsideAllocation
    else
      let (trace, σ) := addStacktrace σ e.instrPtr e.stacktrace
      .ok { σ with
        lastMemAccesses := σ.lastMemAccesses ++
          [⟨σ.curAccessID, e.ts, a.id, e.kind, toInt e.size, e.address, trace, e.ctx⟩]
        curAccessID := σ.curAccessID + 1 }

/-- The second `switch` of the main loop. -/
def dispatch (cfg : Config) (σ : State) : Event → Except Abort State
  | .alloc ts baseAddress size typeStr => handleAlloc cfg σ ts baseAddress size typeStr
  | .free ts baseAddress size => .ok (handleFree σ ts baseAddress size)
  | .lockOp e => handlePV cfg σ e
  | .access e => handleAccess σ e
  | .other _ _ => .ok (σ.log .unknownAction)

/-- One iteration of the main loop. -/
def step (cfg : Config) (σ : State) (e : Event) : Except Abort State :=
  if !cfg.processSeqlock && e.isSeqlock then .ok { σ with ts := e.ts }
  else dispatch cfg (writeMemAccesses cfg e.action e.address { σ with ts := e.ts }) e

/-- The rows of the allocations that were never freed. -/
def openAllocRows (σ : State) : List AllocRow :=
  σ.activeAllocs.toList.map (fun (base, a) => ⟨a.id, subclassId σ a, base, a.size, a.start, none⟩)

/-- What follows the main loop: rows for the allocations that are still open, the
last buffered accesses, and the open transactions. -/
def finish (cfg : Config) (σ : State) : Except Abort State := do
  let σ := { σ with allocOFile := σ.allocOFile ++ openAllocRows σ }
  let σ := writeMemAccesses cfg 'v' 0 σ
  let lm ← σ.lockManager.closeAllTXNs σ.ts
  .ok { σ with lockManager := lm }

/-- A complete conversion of a trace. -/
def convert (cfg : Config) (trace : List Event) : Except Abort State := do
  let σ ← FallibleRun.run (step cfg) trace (.init cfg)
  finish cfg σ

/-- A configuration that tracks every lock and knows one data type, for concrete runs. -/
def Config.trackAll (ctxTracing : Bool) : Config where
  ctxTracing := ctxTracing
  includeAllLocks := true
  processSeqlock := false
  kernelBaseDir := "/linux"
  types := [⟨1, "inode"⟩]
  dataSections := []
  getGlobalLockVar _ := none

/-- One fixed allocation, and an access inside it. -/
def inodeAlloc : Event := .alloc 1 0x1000 64 "inode"

def inodeAccess (ts : Nat) (ctx : Int) : Event := .access ⟨.read, ts, 0x1008, 4, 0x1000, 0xc0de, "", ctx⟩

/-- An operation on one fixed reader-writer lock. -/
def rwlockOp (op : LockOp) (ts : Nat) (ctx : Int) : Event :=
  .lockOp ⟨op, ts, 0x100, "/linux/fs/inode.c", ts, "i_lock", "rwlock_t", 0, ctx⟩

end LockDoc.Convert
