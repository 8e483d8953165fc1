import LockDoc.Convert.Lock

/-!
# The lock manager

`lockmanager.cc`: the registered locks, one stack of nested transactions per
context, and the rows of `txns.csv` and `locks_held.csv`. A stack is a list with
its top (the `back()` of the deque) at the head.
-/
namespace LockDoc.Convert

structure LockManager where
  activeTXNs : Std.ExtTreeMap Int (List TXN)
  nextTXNID : Nat
  nextLockID : Nat
  locks : Std.ExtTreeMap Nat LockPtr
  heap : LockPtr → RWLock
  objects : Nat
  txnsOFile : List TxnRow
  locksHeldOFile : List LockHeldRow
  stderr : List Msg

namespace LockManager

def init : LockManager := ⟨∅, 1, 1, ∅, fun _ => default, 0, [], [], []⟩

def log (lm : LockManager) (m : Msg) : LockManager := { lm with stderr := lm.stderr ++ [m] }

/-- `PRINT_ERROR(lock->toString(side), ...)`: the context string asks the lock for
the id of the side, which throws for a side the class does not use. -/
def printError (lm : LockManager) (lock : LockPtr) (side : SubLock) (m : Msg) :
    Except Abort LockManager := do
  let _ ← (lm.heap lock).getID side
  .ok (lm.log m)

/-- `m_activeTXNs[ctx]`. The entry that `operator[]` creates for a missing key is empty. -/
def stack (lm : LockManager) (ctx : Int) : List TXN := lm.activeTXNs.getD ctx []

def setStack (lm : LockManager) (ctx : Int) (s : List TXN) : LockManager :=
  { lm with activeTXNs := lm.activeTXNs.insert ctx s }

def setLock (lm : LockManager) (lock : LockPtr) (lk : RWLock) : LockManager :=
  { lm with heap := Function.update lm.heap lock lk }

def hasActiveTXN (lm : LockManager) (ctx : Int) : Bool := !(lm.stack ctx).isEmpty

def isOnTXNStack (lm : LockManager) (ctx : Int) (lock : LockPtr) (side : SubLock) : Bool :=
  (lm.stack ctx).any (fun t => t.lock = lock && t.subLock = side)

/-- The first context, in ascending order, with an entry for the sub lock, or `ctx`. -/
def findTXN (lm : LockManager) (lock : LockPtr) (side : SubLock) (ctx : Int) : Int :=
  match lm.activeTXNs.toList.find? (fun kv => kv.2.any (fun t => t.lock = lock && t.subLock = side)) with
  | some kv => kv.1
  | none => ctx

def findLock (lm : LockManager) (address : Nat) : Option LockPtr := lm.locks[address]?

/-- The address lies in the half-open area, in `unsigned long long` arithmetic. -/
def inArea (address size lockAddress : Nat) : Bool :=
  address ≤ lockAddress && lockAddress < addU64 address size

/-- Unregister every lock of a freed area. The objects themselves stay alive. -/
def deleteLockByArea (lm : LockManager) (address size : Nat) : LockManager :=
  let gone := fun l => inArea address size (lm.heap l).lockAddress
  { lm with
    locks := lm.locks.filter (fun _ l => !gone l)
    stderr := lm.stderr ++ (lm.locks.toList.filter (fun kv => gone kv.2 && (lm.heap kv.2).isHeld)).map
      (fun kv => .freedButHeld (lm.heap kv.2).lockAddress) }

/-- The loop over the stack, bottom first, that notes the locks held during a
transaction. `seen` is the set of lock ids already noted. -/
def noteHeld (tid : Nat) : List TXN → List Nat → LockManager → Except Abort LockManager
  | [], _, lm => .ok lm
  | t :: rest, seen, lm =>
    if (lm.heap t.lock).isHeld then
      match (lm.heap t.lock).lastNPos with
      | [] => do
        let lm ← lm.printError t.lock t.subLock .stackUnderflow
        noteHeld tid rest seen lm
      | pos :: _ => do
        let lockID ← (lm.heap t.lock).getID t.subLock
        if lockID ∈ seen then
          noteHeld tid rest seen lm
        else
          let row := ⟨tid, lockID, pos.start, pos.lastFile, pos.lastLine⟩
          noteHeld tid rest (lockID :: seen) { lm with locksHeldOFile := lm.locksHeldOFile ++ [row] }
    else do
      let lm ← lm.printError t.lock t.subLock .notHeld
      noteHeld tid rest seen lm

/-- Record the topmost transaction of `txn :: below`. -/
def recordTXN (lm : LockManager) (txn : TXN) (below : List TXN) (ts : Nat) (ctxOld : Int) :
    Except Abort LockManager :=
  noteHeld txn.id (txn :: below).reverse []
    { lm with txnsOFile := lm.txnsOFile ++ [⟨txn.id, txn.startTs, txn.startCtx, ts, ctxOld⟩] }

/-- The `removeReader` sweep over the rest of the stack, bottom first. On a writer
entry the source advances its iterator before it dereferences it for the message. -/
def sweepUp (lock : LockPtr) : List TXN → LockManager → Except Abort (List TXN × LockManager)
  | [], lm => .ok ([], lm)
  | t :: up, lm =>
    if t.lock ≠ lock then do
      let (r, lm) ← sweepUp lock up lm
      .ok (t :: r, lm)
    else match t.subLock with
      | .reader => sweepUp lock up lm
      | .writer =>
        match up with
        | [] => .error .endDeref
        | u :: _ => do
          let lm ← lm.printError u.lock u.subLock .multipleWriters
          let (r, lm) ← sweepUp lock up lm
          .ok (t :: r, lm)

def sweepReaders (lm : LockManager) (lock : LockPtr) (below : List TXN) :
    Except Abort (List TXN × LockManager) := do
  let (r, lm) ← sweepUp lock below.reverse lm
  .ok (r.reverse, lm)

/-- A transaction that is reopened under a fresh id. -/
def restartTXN (lm : LockManager) (txn : TXN) (ts : Nat) (ctx : Int) : TXN :=
  { txn with id := lm.nextTXNID, startTs := ts, memAccessCounter := 0, startCtx := ctx }

/-- The deconstruction loop of `finishTXN`: close transactions from the top down to
the topmost one of the sub lock, then reopen the others above what is left. -/
def finishLoop (lock : LockPtr) (ts : Nat) (side : SubLock) (removeReader : Bool) (ctx ctxOld : Int) :
    List TXN → LockManager → Except Abort (List TXN × Bool × LockManager)
  | [], lm => .ok ([], false, lm)
  | txn :: below, lm => do
    let lm ← (if 0 < txn.memAccessCounter then lm.recordTXN txn below ts ctxOld else .ok lm)
    if txn.lock = lock ∧ txn.subLock = side then
      let (below, lm) ← (if removeReader then lm.sweepReaders lock below else .ok (below, lm))
      .ok (below, true, lm)
    else
      let lm ← (if txn.lock = lock then lm.printError txn.lock txn.subLock .subLockMismatch else .ok lm)
      let txn := lm.restartTXN txn ts ctx
      let (rest, found, lm) ← finishLoop lock ts side removeReader ctx ctxOld below
        { lm with nextTXNID := lm.nextTXNID + 1 }
      .ok (txn :: rest, found, lm)

/-- Release a lock, and finish the corresponding transaction. -/
def finishTXN (lm : LockManager) (lock : LockPtr) (ts : Nat) (side : SubLock) (removeReader : Bool)
    (ctx ctxOld : Int) : Except Abort (Bool × LockManager) := do
  let (s, found, lm) ← finishLoop lock ts side removeReader ctx ctxOld (lm.stack ctx) lm
  let lm ← (if found then .ok lm else lm.printError lock side .noMatchingTXN)
  .ok (found, lm.setStack ctx s)

def startTXN (lm : LockManager) (lock : LockPtr) (ts : Nat) (side : SubLock) (ctx : Int) : LockManager :=
  { lm.setStack ctx (⟨lm.nextTXNID, ts, ctx, 0, lock, side⟩ :: lm.stack ctx) with
    nextTXNID := lm.nextTXNID + 1 }

/-- Pretend a `V()` on the topmost lock until the context has no transaction left. -/
def closeCtx (ts : Nat) (ctx : Int) : Nat → LockManager → Except Abort LockManager
  | fuel, lm =>
    match lm.stack ctx with
    | [] => .ok lm
    | txn :: below =>
      match fuel with
      | 0 => .error .outOfFuel
      | fuel + 1 => do
        let lm := lm.log (.stillActive ctx (below.length + 1))
        let (_, lm) ← lm.finishTXN txn.lock ts txn.subLock false ctx ctx
        closeCtx ts ctx fuel lm

def closeAllTXNs (lm : LockManager) (ts : Nat) : Except Abort LockManager :=
  lm.activeTXNs.keys.foldlM (fun lm ctx => closeCtx ts ctx (lm.stack ctx).length lm) lm

/-- The class that `allocLock` instantiates for a lock type. -/
def lockClassOf (lockType : String) : Option LockClass :=
  if lockType ∈ ["raw_spinlock_t", "mutex", "softirq", "hardirq", "semaphore", "bit_spin_lock",
      "sleep mutex", "spin mutex", "kmutex_t"] then some .wLock
  else if lockType = "rcu" then some .rLock
  else if lockType ∈ ["rwlock_t", "rw_semaphore", "sx", "rw", "sleepable rm", "rm", "lockmgr",
      "krwlock_t"] then some .rwLock
  else none

def allocLock (lm : LockManager) (lockAddress allocID : Nat) (lockType lockVarName : String)
    (flags : Nat) : Except Abort (LockPtr × LockManager) :=
  match lockClassOf lockType with
  | none => .error .unknownLockType
  | some cls =>
    let blank : RWLock := ⟨cls, 0, 0, lockAddress, flags, 0, 0, allocID, lockType, lockVarName, []⟩
    let (lk, next) := blank.initIDs lm.nextLockID
    if lm.locks.contains lockAddress then .error .lockMapInsert
    else .ok (lm.objects,
      { lm.setLock lm.objects lk with
        nextLockID := next
        objects := lm.objects + 1
        locks := lm.locks.insert lockAddress lm.objects })

end LockManager

end LockDoc.Convert
