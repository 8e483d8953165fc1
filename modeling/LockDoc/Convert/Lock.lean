import Mathlib

/-!
# Locks, positions and transactions of `convert`

The data model of `rwlock.h`, `rlock.h`, `wlock.h` and `lockmanager.h`. Every lock
is a reader-writer lock with two sub locks; `RLock` and `WLock` use one of them.
A lock object is never deleted once it is allocated, so a pointer is an index
into a heap that only grows.
-/
namespace LockDoc.Convert

/-- Narrowing of an `unsigned long long` to a 32-bit `int`. -/
def toInt (n : Nat) : Int := Int.bmod n (2 ^ 32)

/-- An `int` operand converted to `unsigned long long`. -/
def toU64 (i : Int) : Nat := (i % 2 ^ 64).toNat

/-- Addition of `unsigned long long` values. -/
def addU64 (a b : Nat) : Nat := (a + b) % 2 ^ 64

/-- `SUB_LOCK`: the side of a lock. -/
inductive SubLock where
  | reader
  | writer
  deriving DecidableEq, Repr

/-- The side a `P()` of the given side has to flush. -/
def SubLock.other : SubLock → SubLock
  | .reader => .writer
  | .writer => .reader

/-- `LOCK_OP`. -/
inductive LockOp where
  | pRead
  | pWrite
  | vRead
  | vWrite
  deriving DecidableEq, Repr

/-- The dynamic class of a lock object: `RWLock` or a subclass of it. -/
inductive LockClass where
  | rwLock
  | rLock
  | wLock
  deriving DecidableEq, Repr

/-- The sides a class has. -/
def LockClass.has : LockClass → SubLock → Bool
  | .rwLock, _ => true
  | .rLock, s => s = .reader
  | .wLock, s => s = .writer

/-- `LOCK_FLAGS_RECURSIVE`. -/
def lockFlagsRecursive : Nat := 0x1

def isRecursive (flags : Nat) : Bool := flags &&& lockFlagsRecursive ≠ 0

structure LockPos where
  subLock : SubLock
  start : Nat
  lastLine : Int
  lastFile : String
  deriving DecidableEq, Repr

abbrev LockPtr := Nat

/-- A lock object. The counters are C++ `int`s that the flush loops may take below
zero. The head of `lastNPos` is the top of the C++ stack. -/
structure RWLock where
  cls : LockClass
  readId : Nat
  writeId : Nat
  lockAddress : Nat
  flags : Nat
  readerCount : Int
  writerCount : Int
  allocationId : Nat
  lockType : String
  lockVarName : String
  lastNPos : List LockPos
  deriving DecidableEq, Repr

/-- What a heap cell holds before an object is allocated in it. -/
instance : Inhabited RWLock := ⟨⟨.rwLock, 0, 0, 0, 0, 0, 0, 0, "", "", []⟩⟩

/-- Everything that ends the process before the final flush. `endDeref` and
`popEmpty` stand for the undefined behaviour of the C++ containers, and
`outOfFuel` for a loop that the model had to cut short. -/
inductive Abort where
  | invalidState
  | invalidOp
  | invalidArgument
  | unknownLockType
  | lockMapInsert
  | dummySubclass
  | accessOutsideAllocation
  | endDeref
  | popEmpty
  | outOfFuel
  deriving DecidableEq, Repr

/-- The diagnostics written to `cerr`. -/
inductive Msg where
  | sideHeld (side : SubLock)
  | inconsistentCount (side : SubLock) (count : Int)
  | cannotFlush
  | alreadyHeld
  | noRunningTXN
  | noLastPos
  | alreadyReleased
  | stackUnderflow
  | notHeld
  | multipleWriters
  | subLockMismatch
  | noMatchingTXN
  | freedButHeld (address : Nat)
  | stillActive (ctx : Int) (count : Nat)
  | cannotFindLock
  | occupiedAddress
  | unknownDatatype (typeStr : String)
  | noActiveAllocationForFree
  | noActiveAllocation
  | unknownAction
  deriving DecidableEq, Repr

def Msg.text : Msg → String
  | .sideHeld .reader => "Read-side is already beeing held."
  | .sideHeld .writer => "Write-side is already beeing held."
  | .inconsistentCount .reader n => s!"Inconsistent reader_count, still above zero ({n})."
  | .inconsistentCount .writer n => s!"Inconsistent writer_count, still above zero ({n})."
  | .cannotFlush => "Cannot flush all reader."
  | .alreadyHeld => "Lock is already beeing held."
  | .noRunningTXN => "TXN: V() but no running TXN!"
  | .noLastPos => "No last locking position known, cannot pop."
  | .alreadyReleased => "Lock has already been released."
  | .stackUnderflow => "TXN: Internal error, stack underflow in lastNPos"
  | .notHeld => "TXN: Internal error, lock is part of the TXN hierarchy but not held?"
  | .multipleWriters => "Multiple active txns for one writer lock"
  | .subLockMismatch => "sublock does not match"
  | .noMatchingTXN => "TXN: Internal error -- V() but no matching TXN!"
  | .freedButHeld a => s!"Lock at {a}is being freed but held!"
  | .stillActive c n => s!"TXN[{c}]: There are still {n} TXNs active, flushing the topmost one."
  | .cannotFindLock => "Cannot find a lock at given address."
  | .occupiedAddress => "Found active allocation at address."
  | .unknownDatatype t => s!"Found unknown datatype: {t}"
  | .noActiveAllocationForFree => "Didn't find active allocation for address."
  | .noActiveAllocation => "Didn't find active allocation"
  | .unknownAction => "Unknown action:"

namespace RWLock

/-- The counter of a side. -/
def count (lk : RWLock) : SubLock → Int
  | .reader => lk.readerCount
  | .writer => lk.writerCount

def setCount (lk : RWLock) (side : SubLock) (n : Int) : RWLock :=
  match side with
  | .reader => { lk with readerCount := n }
  | .writer => { lk with writerCount := n }

def isHeld (lk : RWLock) : Bool :=
  match lk.cls with
  | .rwLock => lk.readerCount > 0 || lk.writerCount > 0
  | .rLock => lk.readerCount > 0
  | .wLock => lk.writerCount > 0

/-- The id field of a side, without the class check. -/
def idOf (lk : RWLock) : SubLock → Nat
  | .reader => lk.readId
  | .writer => lk.writeId

/-- `getID` throws when a subclass is asked for the side it does not use. -/
def getID (lk : RWLock) (side : SubLock) : Except Abort Nat :=
  if lk.cls.has side then .ok (lk.idOf side) else .error .invalidArgument

/-- `initIDs`: the unused side of a subclass gets `-1`. Returns the next free id too. -/
def initIDs (lk : RWLock) (id : Nat) : RWLock × Nat :=
  match lk.cls with
  | .rwLock => ({ lk with readId := id, writeId := id + 1 }, id + 2)
  | .rLock => ({ lk with readId := id, writeId := toU64 (-1) }, id + 1)
  | .wLock => ({ lk with readId := toU64 (-1), writeId := id }, id + 1)

def updateFlags (lk : RWLock) (value : Nat) : RWLock := { lk with flags := value }

@[simp] theorem count_setCount (lk : RWLock) (s : SubLock) (n : Int) : (lk.setCount s n).count s = n := by
  cases s <;> rfl

@[simp] theorem count_setCount_other (lk : RWLock) (s : SubLock) (n : Int) :
    (lk.setCount s n).count s.other = lk.count s.other := by
  cases s <;> rfl

@[simp] theorem lastNPos_setCount (lk : RWLock) (s : SubLock) (n : Int) :
    (lk.setCount s n).lastNPos = lk.lastNPos := by cases s <;> rfl

@[simp] theorem cls_setCount (lk : RWLock) (s : SubLock) (n : Int) : (lk.setCount s n).cls = lk.cls := by
  cases s <;> rfl

@[simp] theorem idOf_setCount (lk : RWLock) (s t : SubLock) (n : Int) :
    (lk.setCount s n).idOf t = lk.idOf t := by cases s <;> cases t <;> rfl

/-- A lock is held as soon as a side its class uses is counted. -/
theorem isHeld_of_count (lk : RWLock) (s : SubLock) (hc : lk.cls.has s) (h : 0 < lk.count s) :
    lk.isHeld := by
  cases hk : lk.cls <;> cases s <;> simp_all [isHeld, LockClass.has, count]

end RWLock

/-- A transaction on one of the stacks. -/
structure TXN where
  id : Nat
  startTs : Nat
  startCtx : Int
  memAccessCounter : Nat
  lock : LockPtr
  subLock : SubLock
  deriving DecidableEq, Repr

/-- The sub lock an entry was opened for. -/
def TXN.label (t : TXN) : LockPtr × SubLock := (t.lock, t.subLock)

/-- A row of `txns.csv`. -/
structure TxnRow where
  id : Nat
  startTs : Nat
  startCtx : Int
  endTs : Nat
  endCtx : Int
  deriving DecidableEq, Repr

/-- A row of `locks_held.csv`. -/
structure LockHeldRow where
  txnId : Nat
  lockId : Nat
  start : Nat
  lastFile : String
  lastLine : Int
  deriving DecidableEq, Repr

end LockDoc.Convert
