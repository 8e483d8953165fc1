import LockDoc.Convert.LockManager

/-!
# Lock transitions

`rwlock.cc`: what a `P()` or `V()` does to the counters of a lock, to its stack of
acquisition positions and to the transaction stacks. The two transition functions
share the tail of a `P()` and the whole of a `V()`; they differ in how a `P()`
recovers from events that are missing in the trace.
-/
namespace LockDoc.Convert

/-- Where and how a lock operation was issued. -/
structure LockEvent where
  op : LockOp
  ts : Nat
  address : Nat
  file : String
  line : Nat
  lockMember : String
  lockType : String
  flags : Nat
  ctx : Int
  deriving DecidableEq, Repr

/-- The kernel directory with a trailing slash. -/
def withSlash (kernelDir : String) : List Char :=
  if kernelDir.toList.getLast? = some '/' then kernelDir.toList else kernelDir.toList ++ ['/']

/-- `file.find(dir)` tests for an occurrence anywhere, `substr` then cuts at the front. -/
def relativeFile (kernelDir file : String) : String :=
  if withSlash kernelDir <:+: file.toList then String.ofList (file.toList.drop (withSlash kernelDir).length)
  else file

/-- The position that a `P()` pushes. -/
def LockEvent.pos (e : LockEvent) (kernelDir : String) (side : SubLock) : LockPos :=
  ⟨side, e.ts, toInt e.line, relativeFile kernelDir e.file⟩

namespace RWLock

/-- The loop that takes the counter down once per recorded position, then the reset
of a counter that did not come out at zero. -/
def drain (lk : RWLock) (side : SubLock) : RWLock :=
  { lk.setCount side 0 with lastNPos := [] }

def drainedCount (lk : RWLock) (side : SubLock) : Int :=
  lk.lastNPos.foldl (fun n _ => n - 1) (lk.count side)

def push (lk : RWLock) (pos : LockPos) : RWLock :=
  { lk.setCount pos.subLock (lk.count pos.subLock + 1) with lastNPos := pos :: lk.lastNPos }

/-- `lastNPos.pop()`, undefined on an empty stack. -/
def popPos (lk : RWLock) : Except Abort RWLock :=
  match lk.lastNPos with
  | [] => .error .popEmpty
  | _ :: rest => .ok { lk with lastNPos := rest }

end RWLock

namespace LockManager

/-- A `P()` on one side while only the other side is counted: flush the other side
of the issuing context and forget all positions. -/
def flushSide (lm : LockManager) (l : LockPtr) (side : SubLock) (ts : Nat) (ctx : Int) :
    Except Abort LockManager := do
  let lm ← lm.printError l side (.sideHeld side.other)
  let (found, lm) ← lm.finishTXN l ts side.other true ctx ctx
  if found then
    let n := (lm.heap l).drainedCount side.other
    let lm ← (if n ≠ 0 then lm.printError l side (.inconsistentCount side.other n) else .ok lm)
    .ok (lm.setLock l ((lm.heap l).drain side.other))
  else
    lm.printError l side .cannotFlush

/-- A `P_WRITE` on a lock whose write side is counted: close the transaction whose
`V()` the trace may have missed. -/
def closeMissed (lm : LockManager) (l : LockPtr) (ts : Nat) (ctx : Int) : Except Abort LockManager := do
  let lm ← lm.printError l .writer .alreadyHeld
  let (found, lm) ← lm.finishTXN l ts .writer false ctx ctx
  if found then
    let lk ← (lm.heap l).popPos
    .ok (lm.setLock l lk)
  else
    .ok lm

/-- The first half of `P_WRITE`. -/
def prepareWrite (lm : LockManager) (l : LockPtr) (ts : Nat) (ctx : Int) : Except Abort LockManager :=
  let lk := lm.heap l
  if lk.writerCount = 0 ∧ lk.readerCount > 0 then lm.flushSide l .writer ts ctx
  else if lk.writerCount > 0 ∧ lk.readerCount = 0 then
    if isRecursive lk.flags then .ok lm else lm.closeMissed l ts ctx
  else if lk.writerCount > 0 ∧ lk.readerCount > 0 then .error .invalidState
  else .ok lm

/-- The first half of `P_READ`. -/
def prepareRead (lm : LockManager) (l : LockPtr) (ts : Nat) (ctx : Int) : Except Abort LockManager :=
  let lk := lm.heap l
  if lk.writerCount = 0 ∧ lk.readerCount > 0 then .ok lm
  else if lk.writerCount > 0 ∧ lk.readerCount = 0 then lm.flushSide l .reader ts ctx
  else if lk.writerCount > 0 ∧ lk.readerCount > 0 then .error .invalidState
  else .ok lm

/-- The second half of a `P()`: count the side, push the position, open a transaction. -/
def acquire (lm : LockManager) (l : LockPtr) (pos : LockPos) (ctx : Int) : LockManager :=
  (lm.setLock l ((lm.heap l).push pos)).startTXN l pos.start pos.subLock ctx

/-- The context whose stack a `V()` works on. -/
def releaseCtx (lm : LockManager) (l : LockPtr) (side : SubLock) (ctx : Int) : Int :=
  if !lm.hasActiveTXN ctx || !lm.isOnTXNStack ctx l side then lm.findTXN l side ctx else ctx

/-- The part of a `V()` that closes a transaction. -/
def releaseTXN (lm : LockManager) (l : LockPtr) (side : SubLock) (ts : Nat) (ctx : Int) :
    Except Abort LockManager := do
  let c := lm.releaseCtx l side ctx
  let lm ← (if c = ctx ∧ !lm.hasActiveTXN ctx then lm.printError l side .noRunningTXN else .ok lm)
  let (found, lm) ← lm.finishTXN l ts side false c ctx
  if found then
    let lk ← (lm.heap l).popPos
    .ok (lm.setLock l lk)
  else
    .ok lm

/-- `V_WRITE` and `V_READ`. -/
def release (lm : LockManager) (l : LockPtr) (side : SubLock) (ts : Nat) (ctx : Int) :
    Except Abort LockManager := do
  let lm ← (if (lm.heap l).lastNPos ≠ [] then lm.releaseTXN l side ts ctx
    else lm.printError l side .noLastPos)
  if (lm.heap l).count side = 0 then lm.printError l side .alreadyReleased
  else .ok (lm.setLock l ((lm.heap l).setCount side ((lm.heap l).count side - 1)))

def updateFlags (lm : LockManager) (l : LockPtr) (flags : Nat) : LockManager :=
  lm.setLock l ((lm.heap l).updateFlags flags)

def writeTransition (lm : LockManager) (l : LockPtr) (e : LockEvent) (kernelDir : String) (ctx : Int) :
    Except Abort LockManager :=
  let lm := lm.updateFlags l e.flags
  match e.op with
  | .pWrite => do
    let lm ← lm.prepareWrite l e.ts ctx
    .ok (lm.acquire l (e.pos kernelDir .writer) ctx)
  | .vWrite => lm.release l .writer e.ts ctx
  | .pRead | .vRead => .error .invalidOp

def readTransition (lm : LockManager) (l : LockPtr) (e : LockEvent) (kernelDir : String) (ctx : Int) :
    Except Abort LockManager :=
  let lm := lm.updateFlags l e.flags
  match e.op with
  | .pWrite | .vWrite => .error .invalidOp
  | .pRead => do
    let lm ← lm.prepareRead l e.ts ctx
    .ok (lm.acquire l (e.pos kernelDir .reader) ctx)
  | .vRead => lm.release l .reader e.ts ctx

/-- The virtual `transition` of the three lock classes. -/
def transition (lm : LockManager) (l : LockPtr) (e : LockEvent) (kernelDir : String) (ctx : Int) :
    Except Abort LockManager :=
  match (lm.heap l).cls with
  | .rwLock =>
    match e.op with
    | .pWrite | .vWrite => lm.writeTransition l e kernelDir ctx
    | .pRead | .vRead => lm.readTransition l e kernelDir ctx
  | .rLock => lm.readTransition l e kernelDir ctx
  | .wLock => lm.writeTransition l e kernelDir ctx

end LockManager

end LockDoc.Convert
