import LockDoc.Convert.Count
import LockDoc.Convert.Main

/-!
# One iteration of the main loop

Inversion of `step`. The pending accesses are attributed first, then the event is
dispatched; only a lock operation on a resolved lock reaches `transition`, and
everything else leaves the lock objects and the labels of the stacks alone.
-/
namespace LockDoc.Convert

open FallibleRun (bind_ok)

/-- The two internal-error branches of `finishTXN`. -/
def Msg.internal (m : Msg) : Prop := m = .stackUnderflow ∨ m = .notHeld

/-- Messages that are no internal errors were added, and nothing else happened. -/
def LockManager.Chatter (lm lm' : LockManager) : Prop :=
  ∃ ms, (∀ m ∈ ms, ¬m.internal) ∧ lm' = { lm with stderr := lm.stderr ++ ms }

theorem LockManager.chatter_refl (lm : LockManager) : lm.Chatter lm := ⟨[], by simp, by simp⟩

theorem LockManager.chatter_log (lm : LockManager) (m : Msg) (h : ¬m.internal) : lm.Chatter (lm.log m) :=
  ⟨[m], by simpa using h, rfl⟩

/-- A handler that touches no transaction, no lock and no access. -/
structure Quiet (σ σ' : State) : Prop where
  access : σ'.accessOFile = σ.accessOFile
  pending : σ'.lastMemAccesses = σ.lastMemAccesses
  nextId : σ'.curAccessID = σ.curAccessID
  lm : σ.lockManager.Chatter σ'.lockManager

/-- The lock manager after `allocLock` on a free address. -/
def LockManager.allocated (lm : LockManager) (cls : LockClass) (address allocID : Nat)
    (lockType lockVarName : String) (flags : Nat) : LockManager :=
  let blank : RWLock := ⟨cls, 0, 0, address, flags, 0, 0, allocID, lockType, lockVarName, []⟩
  { lm.setLock lm.objects (blank.initIDs lm.nextLockID).1 with
    nextLockID := (blank.initIDs lm.nextLockID).2
    objects := lm.objects + 1
    locks := lm.locks.insert address lm.objects }

theorem LockManager.allocLock_ok {lm lm' : LockManager} {address allocID : Nat} {lockType name : String}
    {flags : Nat} {l : LockPtr} (h : lm.allocLock address allocID lockType name flags = .ok (l, lm')) :
    ∃ cls, lockClassOf lockType = some cls ∧ l = lm.objects ∧
      lm' = lm.allocated cls address allocID lockType name flags := by
  unfold allocLock at h
  cases hc : lockClassOf lockType with
  | none => simp [hc] at h
  | some cls =>
    simp only [hc] at h
    split at h
    · cases h
    · cases h
      exact ⟨cls, rfl, rfl, rfl⟩

/-- A lock operation found its lock, or created it. -/
inductive Resolved (cfg : Config) (σ : State) (e : LockEvent) : LockPtr → State → Prop
  | known (l : LockPtr) (hl : σ.lockManager.locks[e.address]? = some l) : Resolved cfg σ e l σ
  | fresh (cls : LockClass) (allocID : Nat) (name : String) (hl : σ.lockManager.locks[e.address]? = none)
      (isP : e.op.isP = true) (hc : LockManager.lockClassOf e.lockType = some cls)
      (rows : List LockRow) :
      Resolved cfg σ e σ.lockManager.objects
        { σ with
          lockManager := σ.lockManager.allocated cls e.address allocID e.lockType name e.flags
          locksOFile := rows }

theorem resolveLock_some {cfg : Config} {σ σ' : State} {e : LockEvent} {l : LockPtr}
    (h : resolveLock cfg σ e = .ok (some l, σ')) : Resolved cfg σ e l σ' := by
  unfold resolveLock LockManager.findLock at h
  cases hf : σ.lockManager.locks[e.address]? with
  | some k =>
    simp only [hf, Except.ok.injEq, Prod.mk.injEq, Option.some.injEq] at h
    obtain ⟨rfl, rfl⟩ := h
    exact .known k hf
  | none =>
    simp only [hf] at h
    split at h
    · cases h
    · split at h
      · cases h
      · rename_i hv
        obtain ⟨⟨k, lm⟩, h₁, h⟩ := bind_ok.mp h
        simp only [Except.ok.injEq, Prod.mk.injEq, Option.some.injEq] at h
        obtain ⟨rfl, rfl⟩ := h
        obtain ⟨cls, hc, rfl, rfl⟩ := LockManager.allocLock_ok h₁
        refine .fresh cls _ _ hf ?_ hc _
        cases hop : e.op <;> simp_all [LockOp.isP]

theorem resolveLock_none {cfg : Config} {σ σ' : State} {e : LockEvent}
    (h : resolveLock cfg σ e = .ok (none, σ')) : Quiet σ σ' ∧ σ.lockManager.locks[e.address]? = none := by
  unfold resolveLock at h
  split at h
  · cases h
  · rename_i hf
    refine ⟨?_, hf⟩
    split at h
    · cases h
      exact ⟨rfl, rfl, rfl, LockManager.chatter_refl _⟩
    · split at h
      · cases h
        exact ⟨rfl, rfl, rfl, LockManager.chatter_log _ _ (by simp [Msg.internal])⟩
      · obtain ⟨⟨k, lm⟩, h₁, h⟩ := bind_ok.mp h
        cases h

/-- Everything the second `switch` of the main loop can do. -/
inductive Handled (cfg : Config) (σ : State) : Event → State → Prop
  | quiet (e : Event) (σ' : State) (hq : Quiet σ σ')
      (idle : ∀ ev, e = .lockOp ev → σ.lockManager.locks[ev.address]? = none ∧
        ∃ σ₁, resolveLock cfg σ ev = .ok (none, σ₁))
      (unknown : ∀ ev, e = .access ev → σ.activeAllocs[ev.baseAddress]? = none) : Handled cfg σ e σ'
  | freed (ts base size : Nat) (a : Allocation) (rows : List AllocRow)
      (ha : σ.activeAllocs[base]? = some a) :
      Handled cfg σ (.free ts base size)
        { σ with
          allocOFile := rows
          lockManager := σ.lockManager.deleteLockByArea base (toU64 a.size)
          activeAllocs := σ.activeAllocs.erase base }
  | buffered (e : AccessEvent) (a : Allocation) (trace next : Nat) (traces : List ((Nat × String) × Nat))
      (ha : σ.activeAllocs[e.baseAddress]? = some a) (hin : outsideAllocation e a = false) :
      Handled cfg σ (.access e)
        { σ with
          stacktraces := traces
          curStacktraceID := next
          lastMemAccesses := σ.lastMemAccesses ++
            [⟨σ.curAccessID, e.ts, a.id, e.kind, toInt e.size, e.address, trace, e.ctx⟩]
          curAccessID := σ.curAccessID + 1 }
  | acted (e : LockEvent) (l : LockPtr) (σ₁ : State) (lm : LockManager)
      (hres : resolveLock cfg σ e = .ok (some l, σ₁)) (hr : Resolved cfg σ e l σ₁)
      (ht : σ₁.lockManager.transition l e cfg.kernelBaseDir (cfg.ctxOf e.ctx) = .ok lm) :
      Handled cfg σ (.lockOp e) { σ₁ with lockManager := lm }

theorem findSubclass_ok {cfg : Config} {σ σ' : State} {typeStr : String} {i : Option Nat}
    (h : findSubclass cfg σ typeStr = .ok (i, σ')) : Quiet σ σ' := by
  unfold findSubclass at h
  simp only at h
  split at h
  · cases h
    exact ⟨rfl, rfl, rfl, LockManager.chatter_refl _⟩
  · split at h
    · cases h
      exact ⟨rfl, rfl, rfl, LockManager.chatter_log _ _ (by simp [Msg.internal])⟩
    · split at h
      · cases h
      · cases h
        exact ⟨rfl, rfl, rfl, LockManager.chatter_refl _⟩

theorem handleAlloc_ok {cfg : Config} {σ σ' : State} {ts base size : Nat} {typeStr : String}
    (h : handleAlloc cfg σ ts base size typeStr = .ok σ') : Quiet σ σ' := by
  unfold handleAlloc at h
  split at h
  · cases h
    exact ⟨rfl, rfl, rfl, LockManager.chatter_log _ _ (by simp [Msg.internal])⟩
  · obtain ⟨⟨i, σ₁⟩, h₁, h⟩ := bind_ok.mp h
    have hq := findSubclass_ok h₁
    cases i with
    | none =>
      cases h
      exact hq
    | some i =>
      cases h
      exact ⟨hq.access, hq.pending, hq.nextId, hq.lm⟩

/-- A stack trace gets an old or a new id. -/
theorem addStacktrace_eq (σ : State) (instrPtr : Nat) (stacktrace : String) :
    ∃ trace traces next, addStacktrace σ instrPtr stacktrace =
      (trace, { σ with stacktraces := traces, curStacktraceID := next }) := by
  unfold addStacktrace
  generalize (instrPtr, if ',' ∈ stacktrace.toList then String.ofList stacktrace.toList.dropLast
    else stacktrace) = key
  dsimp only
  cases σ.stacktraces.lookup key with
  | some i => exact ⟨_, _, _, rfl⟩
  | none => exact ⟨_, _, _, rfl⟩

theorem handleAccess_ok {cfg : Config} {σ σ' : State} {e : AccessEvent}
    (h : handleAccess σ e = .ok σ') : Handled cfg σ (.access e) σ' := by
  unfold handleAccess at h
  split at h
  · rename_i ha
    cases h
    refine .quiet _ _ ⟨rfl, rfl, rfl, LockManager.chatter_log _ _ (by simp [Msg.internal])⟩ (by simp) ?_
    rintro ev hev
    cases hev
    exact ha
  · rename_i a ha
    split at h
    · cases h
    · rename_i ho
      obtain ⟨trace, traces, next, hst⟩ := addStacktrace_eq σ e.instrPtr e.stacktrace
      simp only [hst] at h
      cases h
      exact .buffered e a trace next traces ha (by simpa using ho)

theorem dispatch_ok {cfg : Config} {σ σ' : State} {e : Event} (h : dispatch cfg σ e = .ok σ') :
    Handled cfg σ e σ' := by
  cases e with
  | alloc ts base size typeStr => exact .quiet _ _ (handleAlloc_ok h) (by simp) (by simp)
  | free ts base size =>
    cases h
    unfold handleFree
    split
    · exact .quiet _ _ ⟨rfl, rfl, rfl, LockManager.chatter_log _ _ (by simp [Msg.internal])⟩ (by simp) (by simp)
    · rename_i a ha
      exact .freed ts base size a _ ha
  | lockOp e =>
    obtain ⟨⟨lock, σ₁⟩, h₁, h⟩ := bind_ok.mp h
    cases lock with
    | none =>
      cases h
      obtain ⟨hq, hf⟩ := resolveLock_none h₁
      refine .quiet _ _ hq ?_ (by simp)
      rintro ev he
      cases he
      exact ⟨hf, _, h₁⟩
    | some l =>
      obtain ⟨lm, h₂, h⟩ := bind_ok.mp h
      cases h
      exact .acted e l σ₁ lm h₁ (resolveLock_some h₁) h₂
  | access e => exact handleAccess_ok h
  | other ts c =>
    cases h
    exact .quiet _ _ ⟨rfl, rfl, rfl, LockManager.chatter_log _ _ (by simp [Msg.internal])⟩ (by simp) (by simp)

/-- The event is dropped by the seqlock filter. -/
def Config.skips (cfg : Config) (e : Event) : Bool := !cfg.processSeqlock && e.isSeqlock

/-- The state in which an event is dispatched. -/
def attributed (cfg : Config) (σ : State) (e : Event) : State :=
  writeMemAccesses cfg e.action e.address { σ with ts := e.ts }

theorem step_ok {cfg : Config} {σ σ' : State} {e : Event} (h : step cfg σ e = .ok σ') :
    (cfg.skips e = true ∧ σ' = { σ with ts := e.ts }) ∨
      (cfg.skips e = false ∧ Handled cfg (attributed cfg σ e) e σ') := by
  unfold step at h
  by_cases hs : !cfg.processSeqlock && e.isSeqlock
  · rw [if_pos hs] at h
    cases h
    exact .inl ⟨hs, rfl⟩
  · rw [if_neg hs] at h
    exact .inr ⟨by simpa [Config.skips] using hs, dispatch_ok h⟩

end LockDoc.Convert
