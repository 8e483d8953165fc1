import LockDoc.Convert.Finish
import LockDoc.Convert.Transition

/-!
# What a lock transition does

Inversion of `transition`: the ways a `P()` can prepare the lock before it is
acquired, the ways a `V()` can release it, and the reasons for which either can
abort. Every invariant of the lock manager is proved by cases on these.
-/
namespace LockDoc.Convert

open FallibleRun (bind_ok)

/-- The side an operation acts on. -/
def LockOp.side : LockOp → SubLock
  | .pRead | .vRead => .reader
  | .pWrite | .vWrite => .writer

/-- `P()` operations. -/
def LockOp.isP : LockOp → Bool
  | .pRead | .pWrite => true
  | .vRead | .vWrite => false

namespace RWLock

/-- The end of a `V()`: take the counter down unless it is zero already. -/
def uncount (lk : RWLock) (side : SubLock) : RWLock :=
  if lk.count side = 0 then lk else lk.setCount side (lk.count side - 1)

@[simp] theorem count_uncount (lk : RWLock) (s : SubLock) :
    (lk.uncount s).count s = if lk.count s = 0 then 0 else lk.count s - 1 := by
  unfold uncount
  split <;> simp_all

theorem count_uncount_nonneg (lk : RWLock) (s : SubLock) (h : 0 ≤ lk.count s) : 0 ≤ (lk.uncount s).count s := by
  rw [count_uncount]
  split <;> omega

@[simp] theorem count_uncount_other (lk : RWLock) (s : SubLock) :
    (lk.uncount s).count s.other = lk.count s.other := by
  unfold uncount
  split <;> simp

@[simp] theorem lastNPos_uncount (lk : RWLock) (s : SubLock) : (lk.uncount s).lastNPos = lk.lastNPos := by
  unfold uncount
  split <;> simp

@[simp] theorem cls_uncount (lk : RWLock) (s : SubLock) : (lk.uncount s).cls = lk.cls := by
  unfold uncount
  split <;> simp

@[simp] theorem idOf_uncount (lk : RWLock) (s t : SubLock) : (lk.uncount s).idOf t = lk.idOf t := by
  unfold uncount
  split <;> simp

end RWLock

namespace LockManager

/-- Only the messages differ. -/
theorem finished_log {lm lm' : LockManager} {m : Msg} {l : LockPtr} {ts : Nat} {side : SubLock}
    {rr found : Bool} {ctx ctxOld : Int} (h : Finished (lm.log m) l ts side rr ctx ctxOld found lm') :
    Finished lm l ts side rr ctx ctxOld found lm' := by
  cases h with
  | found above t below msgs hs ha ht => exact .found above t below msgs hs ha ht
  | missing msgs hn => exact .missing msgs hn

theorem finished_relog {lm lm' : LockManager} {l : LockPtr} {ts : Nat} {side : SubLock}
    {rr found : Bool} {ctx ctxOld : Int} (msgs : List Msg)
    (h : Finished lm l ts side rr ctx ctxOld found lm') :
    Finished lm l ts side rr ctx ctxOld found { lm' with stderr := msgs } := by
  cases h with
  | found above t below _ hs ha ht => exact .found above t below msgs hs ha ht
  | missing _ hn => exact .missing msgs hn

/-- Finishing transactions touches no lock object. -/
theorem Finished.heap_eq {lm lm' : LockManager} {l : LockPtr} {ts : Nat} {side : SubLock}
    {rr found : Bool} {ctx ctxOld : Int} (h : Finished lm l ts side rr ctx ctxOld found lm') :
    lm'.heap = lm.heap := by
  cases h <;> rfl

/-- The first half of a `P()` on `side`, from a manager whose flags are up to date. -/
inductive Prepared (lm : LockManager) (l : LockPtr) (ts : Nat) (ctx : Int) : SubLock → LockManager → Prop
  | plain (side : SubLock)
      (noFlush : ¬((lm.heap l).count side = 0 ∧ 0 < (lm.heap l).count side.other))
      (oneSide : ¬(0 < (lm.heap l).writerCount ∧ 0 < (lm.heap l).readerCount))
      (again : side = .writer → 0 < (lm.heap l).writerCount → (lm.heap l).readerCount = 0 →
        isRecursive (lm.heap l).flags) :
      Prepared lm l ts ctx side lm
  | flushed (side : SubLock) (lm' : LockManager) (msgs : List Msg)
      (zero : (lm.heap l).count side = 0) (pos : 0 < (lm.heap l).count side.other)
      (fin : Finished lm l ts side.other true ctx ctx true lm') :
      Prepared lm l ts ctx side { lm'.setLock l ((lm.heap l).drain side.other) with stderr := msgs }
  | unflushed (side : SubLock) (lm' : LockManager)
      (zero : (lm.heap l).count side = 0) (pos : 0 < (lm.heap l).count side.other)
      (fin : Finished lm l ts side.other true ctx ctx false lm') :
      Prepared lm l ts ctx side lm'
  | reclosed (lm' : LockManager) (p : LockPos) (ps : List LockPos)
      (pos : 0 < (lm.heap l).writerCount) (zero : (lm.heap l).readerCount = 0)
      (once : isRecursive (lm.heap l).flags = false)
      (fin : Finished lm l ts .writer false ctx ctx true lm')
      (top : (lm.heap l).lastNPos = p :: ps) :
      Prepared lm l ts ctx .writer (lm'.setLock l { lm.heap l with lastNPos := ps })
  | unclosed (lm' : LockManager)
      (pos : 0 < (lm.heap l).writerCount) (zero : (lm.heap l).readerCount = 0)
      (once : isRecursive (lm.heap l).flags = false)
      (fin : Finished lm l ts .writer false ctx ctx false lm') :
      Prepared lm l ts ctx .writer lm'

/-- A whole `V()` on `side`, from a manager whose flags are up to date. -/
inductive Released (lm : LockManager) (l : LockPtr) (ts : Nat) (ctx : Int) (side : SubLock) :
    LockManager → Prop
  | closed (lm' : LockManager) (p : LockPos) (ps : List LockPos) (msgs : List Msg)
      (top : (lm.heap l).lastNPos = p :: ps)
      (fin : Finished lm l ts side false (lm.releaseCtx l side ctx) ctx true lm') :
      Released lm l ts ctx side
        { lm'.setLock l (RWLock.uncount { lm.heap l with lastNPos := ps } side) with stderr := msgs }
  | unclosed (lm' : LockManager) (msgs : List Msg) (some : (lm.heap l).lastNPos ≠ [])
      (fin : Finished lm l ts side false (lm.releaseCtx l side ctx) ctx false lm') :
      Released lm l ts ctx side { lm'.setLock l ((lm.heap l).uncount side) with stderr := msgs }
  | empty (msgs : List Msg) (none : (lm.heap l).lastNPos = []) :
      Released lm l ts ctx side { lm.setLock l ((lm.heap l).uncount side) with stderr := msgs }

theorem flushSide_ok {lm lm' : LockManager} {l : LockPtr} {side : SubLock} {ts : Nat} {ctx : Int}
    (zero : (lm.heap l).count side = 0) (pos : 0 < (lm.heap l).count side.other)
    (h : lm.flushSide l side ts ctx = .ok lm') : Prepared lm l ts ctx side lm' := by
  obtain ⟨lm₁, h₁, h⟩ := bind_ok.mp h
  cases printError_ok h₁
  obtain ⟨⟨found, lm₂⟩, h₂, h⟩ := bind_ok.mp h
  have fin := finished_log (finishTXN_finished h₂)
  have hheap := fin.heap_eq
  cases found with
  | true =>
    simp only [if_true] at h
    obtain ⟨lm₃, h₃, h⟩ := bind_ok.mp h
    cases h
    have hm : ∃ msgs, lm₃ = { lm₂ with stderr := msgs } := by
      split at h₃
      · cases printError_ok h₃
        exact ⟨_, rfl⟩
      · cases h₃
        exact ⟨lm₂.stderr, rfl⟩
    obtain ⟨msgs, rfl⟩ := hm
    have hp := Prepared.flushed side lm₂ msgs zero pos fin
    simpa [setLock, hheap] using hp
  | false =>
    simp only [Bool.false_eq_true, if_false] at h
    cases printError_ok h
    exact .unflushed side _ zero pos (finished_relog _ fin)

theorem closeMissed_ok {lm lm' : LockManager} {l : LockPtr} {ts : Nat} {ctx : Int}
    (pos : 0 < (lm.heap l).writerCount) (zero : (lm.heap l).readerCount = 0)
    (once : isRecursive (lm.heap l).flags = false)
    (h : lm.closeMissed l ts ctx = .ok lm') : Prepared lm l ts ctx .writer lm' := by
  obtain ⟨lm₁, h₁, h⟩ := bind_ok.mp h
  cases printError_ok h₁
  obtain ⟨⟨found, lm₂⟩, h₂, h⟩ := bind_ok.mp h
  have fin := finished_log (finishTXN_finished h₂)
  have hheap := fin.heap_eq
  cases found with
  | true =>
    simp only [if_true] at h
    obtain ⟨lk, h₃, h⟩ := bind_ok.mp h
    cases h
    rw [hheap] at h₃
    cases htop : (lm.heap l).lastNPos with
    | nil => simp [RWLock.popPos, htop] at h₃
    | cons p ps =>
      simp only [RWLock.popPos, htop] at h₃
      cases h₃
      exact .reclosed lm₂ p ps pos zero once fin htop
  | false =>
    cases h
    exact .unclosed _ pos zero once fin

theorem prepareWrite_ok {lm lm' : LockManager} {l : LockPtr} {ts : Nat} {ctx : Int}
    (h : lm.prepareWrite l ts ctx = .ok lm') : Prepared lm l ts ctx .writer lm' := by
  simp only [prepareWrite] at h
  split at h
  · rename_i hc
    exact flushSide_ok hc.1 hc.2 h
  · rename_i hf
    split at h
    · rename_i hc
      cases hr : isRecursive (lm.heap l).flags with
      | true =>
        rw [hr] at h
        cases h
        exact .plain .writer hf (by omega) (fun _ _ _ => hr)
      | false =>
        rw [hr] at h
        exact closeMissed_ok hc.1 hc.2 hr h
    · split at h
      · cases h
      · cases h
        refine .plain .writer hf (by omega) ?_
        intro _ hw hz
        omega

theorem prepareRead_ok {lm lm' : LockManager} {l : LockPtr} {ts : Nat} {ctx : Int}
    (h : lm.prepareRead l ts ctx = .ok lm') : Prepared lm l ts ctx .reader lm' := by
  simp only [prepareRead] at h
  split at h
  · rename_i hc
    cases h
    refine .plain .reader ?_ (by omega) (by simp)
    simp only [RWLock.count, SubLock.other]
    omega
  · split at h
    · rename_i hc
      exact flushSide_ok hc.2 hc.1 h
    · rename_i hf
      split at h
      · cases h
      · rename_i ho
        cases h
        refine .plain .reader ?_ ho (by simp)
        simp only [RWLock.count, SubLock.other]
        omega

theorem releaseTXN_ok {lm lm' : LockManager} {l : LockPtr} {side : SubLock} {ts : Nat} {ctx : Int}
    (h : lm.releaseTXN l side ts ctx = .ok lm') :
    (∃ lm₁ p ps, (lm.heap l).lastNPos = p :: ps ∧
      Finished lm l ts side false (lm.releaseCtx l side ctx) ctx true lm₁ ∧
      lm' = lm₁.setLock l { lm.heap l with lastNPos := ps }) ∨
    Finished lm l ts side false (lm.releaseCtx l side ctx) ctx false lm' := by
  obtain ⟨lm₁, h₁, h⟩ := bind_ok.mp h
  obtain ⟨⟨found, lm₂⟩, h₂, h⟩ := bind_ok.mp h
  have fin : Finished lm l ts side false (lm.releaseCtx l side ctx) ctx found lm₂ := by
    split at h₁
    · cases printError_ok h₁
      exact finished_log (finishTXN_finished h₂)
    · cases h₁
      exact finishTXN_finished h₂
  have hheap := fin.heap_eq
  cases found with
  | true =>
    simp only [if_true] at h
    obtain ⟨lk, h₃, h⟩ := bind_ok.mp h
    cases h
    rw [hheap] at h₃
    cases htop : (lm.heap l).lastNPos with
    | nil => simp [RWLock.popPos, htop] at h₃
    | cons p ps =>
      simp only [RWLock.popPos, htop] at h₃
      cases h₃
      exact .inl ⟨lm₂, p, ps, rfl, fin, rfl⟩
  | false =>
    cases h
    exact .inr fin

/-- The end of a `V()`, as one update of the lock object. -/
theorem uncount_ok {lm lm' : LockManager} {l : LockPtr} {side : SubLock}
    (h : (if (lm.heap l).count side = 0 then lm.printError l side .alreadyReleased
      else .ok (lm.setLock l ((lm.heap l).setCount side ((lm.heap l).count side - 1)))) = .ok lm') :
    ∃ msgs, lm' = { lm.setLock l ((lm.heap l).uncount side) with stderr := msgs } := by
  split at h
  · rename_i hz
    cases printError_ok h
    refine ⟨lm.stderr ++ [.alreadyReleased], ?_⟩
    simp only [RWLock.uncount, hz, if_true, setLock, Function.update_eq_self, log]
  · rename_i hz
    cases h
    exact ⟨lm.stderr, by simp only [RWLock.uncount, hz, if_false]; rfl⟩

theorem release_ok {lm lm' : LockManager} {l : LockPtr} {side : SubLock} {ts : Nat} {ctx : Int}
    (h : lm.release l side ts ctx = .ok lm') : Released lm l ts ctx side lm' := by
  obtain ⟨lm₁, h₁, h⟩ := bind_ok.mp h
  obtain ⟨msgs, rfl⟩ := uncount_ok h
  split at h₁
  · rename_i hne
    rcases releaseTXN_ok h₁ with ⟨lm₂, p, ps, htop, fin, rfl⟩ | fin
    · have hr := Released.closed lm₂ p ps msgs htop fin
      simpa [setLock] using hr
    · have hr := Released.unclosed lm₁ msgs hne fin
      rwa [← fin.heap_eq] at hr
  · rename_i hne
    cases printError_ok h₁
    exact .empty msgs (by simpa using hne)

/-- Everything a completed transition can do. -/
theorem transition_ok {lm lm' : LockManager} {l : LockPtr} {e : LockEvent} {kernelDir : String} {ctx : Int}
    (h : lm.transition l e kernelDir ctx = .ok lm') :
    (lm.heap l).cls.has e.op.side ∧
    ((e.op.isP = true ∧ ∃ lm₁, Prepared (lm.updateFlags l e.flags) l e.ts ctx e.op.side lm₁ ∧
        lm' = lm₁.acquire l (e.pos kernelDir e.op.side) ctx) ∨
      (e.op.isP = false ∧ Released (lm.updateFlags l e.flags) l e.ts ctx e.op.side lm')) := by
  have write : ∀ {lm'}, lm.writeTransition l e kernelDir ctx = .ok lm' → e.op.side = .writer ∧
      ((e.op.isP = true ∧ ∃ lm₁, Prepared (lm.updateFlags l e.flags) l e.ts ctx e.op.side lm₁ ∧
        lm' = lm₁.acquire l (e.pos kernelDir e.op.side) ctx) ∨
      (e.op.isP = false ∧ Released (lm.updateFlags l e.flags) l e.ts ctx e.op.side lm')) := by
    intro lm' h
    unfold writeTransition at h
    cases hop : e.op <;> simp only [hop] at h
    · cases h
    · obtain ⟨lm₁, h₁, h⟩ := bind_ok.mp h
      cases h
      exact ⟨rfl, .inl ⟨rfl, lm₁, prepareWrite_ok h₁, rfl⟩⟩
    · cases h
    · exact ⟨rfl, .inr ⟨rfl, release_ok h⟩⟩
  have read : ∀ {lm'}, lm.readTransition l e kernelDir ctx = .ok lm' → e.op.side = .reader ∧
      ((e.op.isP = true ∧ ∃ lm₁, Prepared (lm.updateFlags l e.flags) l e.ts ctx e.op.side lm₁ ∧
        lm' = lm₁.acquire l (e.pos kernelDir e.op.side) ctx) ∨
      (e.op.isP = false ∧ Released (lm.updateFlags l e.flags) l e.ts ctx e.op.side lm')) := by
    intro lm' h
    unfold readTransition at h
    cases hop : e.op <;> simp only [hop] at h
    · obtain ⟨lm₁, h₁, h⟩ := bind_ok.mp h
      cases h
      exact ⟨rfl, .inl ⟨rfl, lm₁, prepareRead_ok h₁, rfl⟩⟩
    · cases h
    · exact ⟨rfl, .inr ⟨rfl, release_ok h⟩⟩
    · cases h
  unfold transition at h
  cases hcls : (lm.heap l).cls with
  | rwLock =>
    simp only [hcls] at h
    refine ⟨by simp [LockClass.has], ?_⟩
    cases hop : e.op <;> simp only [hop] at h
    · simpa [hop] using (read h).2
    · simpa [hop] using (write h).2
    · simpa [hop] using (read h).2
    · simpa [hop] using (write h).2
  | rLock =>
    simp only [hcls] at h
    exact ⟨by simp [LockClass.has, (read h).1], (read h).2⟩
  | wLock =>
    simp only [hcls] at h
    exact ⟨by simp [LockClass.has, (write h).1], (write h).2⟩

end LockManager

end LockDoc.Convert
