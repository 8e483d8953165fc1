import LockDoc.Convert.Abort

/-!
# The effect of `finishTXN`

What a completed `finishTXN` leaves behind, said of the stacks and of `txns.csv` alone,
and the states in which it completes. The stack comes apart at the topmost entry of the
sub lock; the entries above it come back renewed, the ones below stay as they are.
-/
namespace LockDoc.Convert

open FallibleRun

namespace LockManager

/-- Entries that stand for older ones: the same sub locks under fresh, distinct ids, opened
at the given time and without an access. -/
structure Renewed (lm lm' : LockManager) (ts : Nat) (old new : List TXN) : Prop where
  labels : labels new = labels old
  fresh : ∀ t ∈ new, lm.nextTXNID ≤ t.id ∧ t.id < lm'.nextTXNID
  distinct : (new.map TXN.id).Nodup
  started : ∀ t ∈ new, t.startTs = ts ∧ t.memAccessCounter = 0

/-- One row in `txns.csv` for each of the entries that saw an access, under its own id. -/
def Recorded (lm lm' : LockManager) (ts : Nat) (ctxOld : Int) (closed : List TXN) : Prop :=
  lm'.txnsOFile = lm.txnsOFile ++
    (closed.filter (fun t => 0 < t.memAccessCounter)).map (fun t => ⟨t.id, t.startTs, t.startCtx, ts, ctxOld⟩)

/-- What `finishTXN` is to do, where `x` is the sub lock that is released. -/
structure Unwound (lm : LockManager) (x : LockPtr × SubLock) (ts : Nat) (removeReader : Bool) (ctx ctxOld : Int)
    (found : Bool) (lm' : LockManager) : Prop where
  returned : found = true ↔ x ∈ labels (lm.stack ctx)
  removed : found = true → ∃ above t below renewed, lm.stack ctx = above ++ t :: below ∧ t.label = x ∧
    x ∉ labels above ∧
    lm'.stack ctx = renewed ++ (if removeReader then below.filter (fun u => u.label ≠ (x.1, .reader)) else below) ∧
    Renewed lm lm' ts above renewed ∧ Recorded lm lm' ts ctxOld (above ++ [t])
  missing : found = false → Renewed lm lm' ts (lm.stack ctx) (lm'.stack ctx) ∧
    Recorded lm lm' ts ctxOld (lm.stack ctx)
  others : ∀ c, c ≠ ctx → lm'.stack c = lm.stack c

theorem renewed_restart (lm : LockManager) {lm' : LockManager} (ts : Nat) (ctx : Int) {above : List TXN}
    (hn : lm'.nextTXNID = lm.nextTXNID + above.length) :
    Renewed lm lm' ts above (restart ts ctx lm.nextTXNID above) where
  labels := labels_restart ts ctx _ above
  fresh t ht := by
    obtain ⟨hle, hlt, -⟩ := mem_restart ht
    exact ⟨hle, by rw [hn]; exact hlt⟩
  distinct := nodup_restart ts ctx _ above
  started t ht := ⟨startTs_restart ht, (mem_restart ht).2.2⟩

theorem Finished.unwound {lm lm' : LockManager} {l : LockPtr} {ts : Nat} {side : SubLock} {rr found : Bool}
    {ctx ctxOld : Int} (h : Finished lm l ts side rr ctx ctxOld found lm') :
    Unwound lm (l, side) ts rr ctx ctxOld found lm' := by
  have others : ∀ c, c ≠ ctx → lm'.stack c = lm.stack c := fun c hc => h.stack_other hc
  cases h with
  | found above t below msgs split above_ne label =>
    have hx : (l, side) ∉ labels above := by
      intro hm
      obtain ⟨u, hu, he⟩ := mem_labels.mp hm
      exact above_ne u hu he
    refine ⟨?_, ?_, by simp, others⟩
    · rw [split]
      simp [label]
    · intro _
      refine ⟨above, t, below, _, split, label, hx, ?_, renewed_restart lm ts ctx rfl, rfl⟩
      rw [stack_closed, if_pos rfl]
      rfl
  | missing msgs none =>
    refine ⟨?_, by simp, ?_, others⟩
    · simp only [Bool.false_eq_true, false_iff]
      intro hm
      obtain ⟨u, hu, he⟩ := mem_labels.mp hm
      exact none u hu he
    · intro _
      rw [stack_closed, if_pos rfl, List.append_nil]
      exact ⟨renewed_restart lm ts ctx rfl, rfl⟩

/-- `finishTXN` completes with its effect exactly unless it is to remove the readers and
finds a writer entry of the lock right below the topmost matching one. -/
theorem unwound_iff_not_sweepsOff (lm : LockManager) (lock : LockPtr) (ts : Nat) (side : SubLock) (removeReader : Bool)
    (ctx ctxOld : Int) (hs : ∀ t ∈ lm.stack ctx, (lm.heap t.lock).cls.has t.subLock)
    (hl : (lm.heap lock).cls.has side) :
    (∃ found lm', lm.finishTXN lock ts side removeReader ctx ctxOld = .ok (found, lm') ∧
        Unwound lm (lock, side) ts removeReader ctx ctxOld found lm') ↔
      ¬(removeReader = true ∧ SweepsOff lock side (lm.stack ctx)) := by
  constructor
  · rintro ⟨found, lm', h, -⟩ ⟨rfl, hoff⟩
    rw [finishTXN_endDeref ts ctxOld hs hoff] at h
    cases h
  · intro hno
    obtain ⟨found, lm', h⟩ := finishTXN_completes ts ctxOld hs hl fun hr hoff => hno ⟨hr, hoff⟩
    exact ⟨found, lm', h, (finishTXN_finished h).unwound⟩

end LockManager

open LockManager

/-- A `P_WRITE` on the reader-writer lock with the recursive flag. -/
def recursiveWrite (ts : Nat) : Event :=
  .lockOp ⟨.pWrite, ts, 0x100, "/linux/fs/inode.c", ts, "i_lock", "rwlock_t", lockFlagsRecursive, 0⟩

/-- The lock manager after the lock was taken twice for writing, with an access inside. -/
def takenTwice : LockManager :=
  (((run (step (.trackAll false)) [inodeAlloc, recursiveWrite 2, inodeAccess 3 0, recursiveWrite 4]
    (.init (.trackAll false))).toOption.map State.lockManager).getD .init)

/-- The topmost entry can be closed by itself, and the one below it stays. -/
theorem takenTwice_unwound : ∃ found lm', takenTwice.finishTXN 0 5 .writer false 0 0 = .ok (found, lm') ∧
    Unwound takenTwice (0, .writer) 5 false 0 0 found lm' :=
  (unwound_iff_not_sweepsOff takenTwice 0 5 .writer false 0 0 (by decide +kernel) (by decide +kernel)).mpr (by simp)

/-- Removing the readers as well runs into the second writer entry. -/
theorem takenTwice_not_unwound : takenTwice.finishTXN 0 5 .writer true 0 0 = .error .endDeref ∧
    ¬∃ found lm', takenTwice.finishTXN 0 5 .writer true 0 0 = .ok (found, lm') ∧
      Unwound takenTwice (0, .writer) 5 true 0 0 found lm' := by
  have hend : takenTwice.finishTXN 0 5 .writer true 0 0 = .error .endDeref :=
    finishTXN_endDeref 5 0 (by decide +kernel) (by decide +kernel)
  refine ⟨hend, ?_⟩
  rintro ⟨found, lm', h, -⟩
  rw [hend] at h
  cases h

end LockDoc.Convert
