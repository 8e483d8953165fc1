import LockDoc.Convert.Single

/-!
# Counters against the stack

In single-context mode the read counter always equals the number of entries. The
write counter does so until a `P_WRITE` meets a lock whose write side is counted:
the missed transaction is closed and its position popped, but not uncounted.
-/
namespace LockDoc.Convert

open FallibleRun

namespace LockManager

/-- Both counters of every lock equal the number of its entries on the stack. -/
structure CountersAgree (lm : LockManager) : Prop where
  writers : ∀ l, (lm.heap l).writerCount = (labels (lm.stack 0)).count (l, .writer)
  readers : ∀ l, (lm.heap l).readerCount = (labels (lm.stack 0)).count (l, .reader)

/-- The invariant of a run in which the write counter has not run ahead. -/
structure Exact (lm : LockManager) : Prop where
  single : lm.Single
  writers : ∀ l, (lm.heap l).writerCount = lm.held (l, .writer)

theorem Exact.countersAgree {lm : LockManager} (h : lm.Exact) : lm.CountersAgree where
  writers l := by rw [h.writers, h.single.held_eq]
  readers l := by rw [(h.single.inStep.sync l).readers, h.single.held_eq]

theorem Single.exact {lm : LockManager} (h : lm.Single) (ha : lm.CountersAgree) : lm.Exact where
  single := h
  writers l := by rw [ha.writers, h.held_eq]

/-- Never both sides of a lock are counted. -/
theorem Exact.oneSide {lm : LockManager} (h : lm.Exact) (l : LockPtr) :
    ¬(0 < (lm.heap l).writerCount ∧ 0 < (lm.heap l).readerCount) := by
  have := h.single.oneSide l
  have := h.writers l
  have := (h.single.inStep.sync l).readers
  omega

theorem Kept.exact {lm lm' : LockManager} (hk : Kept lm lm') (hw : lm'.WellFormed) (h : lm.Exact) : lm'.Exact where
  single := hk.single hw h.single
  writers l := by rw [hk.held, ← h.writers]; exact hk.count l .writer

/-- A `P()` that is no doubled `P_WRITE` is prepared without losing count. -/
theorem Exact.prepared {lm lm₁ : LockManager} {l : LockPtr} {ts : Nat} {side : SubLock} (h : lm.Exact)
    (hw : side = .writer → (lm.heap l).writerCount = 0) (hp : Prepared lm l ts 0 side lm₁) :
    (lm₁.heap l).writerCount = lm₁.held (l, .writer) := by
  have hwr := h.writers l
  cases hp with
  | plain => exact hwr
  | flushed _ lm₂ msgs zero pos fin =>
    have hz := ((h.single.inStep.sync l).flushed zero fin (h.single.onlyIn l) .writer).1
    simp only [heap_setLock, if_true, held_stderr, held_setLock, hz]
    cases side with
    | reader => simp [RWLock.drain, RWLock.setCount, SubLock.other]
    | writer => simpa [RWLock.drain, RWLock.setCount, SubLock.other] using hw rfl
  | unflushed _ _ zero pos fin =>
    have := fin.held (l, .writer)
    rw [fin.labels_missing] at this
    rw [fin.heap_eq]
    omega
  | reclosed lm₂ p ps pos zero once fin top =>
    have := hw rfl
    omega
  | unclosed _ pos zero once fin =>
    have := hw rfl
    omega

theorem Exact.acquire {lm : LockManager} {l : LockPtr} (h : (lm.heap l).writerCount = lm.held (l, .writer))
    (pos : LockPos) (ctx : Int) :
    ((lm.acquire l pos ctx).heap l).writerCount = (lm.acquire l pos ctx).held (l, .writer) := by
  have hheap : (lm.acquire l pos ctx).heap l = (lm.heap l).push pos := by
    simp [LockManager.acquire, startTXN, setStack]
  rw [hheap, held_acquire]
  cases hside : pos.subLock <;> simp [RWLock.push, RWLock.setCount, RWLock.count, hside, h]

theorem Exact.released {lm lm' : LockManager} {l : LockPtr} {ts : Nat} {side : SubLock} (h : lm.Exact)
    (hr : Released lm l ts 0 side lm') : (lm'.heap l).writerCount = lm'.held (l, .writer) := by
  have hs := h.single.inStep.sync l
  have hwr := h.writers l
  cases hr with
  | closed lm₁ p ps msgs top fin =>
    have hcl := fin.held_closed (l, .writer)
    simp only [heap_setLock, if_true, held_setLock, held_stderr]
    cases side with
    | reader =>
      have := RWLock.count_uncount_other { lm.heap l with lastNPos := ps } .reader
      simp only [RWLock.count, SubLock.other] at this
      simp only [reduceCtorEq, Prod.mk.injEq, and_false, if_false] at hcl
      omega
    | writer =>
      simp only [if_true] at hcl
      have hne : (lm.heap l).writerCount ≠ 0 := by omega
      simp only [RWLock.uncount, RWLock.count, hne, RWLock.setCount, if_false]
      omega
  | unclosed lm₁ msgs some fin =>
    have hz : lm.held (l, side) = 0 := by
      rw [held_eq_zero]
      intro c hc
      exact fin.not_mem_of_missing (releaseCtx_mem 0 hc)
    have hheld := fin.held (l, .writer)
    rw [fin.labels_missing] at hheld
    simp only [heap_setLock, if_true, held_setLock, held_stderr]
    cases side with
    | reader =>
      have := RWLock.count_uncount_other (lm.heap l) .reader
      simp only [RWLock.count, SubLock.other] at this
      omega
    | writer =>
      have h0 : (lm.heap l).writerCount = 0 := by omega
      simp only [RWLock.uncount, RWLock.count, h0, if_true]
      omega
  | empty msgs none =>
    have hp := hs.positions
    rw [none, List.length_nil] at hp
    simp only [heap_setLock, if_true, held_setLock, held_stderr]
    cases side with
    | reader =>
      have := RWLock.count_uncount_other (lm.heap l) .reader
      simp only [RWLock.count, SubLock.other] at this
      omega
    | writer =>
      have h0 : (lm.heap l).writerCount = 0 := by omega
      simp only [RWLock.uncount, RWLock.count, h0, if_true]
      omega

theorem Exact.transition {lm lm' : LockManager} {l : LockPtr} {e : LockEvent} {kernelDir : String}
    (h : lm.Exact) (hl : l < lm.objects) (hr : isRecursive e.flags = false)
    (hw : e.op = .pWrite → (lm.heap l).writerCount = 0)
    (ht : lm.transition l e kernelDir 0 = .ok lm') : lm'.Exact := by
  refine ⟨h.single.transition hl hr ht, ?_⟩
  intro k
  by_cases hk : k = l
  · subst hk
    have hu := kept_updateFlags lm k e.flags
    have h₀ : (lm.updateFlags k e.flags).Exact := hu.exact
      (hu.wellFormed h.single.inStep.wellFormed (by exact h.single.inStep.wellFormed.registered)) h
    obtain ⟨-, ⟨hP, lm₁, hp, rfl⟩ | ⟨-, hrel⟩⟩ := transition_ok ht
    · refine Exact.acquire (h₀.prepared ?_ hp) _ 0
      intro hside
      have hop : e.op = .pWrite := by cases hop : e.op <;> simp_all [LockOp.side, LockOp.isP]
      exact (hu.count k .writer).trans (hw hop)
    · exact h₀.released hrel
  · rw [(transition_framed ht).heap k hk, (transition_other ht (x := (k, .writer)) hk).1]
    exact h.writers k

/-- A doubled `P_WRITE` counts the write side once more than it opens transactions. -/
theorem Exact.doubled {lm lm' : LockManager} {l : LockPtr} {e : LockEvent} {kernelDir : String}
    (h : lm.Exact) (hr : isRecursive e.flags = false) (hop : e.op = .pWrite)
    (hw : (lm.heap l).writerCount ≠ 0) (ht : lm.transition l e kernelDir 0 = .ok lm') :
    (lm'.heap l).writerCount ≠ lm'.held (l, .writer) := by
  have hu := kept_updateFlags lm l e.flags
  have h₀ : (lm.updateFlags l e.flags).Exact := hu.exact
    (hu.wellFormed h.single.inStep.wellFormed (by exact h.single.inStep.wellFormed.registered)) h
  have hw₀ : ((lm.updateFlags l e.flags).heap l).writerCount ≠ 0 := fun h0 => hw ((hu.count l .writer).symm.trans h0)
  have hflags : isRecursive ((lm.updateFlags l e.flags).heap l).flags = false := by
    simpa [updateFlags, RWLock.updateFlags] using hr
  obtain ⟨-, ⟨hP, lm₁, hp, rfl⟩ | ⟨hV, -⟩⟩ := transition_ok ht
  · rw [hop] at hp
    generalize lm.updateFlags l e.flags = lm₀ at h₀ hw₀ hflags hp
    have hwr := h₀.writers l
    have hpos : 0 < lm₀.held (l, .writer) := by omega
    have hmem : (l, SubLock.writer) ∈ labels (lm₀.stack 0) := by
      rw [h₀.single.held_eq] at hpos
      exact List.count_pos_iff.mp hpos
    have hheap : (lm₁.acquire l (e.pos kernelDir e.op.side) 0).heap l =
        (lm₁.heap l).push (e.pos kernelDir e.op.side) := by
      simp [LockManager.acquire, startTXN, setStack]
    rw [hheap, held_acquire]
    simp only [hop, LockOp.side, LockEvent.pos, RWLock.push, RWLock.setCount, RWLock.count, if_true]
    -- Only the missed transaction can be closed here: the stack has it, and nobody reads.
    have hone := h₀.oneSide l
    cases hp with
    | plain _ noFlush oneSide again =>
      have hR := (h₀.single.inStep.sync l).readers
      rw [again rfl (by omega) (by omega)] at hflags
      cases hflags
    | flushed _ lm₂ msgs zero pos fin => exact absurd zero hw₀
    | unflushed _ _ zero pos fin => exact absurd zero hw₀
    | reclosed lm₂ p ps pos zero once fin top =>
      have hcl := fin.held_closed (l, .writer)
      simp only [if_true] at hcl
      simp only [heap_setLock, if_true, held_setLock]
      omega
    | unclosed _ pos zero once fin => exact absurd hmem fin.not_mem_of_missing
  · rw [hop] at hV
    cases hV

end LockManager

/-- A `P_WRITE` finds the write counter of its lock at zero. -/
def WriteNotCounted (cfg : Config) (σ : State) (e : Event) : Prop :=
  ∀ ev l, ActsOn cfg σ e ev l → ev.op = .pWrite → (σ.lockManager.heap l).writerCount = 0

open LockManager in
/-- From exact counters, an iteration leads to agreeing ones exactly when it is no
`P_WRITE` on a lock that is counted as written. -/
theorem step_countersAgree_iff {cfg : Config} (hc : cfg.ctxTracing = false) {σ σ' : State} {e : Event}
    (hI : σ.lockManager.Exact) (hr : e.recursive = false) (h : step cfg σ e = .ok σ') :
    (σ'.lockManager.CountersAgree ↔ WriteNotCounted cfg σ e) ∧
      (WriteNotCounted cfg σ e → σ'.lockManager.Exact) := by
  have hsingle := step_single hc hI.single hr h
  have hmv := step_moved hI.single.inStep.wellFormed h
  have hwf := hmv.wellFormed hI.single.inStep.wellFormed
  have back : WriteNotCounted cfg σ e → σ'.lockManager.Exact := by
    intro hw
    cases hmv with
    | kept _ _ hk _ _ _ => exact hk.exact hwf hI
    | acted ev l lm₁ _ hk hm hw₁ hlt hs hreg ht =>
      rw [Config.ctxOf_single hc] at ht
      refine (hk.exact hw₁ hI).transition hlt hr ?_ ht
      intro hop
      refine (hk.count l .writer).trans ?_
      rcases hreg with hreg | ⟨rfl, -, -⟩
      · exact hw ev l ⟨rfl, hs, hreg⟩ hop
      · exact (hI.single.inStep.wellFormed.fresh _ (Nat.le_refl _)).1 .writer
  refine ⟨⟨?_, fun hw => (back hw).countersAgree⟩, back⟩
  intro ha ev l hact hop
  by_contra hne
  cases hmv with
  | kept _ _ hk _ _ idle =>
    have := (idle ev hact.event hact.kept).symm.trans hact.lock
    cases this
  | acted ev' l' lm₁ _ hk hm hw₁ hlt hs hreg ht =>
    cases hact.event
    have hll : l' = l := by
      rcases hreg with hreg | ⟨-, hnone, -⟩
      · exact Option.some.inj (hreg.symm.trans hact.lock)
      · have := hnone.symm.trans hact.lock
        cases this
    subst hll
    rw [Config.ctxOf_single hc] at ht
    refine (hk.exact hw₁ hI).doubled hr hop ?_ ht ?_
    · exact fun h0 => hne ((hk.count l' .writer).symm.trans h0)
    · exact (hsingle.exact ha).writers l'

theorem init_exact : LockManager.init.Exact where
  single := LockManager.init_single
  writers l := by
    rw [LockManager.init_held]
    rfl

/-- The counters agree with the stack throughout a run, and it does not end in an
invalid state, exactly when no `P_WRITE` meets a lock that is counted as written. -/
theorem counters_agree_iff (cfg : Config) (hc : cfg.ctxTracing = false) (trace : List Event)
    (hr : ∀ e ∈ trace, e.recursive = false) :
    (Throughout (step cfg) (fun σ => σ.lockManager.CountersAgree) trace (.init cfg) ∧
        run (step cfg) trace (.init cfg) ≠ .error .invalidState) ↔
      Along (step cfg) (Completed (step cfg) (WriteNotCounted cfg)) trace (.init cfg) := by
  have hiff : Throughout (step cfg) (fun σ => σ.lockManager.CountersAgree) trace (.init cfg) ↔
      Along (step cfg) (Completed (step cfg) (WriteNotCounted cfg)) trace (.init cfg) :=
    throughout_iff_along (I := fun σ => σ.lockManager.Exact) (E := fun e => e.recursive = false)
      (fun _ h => h.countersAgree) (fun _ _ _ hI he hst => step_countersAgree_iff hc hI he hst) hr init_exact
  refine ⟨fun h => hiff.mp h.1, fun h => ⟨hiff.mpr h, ?_⟩⟩
  intro herr
  obtain ⟨pre, e, post, σ, rfl, hpre, hstep⟩ := run_error herr
  have hsingle : σ.lockManager.Single := by
    refine run_invariant (C := fun _ e => e.recursive = false) (I := fun σ => σ.lockManager.Single)
      (fun _ _ _ hI he hst => step_single hc hI he hst) ?_ LockManager.init_single hpre
    intro p f q hf _ _
    exact hr f (by simp [hf])
  have hexact := hsingle.exact (hiff.mpr h pre (e :: post) rfl σ hpre)
  rcases step_error hexact.single.inStep.wellFormed hstep with hb | ⟨ev, l, lm, -, hk, hf⟩
  · simp at hb
  · cases hf with
    | invalidState hw hrd =>
      exact hexact.oneSide l ⟨lt_of_lt_of_eq hw (hk.count l .writer), lt_of_lt_of_eq hrd (hk.count l .reader)⟩

/-- A writer, then two readers, each properly released. -/
def writerThenReaders : List Event :=
  [rwlockOp .pWrite 1 0, rwlockOp .vWrite 2 0, rwlockOp .pRead 3 0, rwlockOp .pRead 4 0]

theorem writerThenReaders_agree :
    (Throughout (step (.trackAll false)) (fun σ => σ.lockManager.CountersAgree) writerThenReaders
        (.init (.trackAll false)) ∧
        run (step (.trackAll false)) writerThenReaders (.init (.trackAll false)) ≠ .error .invalidState) ↔
      Along (step (.trackAll false)) (Completed (step (.trackAll false)) (WriteNotCounted (.trackAll false)))
        writerThenReaders (.init (.trackAll false)) :=
  counters_agree_iff (.trackAll false) rfl writerThenReaders (by decide)

/-- A doubled `P_WRITE`, one release, and two readers. -/
def doubledWriter : List Event :=
  [rwlockOp .pWrite 1 0, rwlockOp .pWrite 2 0, rwlockOp .vWrite 3 0, rwlockOp .pRead 4 0, rwlockOp .pRead 5 0]

/-- The write counter stays above the stack after the second event, and the run ends
with the exception. -/
theorem doubledWriter_disagrees : (∀ e ∈ doubledWriter, e.recursive = false) ∧
    ¬Throughout (step (.trackAll false)) (fun σ => σ.lockManager.CountersAgree) doubledWriter
      (.init (.trackAll false)) ∧
    run (step (.trackAll false)) doubledWriter (.init (.trackAll false)) = .error .invalidState := by
  refine ⟨by decide, fun h => ?_, rfl⟩
  have hrun : ∃ σ, run (step (.trackAll false)) (doubledWriter.take 2) (.init (.trackAll false)) = .ok σ ∧
      (σ.lockManager.heap 0).writerCount = 2 ∧
      (labels (σ.lockManager.stack 0)).count (0, .writer) = 1 := ⟨_, rfl, by decide +kernel, by decide +kernel⟩
  obtain ⟨σ, hσ, hw, hn⟩ := hrun
  have := (h (doubledWriter.take 2) (doubledWriter.drop 2) (by simp) σ hσ).writers 0
  omega

end LockDoc.Convert
