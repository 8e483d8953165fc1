import LockDoc.Convert.Single
import LockDoc.Convert.Unwind

/-!
# Recursive locks in single-context mode

A recursive lock can have several writer entries on the stack. A flush removes only the
topmost one of them and still forgets all positions of the lock. As long as no flush
meets two writer entries, positions and entries agree in number, so that no position is
popped that is not there, and the sweep never ends on a writer entry.
-/
namespace LockDoc.Convert

open FallibleRun

/-- A `P_READ` that flushes the write side of its lock finds at most one writer entry of it. -/
def FlushesOneWriter (cfg : Config) (σ : State) : Event → Prop
  | .lockOp ev => cfg.skips (.lockOp ev) = false → ev.op = .pRead → ∀ l ∈ σ.lockManager.findLock ev.address,
      (σ.lockManager.heap l).readerCount = 0 → 0 < (σ.lockManager.heap l).writerCount →
        (labels (σ.lockManager.stack (cfg.ctxOf ev.ctx))).count (l, .writer) ≤ 1
  | _ => True

instance (cfg : Config) (σ : State) (e : Event) : Decidable (FlushesOneWriter cfg σ e) :=
  match e with
  | .lockOp _ => inferInstanceAs (Decidable (_ → _ → ∀ l ∈ _, _ → _ → _ ≤ 1))
  | .alloc .. | .free .. | .access _ | .other .. => inferInstanceAs (Decidable True)

namespace LockManager

/-- What single-context mode keeps, with recursive locks or without, while no flush meets
two writer entries. -/
structure Level (lm : LockManager) : Prop where
  wellFormed : lm.WellFormed
  balanced : ∀ l, lm.BalancedAt l
  others : ∀ c, c ≠ 0 → labels (lm.stack c) = []

theorem Level.held_eq {lm : LockManager} (h : lm.Level) (x : LockPtr × SubLock) :
    lm.held x = (labels (lm.stack 0)).count x := by
  apply held_eq_count
  intro d hd
  rw [h.others d hd]
  simp

theorem Kept.level {lm lm' : LockManager} (hk : Kept lm lm') (hw : lm'.WellFormed) (h : lm.Level) : lm'.Level where
  wellFormed := hw
  balanced l := hk.balancedAt (h.balanced l)
  others c hc := by rw [hk.labels, h.others c hc]

/-- A flush that meets at most one writer entry leaves none of the lock. -/
theorem Level.flushed {lm lm₁ : LockManager} {l : LockPtr} {ts : Nat} {side : SubLock} (h : lm.Level)
    (hone : (labels (lm.stack 0)).count (l, .writer) ≤ 1) (zero : (lm.heap l).count side = 0)
    (fin : Finished lm l ts side.other true 0 0 true lm₁) (s : SubLock) : lm₁.held (l, s) = 0 := by
  have hside : ∀ x ∈ labels (lm.stack 0), x.1 = l → x.2 = side.other := by
    rintro ⟨k, t⟩ hx rfl
    have hz := (held_eq_zero lm _).mp ((h.balanced k).held_of_count zero) 0
    cases t <;> cases side <;> simp_all [SubLock.other]
  rw [held_eq_zero]
  intro c
  by_cases hc : c = 0
  · rw [hc, fin.labels_flushed hside hone]
    simp
  · rw [fin.stack_other hc, h.others c hc]
    simp

/-- The condition on a transition: a flush by a `P_READ` meets at most one writer entry. -/
def OneWriter (lm : LockManager) (l : LockPtr) (e : LockEvent) : Prop :=
  e.op = .pRead → (lm.heap l).readerCount = 0 → 0 < (lm.heap l).writerCount →
    (labels (lm.stack 0)).count (l, .writer) ≤ 1

theorem Level.oneWriter {lm : LockManager} {l : LockPtr} {e : LockEvent} (h : lm.Level) (hone : lm.OneWriter l e)
    (hP : e.op.isP = true) (zero : (lm.heap l).count e.op.side = 0) (pos : 0 < (lm.heap l).count e.op.side.other) :
    (labels (lm.stack 0)).count (l, .writer) ≤ 1 := by
  cases hop : e.op with
  | pRead =>
    rw [hop] at zero pos
    exact hone hop zero pos
  | pWrite =>
    rw [hop] at zero
    have := (h.balanced l).held_of_count zero
    have := h.held_eq (l, .writer)
    simp only [LockOp.side] at *
    omega
  | vRead => simp [hop, LockOp.isP] at hP
  | vWrite => simp [hop, LockOp.isP] at hP

theorem Kept.oneWriter {lm lm' : LockManager} {l : LockPtr} {e : LockEvent} (hk : Kept lm lm') (h : lm.OneWriter l e) :
    lm'.OneWriter l e := by
  intro hop hz hp
  have hR := hk.count l .reader
  have hW := hk.count l .writer
  simp only [RWLock.count] at hR hW
  rw [hk.labels]
  exact h hop (by omega) (by omega)

theorem Level.transition {lm lm' : LockManager} {l : LockPtr} {e : LockEvent} {kernelDir : String} (h : lm.Level)
    (hl : l < lm.objects) (hone : lm.OneWriter l e) (ht : lm.transition l e kernelDir 0 = .ok lm') : lm'.Level := by
  have hu := kept_updateFlags lm l e.flags
  have h₀ : (lm.updateFlags l e.flags).Level := hu.level (hu.wellFormed h.wellFormed
    (by exact h.wellFormed.registered)) h
  refine ⟨h.wellFormed.transition hl ht, ?_, ?_⟩
  · intro k
    by_cases hk : k = l
    · subst hk
      obtain ⟨-, ⟨hP, lm₁, hp, rfl⟩ | ⟨-, hr⟩⟩ := transition_ok ht
      · refine ((h₀.balanced k).prepared hp ?_).acquire _
        intro lm₂ zero pos fin
        exact h₀.flushed (h₀.oneWriter (hu.oneWriter hone) hP zero pos) zero fin
      · exact (h₀.balanced k).released hr
    · exact (h.balanced k).transition_other hk ht
  · intro c hc
    have := transition_others ht hc
    rw [h.others c hc] at this
    exact List.sublist_nil.mp this

theorem nextBelow_mem {x : LockPtr × SubLock} {s : List TXN} {u : TXN} (h : nextBelow x s = some u) :
    [x, u.label].Sublist (labels s) := by
  induction s with
  | nil => cases h
  | cons t below ih =>
    simp only [nextBelow] at h
    split at h
    · rename_i ht
      rw [labels_cons, ht]
      refine List.Sublist.cons_cons x (List.singleton_sublist.mpr ?_)
      exact mem_labels.mpr ⟨u, List.mem_of_mem_head? h, rfl⟩
    · exact (ih h).cons _

/-- The sweep ends on a writer entry only if there is one, below the entry that was closed. -/
theorem SweepsOff.count {l : LockPtr} {side : SubLock} {s : List TXN} (h : SweepsOff l side s) :
    (l, .writer) ∈ labels s ∧ (side = .writer → 2 ≤ (labels s).count (l, .writer)) := by
  obtain ⟨u, hu, hlabel⟩ := Option.map_eq_some_iff.mp h
  have hsub := nextBelow_mem hu
  rw [hlabel] at hsub
  refine ⟨hsub.subset (by simp), ?_⟩
  rintro rfl
  have hcount := hsub.count_le (l, .writer)
  simpa using hcount

/-- On a level manager a transition neither pops an empty stack of positions nor runs off
the end of a transaction stack. -/
theorem Level.transition_safe {lm : LockManager} {l : LockPtr} {e : LockEvent} {kernelDir : String} (h : lm.Level)
    (hone : lm.OneWriter l e) : lm.transition l e kernelDir 0 ≠ .error .popEmpty ∧
      lm.transition l e kernelDir 0 ≠ .error .endDeref := by
  refine ⟨?_, ?_⟩
  · intro ht
    cases transition_error ht with
    | popEmpty none found =>
      have hp := (h.balanced l).positions
      have hpos := held_pos_of_mem found
      rw [none, List.length_nil] at hp
      omega
  · intro ht
    obtain ⟨hP, hz, hpos, hoff⟩ := transition_endDeref h.wellFormed ht
    obtain ⟨hmem, htwo⟩ := hoff.count
    have hle := h.oneWriter hone hP hz hpos
    cases hside : e.op.side with
    | reader =>
      have := htwo (by rw [hside]; rfl)
      omega
    | writer =>
      -- The write side is not counted, so it has no entry.
      rw [hside] at hz
      have := (h.balanced l).held_of_count hz
      have := held_pos_of_mem hmem
      omega

theorem init_level : LockManager.init.Level where
  wellFormed := init_wellFormed
  balanced l := (init_inStep.sync l).balanced
  others c _ := by simp [init, stack, OrdMap.getD_eq]

end LockManager

open LockManager

/-- The condition on an event is the one on the transition it leads to. -/
theorem FlushesOneWriter.oneWriter {cfg : Config} (hc : cfg.ctxTracing = false) {σ : State} {ev : LockEvent}
    (h : FlushesOneWriter cfg σ (.lockOp ev)) (hw : σ.lockManager.WellFormed) (hs : cfg.skips (.lockOp ev) = false)
    {l : LockPtr} (hreg : σ.lockManager.locks[ev.address]? = some l ∨
      (σ.lockManager.objects = l ∧ σ.lockManager.locks[ev.address]? = none ∧ ev.op.isP = true)) :
    σ.lockManager.OneWriter l ev := by
  intro hop hz hp
  rcases hreg with hreg | ⟨rfl, -, -⟩
  · have := h hs hop l hreg hz hp
    rwa [Config.ctxOf_single hc] at this
  · have hfresh := (hw.fresh _ (Nat.le_refl _)).1 .writer
    simp only [RWLock.count] at hfresh
    omega

theorem step_level {cfg : Config} (hc : cfg.ctxTracing = false) {σ σ' : State} {e : Event}
    (hI : σ.lockManager.Level) (hf : FlushesOneWriter cfg σ e) (h : step cfg σ e = .ok σ') :
    σ'.lockManager.Level := by
  have hmv := step_moved hI.wellFormed h
  have hwf := hmv.wellFormed hI.wellFormed
  cases hmv with
  | kept _ _ hk _ _ _ => exact hk.level hwf hI
  | acted ev l lm₁ _ hk hm hw₁ hlt hs hreg ht =>
    rw [Config.ctxOf_single hc] at ht
    exact (hk.level hw₁ hI).transition hlt (hk.oneWriter (hf.oneWriter hc hI.wellFormed hs hreg)) ht

theorem step_safe {cfg : Config} (hc : cfg.ctxTracing = false) {σ : State} {e : Event} (hI : σ.lockManager.Level)
    (hf : FlushesOneWriter cfg σ e) : step cfg σ e ≠ .error .popEmpty ∧ step cfg σ e ≠ .error .endDeref := by
  have key : ∀ a, step cfg σ e = .error a → a ≠ .popEmpty ∧ a ≠ .endDeref := by
    intro a h
    rcases step_aborted hI.wellFormed h with ha | ⟨ev, l, lm, rfl, hs, hk, hw, hreg, ht⟩
    · constructor <;> rintro rfl <;> simp at ha
    · rw [Config.ctxOf_single hc] at ht
      have hsafe := @Level.transition_safe _ _ _ cfg.kernelBaseDir (hk.level hw hI)
        (hk.oneWriter (hf.oneWriter hc hI.wellFormed hs hreg))
      constructor
      · rintro rfl
        exact hsafe.1 ht
      · rintro rfl
        exact hsafe.2 ht
  exact ⟨fun h => (key _ h).1 rfl, fun h => (key _ h).2 rfl⟩

/-- In single-context mode, on every run in which no flush meets two writer entries of its
lock, no position is popped from an empty stack and no iterator is dereferenced at the end. -/
theorem containers_never_exhausted (cfg : Config) (hc : cfg.ctxTracing = false) (trace : List Event)
    (hone : Along (step cfg) (FlushesOneWriter cfg) trace (.init cfg)) :
    run (step cfg) trace (.init cfg) ≠ .error .popEmpty ∧ run (step cfg) trace (.init cfg) ≠ .error .endDeref := by
  have hinv := throughout_of_invariant (C := FlushesOneWriter cfg) (I := fun σ => σ.lockManager.Level)
    (fun _ _ _ hI hf hst => step_level hc hI hf hst) hone init_level
  have key : ∀ a, run (step cfg) trace (.init cfg) = .error a → a ≠ .popEmpty ∧ a ≠ .endDeref := by
    intro a herr
    obtain ⟨pre, e, post, σ, he, hpre, hstep⟩ := run_error herr
    have hsafe := step_safe hc (hinv pre (e :: post) he σ hpre) (hone pre e post he σ hpre)
    constructor
    · rintro rfl
      exact hsafe.1 hstep
    · rintro rfl
      exact hsafe.2 hstep
  exact ⟨fun h => (key _ h).1 rfl, fun h => (key _ h).2 rfl⟩

/-- A recursive lock taken twice and given back twice, then read, written and flushed. -/
def recursiveOps : List Event :=
  [recursiveWrite 1, recursiveWrite 2, rwlockOp .vWrite 3 0, rwlockOp .vWrite 4 0, rwlockOp .vWrite 5 0,
    rwlockOp .pRead 6 0, recursiveWrite 7, rwlockOp .pRead 8 0]

theorem recursiveOps_safe : run (step (.trackAll false)) recursiveOps (.init (.trackAll false)) ≠ .error .popEmpty ∧
    run (step (.trackAll false)) recursiveOps (.init (.trackAll false)) ≠ .error .endDeref := by
  have hcheck : checkAlong (step (.trackAll false)) (fun σ e => decide (FlushesOneWriter (.trackAll false) σ e))
      recursiveOps (.init (.trackAll false)) = true := by decide +kernel
  exact containers_never_exhausted (.trackAll false) rfl recursiveOps
    (along_mono (fun _ _ _ h => of_decide_eq_true h) (along_of_check hcheck))

/-- A recursive lock taken twice, then read. -/
def readAfterTwoWrites : List Event := [recursiveWrite 1, recursiveWrite 2, rwlockOp .pRead 3 0]

/-- The flush of a lock taken twice around another one leaves a writer entry without a
position; a later doubled `P_WRITE` then finds the entry. -/
def writeAfterFlush : List Event :=
  [recursiveWrite 1, .lockOp ⟨.pWrite, 2, 0x200, "/linux/fs/inode.c", 2, "i_lock", "mutex", 0, 0⟩, recursiveWrite 3,
    rwlockOp .pRead 4 0, rwlockOp .vRead 5 0, rwlockOp .pWrite 6 0, rwlockOp .pWrite 7 0, rwlockOp .vWrite 8 0,
    rwlockOp .pWrite 9 0]

/-- Both kinds of undefined behaviour are reached without an exception. -/
theorem containers_exhausted :
    run (step (.trackAll false)) readAfterTwoWrites (.init (.trackAll false)) = .error .endDeref ∧
      run (step (.trackAll false)) writeAfterFlush (.init (.trackAll false)) = .error .popEmpty :=
  ⟨rfl, rfl⟩

end LockDoc.Convert
