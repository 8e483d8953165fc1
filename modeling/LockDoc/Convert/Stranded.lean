import LockDoc.Convert.Abort
import LockDoc.Convert.Sync

/-!
# Stranded transactions

One stack of positions per lock is shared by all contexts, but a flush works on the
stack of one context only. The entries of a lock and its positions agree in number
on exactly those runs in which no flush finds an entry of its lock elsewhere.
-/
namespace LockDoc.Convert

open FallibleRun

/-- The event is an operation on a registered lock that reaches `transition`. -/
structure ActsOn (cfg : Config) (σ : State) (e : Event) (ev : LockEvent) (l : LockPtr) : Prop where
  event : e = .lockOp ev
  kept : cfg.skips e = false
  lock : σ.lockManager.findLock ev.address = some l

/-- The event carries `LOCK_FLAGS_RECURSIVE`. -/
def Event.recursive : Event → Bool
  | .lockOp e => isRecursive e.flags
  | _ => false

/-- If the event is a `P()` that flushes the other side of its lock, then no other
context has an entry of this lock. -/
def FlushIsLocal (cfg : Config) (σ : State) (e : Event) : Prop :=
  ∀ ev l, ActsOn cfg σ e ev l → ev.op.isP = true →
    σ.lockManager.Flushes l ev.op.side (cfg.ctxOf ev.ctx) → σ.lockManager.OnlyIn l (cfg.ctxOf ev.ctx)

namespace LockManager

/-- A lock has as many positions as entries; in particular none is left on a stack
once the positions are gone, and every entry can be closed by a `V()` in its context. -/
structure NoneStranded (lm : LockManager) : Prop where
  entries : ∀ l, lm.held (l, .reader) + lm.held (l, .writer) = (lm.heap l).lastNPos.length
  emptied : ∀ l, (lm.heap l).lastNPos = [] → ∀ c, ∀ t ∈ lm.stack c, t.lock ≠ l
  closable : ∀ c, ∀ t ∈ lm.stack c, ∀ ts, ∃ lm', lm.release t.lock t.subLock ts c = .ok lm' ∧
    (labels (lm'.stack c)).count t.label + 1 = (labels (lm.stack c)).count t.label

/-- Everything a run keeps while its flushes are local. -/
structure InStep (lm : LockManager) : Prop where
  wellFormed : lm.WellFormed
  sync : ∀ l, lm.SyncAt l

theorem init_held (x : LockPtr × SubLock) : LockManager.init.held x = 0 := by
  rw [held_eq_zero]
  intro c
  simp [init, stack, OrdMap.getD_eq]

theorem init_inStep : LockManager.init.InStep where
  wellFormed := init_wellFormed
  sync l := by
    refine ⟨?_, ?_, ?_, ?_⟩
    · rw [init_held, init_held]
      rfl
    · rw [init_held]
      rfl
    · rw [init_held]
      rfl
    · intro c
      simp [init, stack, OrdMap.getD_eq]

/-- A `V()` on a well-formed manager completes. -/
theorem release_total {lm : LockManager} (hw : lm.WellFormed) {l : LockPtr} {side : SubLock} (ts : Nat) (ctx : Int)
    (hl : (lm.heap l).cls.has side) : ∃ lm', lm.release l side ts ctx = .ok lm' := by
  have last : ∀ lm₁ : LockManager, (lm₁.heap l).cls = (lm.heap l).cls →
      ∃ lm', (if (lm₁.heap l).count side = 0 then lm₁.printError l side .alreadyReleased
        else .ok (lm₁.setLock l ((lm₁.heap l).setCount side ((lm₁.heap l).count side - 1)))) = .ok lm' := by
    intro lm₁ hc
    split
    · exact ⟨_, printError_of_has (by rwa [hc])⟩
    · exact ⟨_, rfl⟩
  have first : ∃ lm₁, (if (lm.heap l).lastNPos ≠ [] then lm.releaseTXN l side ts ctx
      else lm.printError l side .noLastPos) = .ok lm₁ ∧ (lm₁.heap l).cls = (lm.heap l).cls := by
    split
    · rename_i hne
      unfold releaseTXN
      have hpr : ∃ lm₁, (if lm.releaseCtx l side ctx = ctx ∧ !lm.hasActiveTXN ctx then
          lm.printError l side .noRunningTXN else .ok lm) = .ok lm₁ ∧ lm₁.heap = lm.heap ∧ lm₁.stack = lm.stack := by
        split
        · exact ⟨_, printError_of_has hl, rfl, rfl⟩
        · exact ⟨_, rfl, rfl, rfl⟩
      obtain ⟨lm₁, h₁, hheap, hstack⟩ := hpr
      have hfit : ∀ t ∈ lm₁.stack (lm.releaseCtx l side ctx), (lm₁.heap t.lock).cls.has t.subLock := by
        intro t ht
        rw [hheap]
        rw [hstack] at ht
        exact (hw.entry _ t.label (mem_labels.mpr ⟨t, ht, rfl⟩)).2
      obtain ⟨found, lm₂, h₂⟩ := finishTXN_total ts ctx hfit (by rw [hheap]; exact hl)
      have hheap₂ : lm₂.heap l = lm.heap l := by rw [(finishTXN_finished h₂).heap_eq, hheap]
      simp only [h₁, bind, Except.bind, h₂]
      cases found with
      | true =>
        obtain ⟨p, ps, hp⟩ := List.exists_cons_of_ne_nil hne
        simp [RWLock.popPos, hheap₂, hp]
      | false => exact ⟨_, rfl, by rw [hheap₂]⟩
    · exact ⟨_, printError_of_has hl, rfl⟩
  obtain ⟨lm₁, h₁, hc⟩ := first
  obtain ⟨lm₂, h₂⟩ := last lm₁ hc
  exact ⟨lm₂, bind_ok.mpr ⟨lm₁, h₁, h₂⟩⟩

theorem releaseCtx_self {lm : LockManager} {l : LockPtr} {side : SubLock} {c : Int}
    (h : (l, side) ∈ labels (lm.stack c)) : lm.releaseCtx l side c = c := by
  have hon := isOnTXNStack_iff.mpr h
  have hne : lm.hasActiveTXN c = true := by
    unfold hasActiveTXN
    cases hs : lm.stack c with
    | nil => simp [hs] at h
    | cons t s => rfl
  simp [releaseCtx, hon, hne]

theorem InStep.noneStranded {lm : LockManager} (h : lm.InStep) : lm.NoneStranded := by
  have some : ∀ c, ∀ t ∈ lm.stack c, (lm.heap t.lock).lastNPos ≠ [] := by
    intro c t ht hn
    have hp := (h.sync t.lock).positions
    have hpos : 0 < lm.held (t.lock, t.subLock) := held_pos_of_mem (mem_labels.mpr ⟨t, ht, rfl⟩)
    rw [hn, List.length_nil] at hp
    cases hs : t.subLock <;> rw [hs] at hpos <;> omega
  refine ⟨fun l => ((h.sync l).positions).symm, ?_, ?_⟩
  · rintro l hn c t ht rfl
    exact some c t ht hn
  · intro c t ht ts
    have hmem : (t.lock, t.subLock) ∈ labels (lm.stack c) := mem_labels.mpr ⟨t, ht, rfl⟩
    have hfit : (lm.heap t.lock).cls.has t.subLock := (h.wellFormed.entry c _ hmem).2
    obtain ⟨lm', hr⟩ := release_total h.wellFormed ts c hfit
    refine ⟨lm', hr, ?_⟩
    cases release_ok hr with
    | closed lm₁ p ps msgs top fin =>
      rw [releaseCtx_self hmem] at fin
      have hcl := fin.count_closed t.label
      rwa [if_pos (show t.label = (t.lock, t.subLock) from rfl)] at hcl
    | unclosed lm₁ msgs hne fin =>
      rw [releaseCtx_self hmem] at fin
      exact absurd hmem fin.not_mem_of_missing
    | empty msgs none => exact absurd none (some c t ht)

/-- A flush that leaves an entry of its lock in another context strands it. -/
theorem entries_of_flush {lm lm₁ : LockManager} {l : LockPtr} {ts : Nat} {ctx c : Int} {side s : SubLock}
    (hf : lm.Flushes l side ctx) (h : Prepared lm l ts ctx side lm₁) (hc : c ≠ ctx)
    (hx : (l, s) ∈ labels (lm.stack c)) (pos : LockPos) (hside : pos.subLock = side) :
    ((lm₁.acquire l pos ctx).heap l).lastNPos.length <
      (lm₁.acquire l pos ctx).held (l, .reader) + (lm₁.acquire l pos ctx).held (l, .writer) := by
  have hzero := hf.zero
  cases h with
  | plain _ noFlush => exact absurd ⟨hf.zero, hf.pos⟩ noFlush
  | flushed _ lm₂ msgs zero pos fin =>
    have hs : 0 < lm₂.held (l, s) := held_pos_of_mem (by rw [fin.stack_other hc]; exact hx)
    have hheld : ∀ x, LockManager.held
        { lm₂.setLock l ((lm.heap l).drain side.other) with stderr := msgs } x = lm₂.held x := fun _ => rfl
    rw [held_acquire, held_acquire, hheld, hheld, hside]
    simp only [acquire, startTXN, setStack, heap_setLock, if_true, RWLock.push, RWLock.drain,
      List.length_cons, List.length_nil]
    cases s <;> cases side <;>
      simp only [if_true, reduceCtorEq, Prod.mk.injEq, and_false, if_false] <;> omega
  | unflushed _ _ zero pos fin => exact absurd hf.found fin.not_mem_of_missing
  | reclosed lm₂ p ps pos zero once fin top =>
    simp only [RWLock.count] at hzero
    omega
  | unclosed _ pos zero once fin =>
    simp only [RWLock.count] at hzero
    omega

end LockManager

open LockManager in
/-- From a state in step, an iteration strands nothing exactly when its flush is local. -/
theorem step_noneStranded_iff {cfg : Config} {σ σ' : State} {e : Event} (hI : σ.lockManager.InStep)
    (hr : e.recursive = false) (h : step cfg σ e = .ok σ') :
    (σ'.lockManager.NoneStranded ↔ FlushIsLocal cfg σ e) ∧ (FlushIsLocal cfg σ e → σ'.lockManager.InStep) := by
  have hmv := step_moved hI.wellFormed h
  have hwf := hmv.wellFormed hI.wellFormed
  have back : FlushIsLocal cfg σ e → σ'.lockManager.InStep := by
    intro hl
    refine ⟨hwf, ?_⟩
    intro k
    cases hmv with
    | kept _ _ hk _ _ _ => exact hk.syncAt (hI.sync k)
    | acted ev l lm₁ _ hk hm hw₁ hlt hs hreg ht =>
      refine SyncAt.transition (hk.syncAt (hI.sync k)) (hk.syncAt (hI.sync l)) hr ?_ ht
      intro hP hf
      rcases hreg with hreg | ⟨rfl, -, -⟩
      · exact hk.onlyIn.mpr (hl ev l ⟨rfl, hs, hreg⟩ hP (hk.flushes.mp hf))
      · have hfresh := (hI.wellFormed.fresh _ (Nat.le_refl _)).1 ev.op.side.other
        have hpos := (hk.flushes.mp hf).pos
        omega
  refine ⟨⟨?_, fun hl => (back hl).noneStranded⟩, back⟩
  intro hn ev l hact hP hf c hc x hx hxl
  cases hmv with
  | kept _ _ hk _ _ idle =>
    have := (idle ev hact.event hact.kept).symm.trans hact.lock
    cases this
  | acted ev' l' lm₁ _ hk hm hw₁ hlt hs hreg ht =>
    cases hact.event
    have hll : l' = l := by
      rcases hreg with hreg | ⟨-, hnone, -⟩
      · exact Option.some.inj (hreg.symm.trans hact.lock)
      · have := hnone.symm.trans hact.lock
        cases this
    subst hll
    obtain ⟨-, ⟨-, lm₂, hp, he⟩ | ⟨hV, -⟩⟩ := transition_ok ht
    · have hk' := hk.trans (kept_updateFlags lm₁ l' ev.flags)
      have hx' : (l', x.2) ∈ labels ((lm₁.updateFlags l' ev.flags).stack c) := by
        rw [hk'.labels, ← hxl]
        exact hx
      have := entries_of_flush (hk'.flushes.mpr hf) hp hc hx' (ev.pos cfg.kernelBaseDir ev.op.side) rfl
      rw [← he] at this
      have := hn.entries l'
      omega
    · rw [hP] at hV
      cases hV

/-- Without recursive locks, no transaction is ever stranded exactly on the runs whose
flushes are all local. -/
theorem noneStranded_iff_flushes_local (cfg : Config) (trace : List Event)
    (hr : ∀ e ∈ trace, e.recursive = false) :
    Throughout (step cfg) (fun σ => σ.lockManager.NoneStranded) trace (.init cfg) ↔
      Along (step cfg) (Completed (step cfg) (FlushIsLocal cfg)) trace (.init cfg) :=
  throughout_iff_along (I := fun σ => σ.lockManager.InStep) (E := fun e => e.recursive = false)
    (fun _ h => h.noneStranded) (fun _ _ _ hI he hst => step_noneStranded_iff hI he hst) hr
    LockManager.init_inStep

/-- Two contexts take the read side in turn and give it back. -/
def readersInTurn : List Event := [rwlockOp .pRead 1 1, rwlockOp .vRead 2 1, rwlockOp .pRead 3 2]

theorem readersInTurn_nonrecursive : (∀ e ∈ readersInTurn, e.recursive = false) ∧
    (Throughout (step (.trackAll true)) (fun σ => σ.lockManager.NoneStranded) readersInTurn (.init (.trackAll true)) ↔
      Along (step (.trackAll true)) (Completed (step (.trackAll true)) (FlushIsLocal (.trackAll true)))
        readersInTurn (.init (.trackAll true))) :=
  ⟨by decide, noneStranded_iff_flushes_local (.trackAll true) readersInTurn (by decide)⟩

/-- Two contexts hold the read side when one of them takes the write side. -/
def writerAmongReaders : List Event := [rwlockOp .pRead 1 1, rwlockOp .pRead 2 2, rwlockOp .pWrite 3 2]

/-- The positions of the lock are gone, but the entry of the first context is not. -/
theorem writerAmongReaders_strands : (∀ e ∈ writerAmongReaders, e.recursive = false) ∧
    ¬Throughout (step (.trackAll true)) (fun σ => σ.lockManager.NoneStranded) writerAmongReaders
      (.init (.trackAll true)) := by
  refine ⟨by decide, fun h => ?_⟩
  have hrun : ∃ σ, run (step (.trackAll true)) writerAmongReaders (.init (.trackAll true)) = .ok σ ∧
      σ.lockManager.held (0, .reader) = 1 ∧ σ.lockManager.held (0, .writer) = 1 ∧
      (σ.lockManager.heap 0).lastNPos.length = 1 := ⟨_, rfl, by decide +kernel, by decide +kernel, by decide +kernel⟩
  obtain ⟨σ, hσ, hR, hW, hp⟩ := hrun
  have := (h writerAmongReaders [] (by simp) σ hσ).entries 0
  omega

end LockDoc.Convert
