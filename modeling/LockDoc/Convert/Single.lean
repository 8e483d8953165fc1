import LockDoc.Convert.Stranded

/-!
# Single-context mode

Without `-c` all transactions are on the stack of context 0. Then flushes are local
by themselves, a lock is on the stack with one side only, and its positions are all
of that side, whatever events the trace misses or repeats.
-/
namespace LockDoc.Convert

open FallibleRun

namespace LockManager

/-- The invariant of single-context mode. -/
structure Single (lm : LockManager) : Prop where
  inStep : lm.InStep
  others : ∀ c, c ≠ 0 → labels (lm.stack c) = []
  oneSide : ∀ l, lm.held (l, .reader) = 0 ∨ lm.held (l, .writer) = 0
  sides : ∀ l, ∀ p ∈ (lm.heap l).lastNPos, lm.held (l, p.subLock.other) = 0

theorem Single.held_eq {lm : LockManager} (h : lm.Single) (x : LockPtr × SubLock) :
    lm.held x = (labels (lm.stack 0)).count x := by
  apply held_eq_count
  intro d hd
  rw [h.others d hd]
  simp

theorem Single.onlyIn {lm : LockManager} (h : lm.Single) (l : LockPtr) : lm.OnlyIn l 0 := by
  intro c hc x hx
  rw [h.others c hc] at hx
  simp at hx

theorem Kept.single {lm lm' : LockManager} (hk : Kept lm lm') (hw : lm'.WellFormed) (h : lm.Single) :
    lm'.Single where
  inStep := ⟨hw, fun l => hk.syncAt (h.inStep.sync l)⟩
  others c hc := by rw [hk.labels, h.others c hc]
  oneSide l := by rw [hk.held, hk.held]; exact h.oneSide l
  sides l p hp := by rw [hk.held]; exact h.sides l p (hk.pos l ▸ hp)

/-- Preparing a `P()` adds neither entries nor positions. -/
theorem Prepared.le {lm lm' : LockManager} {l : LockPtr} {ts : Nat} {ctx : Int} {side : SubLock}
    (h : Prepared lm l ts ctx side lm') :
    (∀ x, lm'.held x ≤ lm.held x) ∧ ∀ p ∈ (lm'.heap l).lastNPos, p ∈ (lm.heap l).lastNPos := by
  cases h with
  | plain => exact ⟨fun _ => Nat.le_refl _, fun _ hp => hp⟩
  | flushed side lm₁ msgs zero pos fin => exact ⟨fin.held_le, fun p hp => by simp [RWLock.drain] at hp⟩
  | unflushed side _ zero pos fin => exact ⟨fin.held_le, fun p hp => by rwa [fin.heap_eq] at hp⟩
  | reclosed lm₁ p ps pos zero once fin top =>
    refine ⟨fin.held_le, ?_⟩
    intro q hq
    rw [top]
    simp only [heap_setLock, if_true] at hq
    exact List.mem_cons_of_mem _ hq
  | unclosed _ pos zero once fin => exact ⟨fin.held_le, fun p hp => by rwa [fin.heap_eq] at hp⟩

theorem Released.le {lm lm' : LockManager} {l : LockPtr} {ts : Nat} {ctx : Int} {side : SubLock}
    (h : Released lm l ts ctx side lm') :
    (∀ x, lm'.held x ≤ lm.held x) ∧ ∀ p ∈ (lm'.heap l).lastNPos, p ∈ (lm.heap l).lastNPos := by
  cases h with
  | closed lm₁ p ps msgs top fin =>
    refine ⟨fin.held_le, ?_⟩
    intro q hq
    rw [top]
    simp only [heap_setLock, if_true, RWLock.lastNPos_uncount] at hq
    exact List.mem_cons_of_mem _ hq
  | unclosed lm₁ msgs some fin =>
    refine ⟨fin.held_le, ?_⟩
    intro q hq
    simpa only [heap_setLock, if_true, RWLock.lastNPos_uncount] using hq
  | empty msgs none =>
    refine ⟨fun _ => Nat.le_refl _, ?_⟩
    intro q hq
    simpa only [heap_setLock, if_true, RWLock.lastNPos_uncount] using hq

/-- After the preparation of a `P()` the other side has no entry left. -/
theorem Single.prepared {lm lm₁ : LockManager} {l : LockPtr} {ts : Nat} {side : SubLock} (h : lm.Single)
    (hr : isRecursive (lm.heap l).flags = false) (hp : Prepared lm l ts 0 side lm₁) :
    lm₁.held (l, side.other) = 0 := by
  have hs := h.inStep.sync l
  have hle := hp.le.1
  have hR := hs.readers
  have hW := hs.writers
  cases hp with
  | plain _ noFlush oneSide again =>
    cases side with
    | reader =>
      simp only [RWLock.count, SubLock.other] at noFlush ⊢
      omega
    | writer =>
      have := again rfl
      simp only [RWLock.count, SubLock.other, hr, Bool.false_eq_true, imp_false] at noFlush this ⊢
      omega
  | flushed _ lm₂ msgs zero pos fin => exact (hs.flushed zero fin (h.onlyIn l) _).1
  | unflushed _ _ zero pos fin =>
    have := List.count_eq_zero.mpr fin.not_mem_of_missing
    have := h.held_eq (l, side.other)
    have := hle (l, side.other)
    omega
  | reclosed lm₂ p ps pos zero once fin top =>
    have := fin.held_le (l, .reader)
    change lm₂.held (l, .reader) = 0
    omega
  | unclosed _ pos zero once fin =>
    have := fin.held_le (l, .reader)
    change lm₁.held (l, .reader) = 0
    omega

/-- A transition of context 0 does not open anything elsewhere. -/
theorem transition_others {lm lm' : LockManager} {l : LockPtr} {e : LockEvent} {kernelDir : String} {ctx c : Int}
    (h : lm.transition l e kernelDir ctx = .ok lm') (hc : c ≠ ctx) :
    (labels (lm'.stack c)).Sublist (labels (lm.stack c)) := by
  obtain ⟨-, ⟨-, lm₁, hp, rfl⟩ | ⟨-, hr⟩⟩ := transition_ok h
  · rw [stack_acquire, if_neg hc]
    exact hp.labels_sublist c
  · exact hr.labels_sublist c

theorem Single.transition {lm lm' : LockManager} {l : LockPtr} {e : LockEvent} {kernelDir : String}
    (h : lm.Single) (hl : l < lm.objects) (hr : isRecursive e.flags = false)
    (ht : lm.transition l e kernelDir 0 = .ok lm') : lm'.Single := by
  have hw' := h.inStep.wellFormed.transition hl ht
  have hsync : ∀ k, lm'.SyncAt k := fun k =>
    SyncAt.transition (h.inStep.sync k) (h.inStep.sync l) hr (fun _ _ => h.onlyIn l) ht
  have hothers : ∀ c, c ≠ 0 → labels (lm'.stack c) = [] := by
    intro c hc
    have := transition_others ht hc
    rw [h.others c hc] at this
    exact List.sublist_nil.mp this
  have hoth := fun {k : LockPtr} (hk : k ≠ l) s => LockManager.transition_other ht (x := (k, s)) hk
  have hu := kept_updateFlags lm l e.flags
  have h₀ : (lm.updateFlags l e.flags).Single := hu.single (hu.wellFormed h.inStep.wellFormed
    (by exact h.inStep.wellFormed.registered)) h
  -- The lock itself: what the preparation or the release leaves is of one side.
  have main : (lm'.held (l, .reader) = 0 ∨ lm'.held (l, .writer) = 0) ∧
      ∀ p ∈ (lm'.heap l).lastNPos, lm'.held (l, p.subLock.other) = 0 := by
    obtain ⟨-, ⟨-, lm₁, hp, rfl⟩ | ⟨-, hrel⟩⟩ := transition_ok ht
    · have hflags : isRecursive ((lm.updateFlags l e.flags).heap l).flags = false := by
        simpa [updateFlags, RWLock.updateFlags] using hr
      have hz := h₀.prepared hflags hp
      have hs₁ := ((h₀.inStep.sync l).prepared hflags hp (fun _ => h₀.onlyIn l)).1
      have hside : ∀ q ∈ (lm₁.heap l).lastNPos, q.subLock = e.op.side := by
        intro q hq
        by_contra hne
        have hz₁ := h₀.sides l q (hp.le.2 q hq)
        have hle := hp.le.1 (l, q.subLock.other)
        have hpos := hs₁.positions
        have hlen := List.length_pos_of_mem hq
        cases hq' : q.subLock <;> cases ho : e.op.side <;> simp_all [SubLock.other]
      have hfin : (lm₁.acquire l (e.pos kernelDir e.op.side) 0).held (l, e.op.side.other) = 0 := by
        rw [held_acquire, if_neg (by cases e.op.side <;> simp [LockEvent.pos, SubLock.other]), hz]
      refine ⟨?_, ?_⟩
      · cases ho : e.op.side with
        | reader =>
          rw [ho] at hfin
          exact .inr hfin
        | writer =>
          rw [ho] at hfin
          exact .inl hfin
      · intro p hp'
        have : p.subLock = e.op.side := by
          simp only [acquire, startTXN, setStack, heap_setLock, if_true, RWLock.push, List.mem_cons] at hp'
          rcases hp' with rfl | hp'
          · rfl
          · exact hside p hp'
        rw [this]
        exact hfin
    · refine ⟨?_, ?_⟩
      · have hR := hrel.le.1 (l, .reader)
        have hW := hrel.le.1 (l, .writer)
        have := h₀.oneSide l
        omega
      · intro p hp
        have := h₀.sides l p (hrel.le.2 p hp)
        have := hrel.le.1 (l, p.subLock.other)
        omega
  refine ⟨⟨hw', hsync⟩, hothers, ?_, ?_⟩
  · intro k
    by_cases hk : k = l
    · rw [hk]
      exact main.1
    · rw [(hoth hk _).1, (hoth hk _).1]
      exact h.oneSide k
  · intro k p hp
    by_cases hk : k = l
    · subst hk
      exact main.2 p hp
    · rw [(transition_framed ht).heap k hk] at hp
      rw [(hoth hk _).1]
      exact h.sides k p hp

theorem init_single : LockManager.init.Single where
  inStep := init_inStep
  others c _ := by simp [init, stack, OrdMap.getD_eq]
  oneSide l := .inl (init_held _)
  sides l p _ := init_held _

end LockManager

open LockManager

theorem Config.ctxOf_single {cfg : Config} (h : cfg.ctxTracing = false) (c : Int) : cfg.ctxOf c = 0 := by
  simp [Config.ctxOf, h]

/-- Every iteration in single-context mode keeps the invariant. -/
theorem step_single {cfg : Config} (hc : cfg.ctxTracing = false) {σ σ' : State} {e : Event}
    (hI : σ.lockManager.Single) (hr : e.recursive = false) (h : step cfg σ e = .ok σ') :
    σ'.lockManager.Single := by
  have hmv := step_moved hI.inStep.wellFormed h
  have hwf := hmv.wellFormed hI.inStep.wellFormed
  cases hmv with
  | kept _ _ hk _ _ _ => exact hk.single hwf hI
  | acted ev l lm₁ _ hk hm hw₁ hlt hs hreg ht =>
    rw [Config.ctxOf_single hc] at ht
    exact (hk.single hw₁ hI).transition hlt hr ht

end LockDoc.Convert
