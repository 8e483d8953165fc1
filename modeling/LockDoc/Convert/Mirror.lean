import LockDoc.Convert.Single

/-!
# Positions mirror the stack

In single-context mode the recorded positions of a lock correspond to its entries
on the stack, side by side. So no position is ever popped that is not there, and the
internal-error branches of `finishTXN` cannot be reached, on any trace at all.
-/
namespace LockDoc.Convert

open FallibleRun

namespace LockManager

/-- The entries of a lock on the stack, top first. -/
def entriesOf (lm : LockManager) (l : LockPtr) : List TXN := (lm.stack 0).filter (fun t => t.lock = l)

structure Mirrors (lm : LockManager) : Prop where
  positions : ∀ l, (lm.heap l).lastNPos.map LockPos.subLock = (lm.entriesOf l).map TXN.subLock
  oneSide : ∀ l, ∃ side, ∀ t ∈ lm.entriesOf l, t.subLock = side
  held : ∀ t ∈ lm.stack 0, (lm.heap t.lock).isHeld
  noInternalError : ∀ m ∈ lm.stderr, ¬m.internal

/-- Adding messages that are no internal errors. -/
def NoNewInternal (lm lm' : LockManager) : Prop := ∀ m ∈ lm'.stderr, m.internal → m ∈ lm.stderr

theorem noNewInternal_trans {lm₁ lm₂ lm₃ : LockManager} (h : NoNewInternal lm₁ lm₂) (h' : NoNewInternal lm₂ lm₃) :
    NoNewInternal lm₁ lm₃ := fun m hm hi => h m (h' m hm hi) hi

theorem noNewInternal_printError {lm lm' : LockManager} {l : LockPtr} {side : SubLock} {m : Msg}
    (hm : ¬m.internal) (h : lm.printError l side m = .ok lm') : NoNewInternal lm lm' := by
  cases printError_ok h
  intro m' hm' hi
  rcases List.mem_append.mp hm' with hm' | hm'
  · exact hm'
  · rw [List.mem_singleton] at hm'
    subst hm'
    exact absurd hi hm

theorem noNewInternal_sweepUp {l : LockPtr} {s s' : List TXN} {lm lm' : LockManager}
    (h : sweepUp l s lm = .ok (s', lm')) : NoNewInternal lm lm' := by
  induction s generalizing s' lm with
  | nil => cases h; exact fun m hm _ => hm
  | cons t up ih =>
    simp only [sweepUp] at h
    split at h
    · obtain ⟨⟨r, lm₁⟩, h₁, h⟩ := bind_ok.mp h
      cases h
      exact ih h₁
    · split at h
      · exact ih h
      · split at h
        · cases h
        · obtain ⟨lm₁, h₁, h⟩ := bind_ok.mp h
          obtain ⟨⟨r, lm₂⟩, h₂, h⟩ := bind_ok.mp h
          cases h
          exact noNewInternal_trans (noNewInternal_printError (by simp [Msg.internal]) h₁) (ih h₂)

/-- On a stack of reportable entries, finishing transactions hits no internal error. -/
theorem noNewInternal_finishLoop {l : LockPtr} {ts : Nat} {side : SubLock} {rr found : Bool} {ctx ctxOld : Int}
    {s s' : List TXN} {lm lm' : LockManager} (hs : ∀ t ∈ s, Reportable lm.heap t)
    (h : finishLoop l ts side rr ctx ctxOld s lm = .ok (s', found, lm')) : NoNewInternal lm lm' := by
  induction s generalizing s' found lm with
  | nil => cases h; exact fun m hm _ => hm
  | cons t below ih =>
    simp only [finishLoop] at h
    obtain ⟨lm₁, h₁, h⟩ := bind_ok.mp h
    have hrec : NoNewInternal lm lm₁ ∧ lm₁.heap = lm.heap := by
      split at h₁
      · unfold recordTXN at h₁
        rw [noteHeld_reportable (by simpa [or_comm] using hs)] at h₁
        cases h₁
        exact ⟨fun m hm _ => hm, rfl⟩
      · cases h₁
        exact ⟨fun m hm _ => hm, rfl⟩
    refine noNewInternal_trans hrec.1 ?_
    split at h
    · obtain ⟨⟨r, lm₂⟩, h₂, h⟩ := bind_ok.mp h
      cases h
      split at h₂
      · obtain ⟨⟨r', lm₃⟩, h₃, h₂⟩ := bind_ok.mp h₂
        cases h₂
        exact noNewInternal_sweepUp h₃
      · cases h₂
        exact fun m hm _ => hm
    · obtain ⟨lm₂, h₂, h⟩ := bind_ok.mp h
      have hpr : NoNewInternal lm₁ lm₂ ∧ lm₂.heap = lm₁.heap := by
        split at h₂
        · exact ⟨noNewInternal_printError (by simp [Msg.internal]) h₂, by cases printError_ok h₂; rfl⟩
        · cases h₂
          exact ⟨fun m hm _ => hm, rfl⟩
      obtain ⟨⟨r, f, lm₃⟩, h₃, h⟩ := bind_ok.mp h
      cases h
      have hbelow : ∀ u ∈ below, Reportable lm₂.heap u := by
        intro u hu
        rw [hpr.2, hrec.2]
        exact hs u (by simp [hu])
      have hrest := ih (by exact hbelow) h₃
      exact noNewInternal_trans hpr.1 hrest

theorem noNewInternal_finishTXN {lm lm' : LockManager} {l : LockPtr} {ts : Nat} {side : SubLock}
    {rr found : Bool} {ctx ctxOld : Int} (hs : ∀ t ∈ lm.stack ctx, Reportable lm.heap t)
    (h : lm.finishTXN l ts side rr ctx ctxOld = .ok (found, lm')) : NoNewInternal lm lm' := by
  obtain ⟨⟨s, found₁, lm₁⟩, h₁, h⟩ := bind_ok.mp h
  obtain ⟨lm₂, h₂, h⟩ := bind_ok.mp h
  cases h
  refine noNewInternal_trans (noNewInternal_finishLoop hs h₁) ?_
  split at h₂
  · cases h₂
    exact fun m hm _ => hm
  · exact fun m hm hi => noNewInternal_printError (by simp [Msg.internal]) h₂ m hm hi

theorem noNewInternal_flushSide {lm lm' : LockManager} {l : LockPtr} {side : SubLock} {ts : Nat} {ctx : Int}
    (hs : ∀ t ∈ lm.stack ctx, Reportable lm.heap t) (h : lm.flushSide l side ts ctx = .ok lm') :
    NoNewInternal lm lm' := by
  obtain ⟨lm₁, h₁, h⟩ := bind_ok.mp h
  refine noNewInternal_trans (noNewInternal_printError (by simp [Msg.internal]) h₁) ?_
  cases printError_ok h₁
  obtain ⟨⟨found, lm₂⟩, h₂, h⟩ := bind_ok.mp h
  refine noNewInternal_trans (noNewInternal_finishTXN hs h₂) ?_
  cases found with
  | true =>
    simp only [if_true] at h
    obtain ⟨lm₃, h₃, h⟩ := bind_ok.mp h
    cases h
    split at h₃
    · have hpr := noNewInternal_printError (by simp [Msg.internal]) h₃
      exact hpr
    · cases h₃
      exact fun m hm _ => hm
  | false => exact noNewInternal_printError (by simp [Msg.internal]) h

theorem noNewInternal_closeMissed {lm lm' : LockManager} {l : LockPtr} {ts : Nat} {ctx : Int}
    (hs : ∀ t ∈ lm.stack ctx, Reportable lm.heap t) (h : lm.closeMissed l ts ctx = .ok lm') :
    NoNewInternal lm lm' := by
  obtain ⟨lm₁, h₁, h⟩ := bind_ok.mp h
  refine noNewInternal_trans (noNewInternal_printError (by simp [Msg.internal]) h₁) ?_
  cases printError_ok h₁
  obtain ⟨⟨found, lm₂⟩, h₂, h⟩ := bind_ok.mp h
  refine noNewInternal_trans (noNewInternal_finishTXN hs h₂) ?_
  cases found with
  | true =>
    simp only [if_true] at h
    obtain ⟨lk, -, h⟩ := bind_ok.mp h
    cases h
    exact fun m hm _ => hm
  | false =>
    cases h
    exact fun m hm _ => hm

theorem noNewInternal_release {lm lm' : LockManager} {l : LockPtr} {side : SubLock} {ts : Nat} {ctx : Int}
    (hs : ∀ c, ∀ t ∈ lm.stack c, Reportable lm.heap t) (h : lm.release l side ts ctx = .ok lm') :
    NoNewInternal lm lm' := by
  obtain ⟨lm₁, h₁, h⟩ := bind_ok.mp h
  have last : NoNewInternal lm₁ lm' := by
    split at h
    · exact noNewInternal_printError (by simp [Msg.internal]) h
    · cases h
      exact fun m hm _ => hm
  refine noNewInternal_trans ?_ last
  split at h₁
  · obtain ⟨lm₂, h₂, h₁⟩ := bind_ok.mp h₁
    have hpr : NoNewInternal lm lm₂ ∧ ∀ c, ∀ t ∈ lm₂.stack c, Reportable lm₂.heap t := by
      split at h₂
      · refine ⟨noNewInternal_printError (by simp [Msg.internal]) h₂, ?_⟩
        cases printError_ok h₂
        exact hs
      · cases h₂
        exact ⟨fun m hm _ => hm, hs⟩
    obtain ⟨⟨found, lm₃⟩, h₃, h₁⟩ := bind_ok.mp h₁
    refine noNewInternal_trans hpr.1 (noNewInternal_trans (noNewInternal_finishTXN (hpr.2 _) h₃) ?_)
    cases found with
    | true =>
      simp only [if_true] at h₁
      obtain ⟨lk, -, h₁⟩ := bind_ok.mp h₁
      cases h₁
      exact fun m hm _ => hm
    | false =>
      cases h₁
      exact fun m hm _ => hm
  · exact noNewInternal_printError (by simp [Msg.internal]) h₁

/-- A transition from reportable stacks hits no internal error. -/
theorem noNewInternal_transition {lm lm' : LockManager} {l : LockPtr} {e : LockEvent} {kernelDir : String}
    {ctx : Int} (hs : ∀ c, ∀ t ∈ lm.stack c, Reportable lm.heap t)
    (h : lm.transition l e kernelDir ctx = .ok lm') : NoNewInternal lm lm' := by
  have hs' : ∀ c, ∀ t ∈ (lm.updateFlags l e.flags).stack c, Reportable (lm.updateFlags l e.flags).heap t := by
    intro c t ht
    have hrep := hs c t ht
    have heq : (lm.updateFlags l e.flags).heap t.lock =
        { lm.heap t.lock with flags := if t.lock = l then e.flags else (lm.heap t.lock).flags } := by
      simp only [updateFlags, heap_setLock, RWLock.updateFlags]
      split
      · rename_i hl
        rw [hl]
      · rfl
    refine ⟨?_, ?_, ?_⟩
    · rw [heq]
      exact hrep.held
    · rw [heq]
      exact hrep.pos
    · rw [heq]
      exact hrep.side
  have write : lm.writeTransition l e kernelDir ctx = .ok lm' → NoNewInternal lm lm' := by
    intro h
    unfold writeTransition at h
    cases hop : e.op <;> simp only [hop] at h
    · cases h
    · obtain ⟨lm₁, h₁, h⟩ := bind_ok.mp h
      cases h
      change NoNewInternal (lm.updateFlags l e.flags) lm₁
      unfold prepareWrite at h₁
      dsimp only at h₁
      split at h₁
      · exact noNewInternal_flushSide (hs' ctx) h₁
      · split at h₁
        · split at h₁
          · cases h₁
            exact fun m hm _ => hm
          · exact noNewInternal_closeMissed (hs' ctx) h₁
        · split at h₁
          · cases h₁
          · cases h₁
            exact fun m hm _ => hm
    · cases h
    · have hrel := noNewInternal_release hs' h
      exact hrel
  have read : lm.readTransition l e kernelDir ctx = .ok lm' → NoNewInternal lm lm' := by
    intro h
    unfold readTransition at h
    cases hop : e.op <;> simp only [hop] at h
    · obtain ⟨lm₁, h₁, h⟩ := bind_ok.mp h
      cases h
      change NoNewInternal (lm.updateFlags l e.flags) lm₁
      unfold prepareRead at h₁
      dsimp only at h₁
      split at h₁
      · cases h₁
        exact fun m hm _ => hm
      · split at h₁
        · exact noNewInternal_flushSide (hs' ctx) h₁
        · split at h₁
          · cases h₁
          · cases h₁
            exact fun m hm _ => hm
    · cases h
    · have hrel := noNewInternal_release hs' h
      exact hrel
    · cases h
  unfold transition at h
  split at h
  · split at h
    · exact write h
    · exact write h
    · exact read h
    · exact read h
  · exact read h
  · exact write h

/-- Every entry in single-context mode can be reported. -/
theorem Single.reportable {lm : LockManager} (h : lm.Single) (c : Int) (t : TXN) (ht : t ∈ lm.stack c) :
    Reportable lm.heap t := by
  have hmem : (t.lock, t.subLock) ∈ labels (lm.stack c) := mem_labels.mpr ⟨t, ht, rfl⟩
  have hs := h.inStep.sync t.lock
  have hpos := held_pos_of_mem hmem
  have hfit : (lm.heap t.lock).cls.has t.subLock := (h.inStep.wellFormed.entry c _ hmem).2
  refine ⟨?_, ?_, hfit⟩
  · apply (lm.heap t.lock).isHeld_of_count t.subLock hfit
    have := hs.count_nonneg t.subLock
    omega
  · intro hn
    have hp := hs.positions
    rw [hn, List.length_nil] at hp
    cases hside : t.subLock <;> rw [hside] at hpos <;> omega

theorem Single.entry_side {lm : LockManager} (h : lm.Single) (l : LockPtr) :
    ∃ side, (∀ t ∈ lm.entriesOf l, t.subLock = side) ∧ ∀ p ∈ (lm.heap l).lastNPos, p.subLock = side := by
  have key : ∀ side, lm.held (l, side.other) = 0 →
      (∀ t ∈ lm.entriesOf l, t.subLock = side) ∧ (∀ p ∈ (lm.heap l).lastNPos, p.subLock = side) := by
    intro side hz
    refine ⟨?_, ?_⟩
    · intro t ht
      obtain ⟨ht, hl⟩ := List.mem_filter.mp ht
      have hl : t.lock = l := by simpa using hl
      have hpos : 0 < lm.held (l, t.subLock) := held_pos_of_mem (c := 0) (mem_labels.mpr ⟨t, ht, by rw [← hl]; rfl⟩)
      cases hs : t.subLock <;> cases side <;> simp_all [SubLock.other]
    · intro p hp
      have hp' := (h.inStep.sync l).positions
      have hlen := List.length_pos_of_mem hp
      have hz' := h.sides l p hp
      cases hs : p.subLock <;> cases side <;> simp_all [SubLock.other]
  rcases h.oneSide l with hz | hz
  · exact ⟨.writer, key .writer hz⟩
  · exact ⟨.reader, key .reader hz⟩

theorem length_entriesOf {lm : LockManager} (l : LockPtr) : (lm.entriesOf l).length =
    (labels (lm.stack 0)).count (l, .reader) + (labels (lm.stack 0)).count (l, .writer) := by
  unfold entriesOf
  induction lm.stack 0 with
  | nil => rfl
  | cons t s ih =>
    rw [List.filter_cons, labels_cons, List.count_cons, List.count_cons]
    by_cases hl : t.lock = l
    · cases hs : t.subLock <;> simp [hl, hs, TXN.label, ih] <;> omega
    · simp [hl, TXN.label, ih]

theorem Single.mirrors {lm : LockManager} (h : lm.Single) (hq : ∀ m ∈ lm.stderr, ¬m.internal) : lm.Mirrors where
  positions l := by
    obtain ⟨side, ht, hp⟩ := h.entry_side l
    have hlen : (lm.heap l).lastNPos.length = (lm.entriesOf l).length := by
      rw [length_entriesOf, (h.inStep.sync l).positions, h.held_eq, h.held_eq]
    have h₁ : (lm.heap l).lastNPos.map LockPos.subLock = List.replicate (lm.entriesOf l).length side := by
      rw [List.eq_replicate_iff]
      refine ⟨by rw [List.length_map, hlen], ?_⟩
      intro s hs
      obtain ⟨p, hp', rfl⟩ := List.mem_map.mp hs
      exact hp p hp'
    have h₂ : (lm.entriesOf l).map TXN.subLock = List.replicate (lm.entriesOf l).length side := by
      rw [List.eq_replicate_iff]
      refine ⟨by rw [List.length_map], ?_⟩
      intro s hs
      obtain ⟨t, ht', rfl⟩ := List.mem_map.mp hs
      exact ht t ht'
    rw [h₁, h₂]
  oneSide l := by
    obtain ⟨side, ht, -⟩ := h.entry_side l
    exact ⟨side, ht⟩
  held t ht := (h.reportable 0 t ht).held
  noInternalError := hq

end LockManager

open LockManager

/-- What every iteration in single-context mode keeps. -/
theorem step_mirrors {cfg : Config} (hc : cfg.ctxTracing = false) {σ σ' : State} {e : Event}
    (hI : σ.lockManager.Single ∧ ∀ m ∈ σ.lockManager.stderr, ¬m.internal) (hr : e.recursive = false)
    (h : step cfg σ e = .ok σ') :
    σ'.lockManager.Single ∧ ∀ m ∈ σ'.lockManager.stderr, ¬m.internal := by
  refine ⟨step_single hc hI.1 hr h, ?_⟩
  cases step_moved hI.1.inStep.wellFormed h with
  | kept _ _ hk hm _ _ => exact fun m hm' hi => hI.2 m (hm m hm' hi) hi
  | acted ev l lm₁ _ hk hm hw₁ hlt hs hreg ht =>
    intro m hm' hi
    have hnew := noNewInternal_transition (hk.single hw₁ hI.1).reportable ht m hm' hi
    rw [hm] at hnew
    exact hI.2 m hnew hi

/-- In single-context mode and without recursive locks the positions mirror the stack
at every point of every run, and no position is popped from an empty stack. -/
theorem positions_mirror_stack (cfg : Config) (hc : cfg.ctxTracing = false) (trace : List Event)
    (hr : ∀ e ∈ trace, e.recursive = false) :
    Throughout (step cfg) (fun σ => σ.lockManager.Mirrors) trace (.init cfg) ∧
      run (step cfg) trace (.init cfg) ≠ .error .popEmpty := by
  have hinv : Throughout (step cfg) (fun σ => σ.lockManager.Single ∧ ∀ m ∈ σ.lockManager.stderr, ¬m.internal)
      trace (.init cfg) := by
    refine throughout_of_invariant (C := fun _ e => e.recursive = false)
      (fun _ _ _ hI he hst => step_mirrors hc hI he hst) ?_ ⟨init_single, by simp [State.init, init]⟩
    intro p f q hf _ _
    exact hr f (by simp [hf])
  refine ⟨fun pre post he σ hσ => ?_, ?_⟩
  · obtain ⟨hs, hq⟩ := hinv pre post he σ hσ
    exact hs.mirrors hq
  · intro herr
    obtain ⟨pre, e, post, σ, rfl, hpre, hstep⟩ := run_error herr
    obtain ⟨hs, -⟩ := hinv pre (e :: post) rfl σ hpre
    rcases step_error hs.inStep.wellFormed hstep with hb | ⟨ev, l, lm, -, hk, hf⟩
    · simp at hb
    · cases hf with
      | popEmpty none found =>
        rw [hk.labels] at found
        rw [hk.pos] at none
        have hp := (hs.inStep.sync l).positions
        have hpos := held_pos_of_mem found
        rw [none, List.length_nil] at hp
        omega

/-- Doubled and missing operations on one lock. -/
def malformedOps : List Event :=
  [rwlockOp .vRead 1 0, rwlockOp .pWrite 2 0, rwlockOp .pWrite 3 0, rwlockOp .vWrite 4 0, rwlockOp .pRead 5 0,
    rwlockOp .vRead 6 0, rwlockOp .vRead 7 0]

theorem malformedOps_mirrored :
    Throughout (step (.trackAll false)) (fun σ => σ.lockManager.Mirrors) malformedOps (.init (.trackAll false)) ∧
      run (step (.trackAll false)) malformedOps (.init (.trackAll false)) ≠ .error .popEmpty :=
  positions_mirror_stack (.trackAll false) rfl malformedOps (by decide)

end LockDoc.Convert
