import LockDoc.Convert.WellFormed

/-!
# Counters, positions and stacks in step

The three places where `convert` remembers that a lock is held are the counters of
the lock, its stack of positions and the transaction stacks. `BalancedAt` says how far
they agree for one lock: the write counter may run ahead of the stacks, nothing else may.
It survives every transition except a flush that leaves an entry of the lock behind.
Without recursive locks, `SyncAt`, only entries of another context can be left.
-/
namespace LockDoc.Convert

namespace LockManager

/-- Counters, positions and entries of a lock agree, but for a write counter that runs ahead. -/
structure BalancedAt (lm : LockManager) (l : LockPtr) : Prop where
  positions : (lm.heap l).lastNPos.length = lm.held (l, .reader) + lm.held (l, .writer)
  readers : (lm.heap l).readerCount = lm.held (l, .reader)
  writers : lm.held (l, .writer) ≤ (lm.heap l).writerCount

structure SyncAt (lm : LockManager) (l : LockPtr) : Prop where
  positions : (lm.heap l).lastNPos.length = lm.held (l, .reader) + lm.held (l, .writer)
  readers : (lm.heap l).readerCount = lm.held (l, .reader)
  writers : lm.held (l, .writer) ≤ (lm.heap l).writerCount
  oneWriter : ∀ c, (labels (lm.stack c)).count (l, .writer) ≤ 1

theorem SyncAt.balanced {lm : LockManager} {l : LockPtr} (hs : lm.SyncAt l) : lm.BalancedAt l :=
  ⟨hs.positions, hs.readers, hs.writers⟩

theorem BalancedAt.sync {lm : LockManager} {l : LockPtr} (hb : lm.BalancedAt l)
    (hone : ∀ c, (labels (lm.stack c)).count (l, .writer) ≤ 1) : lm.SyncAt l :=
  ⟨hb.positions, hb.readers, hb.writers, hone⟩

theorem Kept.balancedAt {lm lm' : LockManager} {l : LockPtr} (h : Kept lm lm') (hb : lm.BalancedAt l) :
    lm'.BalancedAt l where
  positions := by rw [h.pos, h.held, h.held, hb.positions]
  readers := by rw [h.held, ← hb.readers]; exact h.count l .reader
  writers := by rw [h.held]; exact hb.writers.trans (h.count l .writer).ge

theorem Kept.syncAt {lm lm' : LockManager} {l : LockPtr} (h : Kept lm lm') (hs : lm.SyncAt l) :
    lm'.SyncAt l :=
  (h.balancedAt hs.balanced).sync fun c => by rw [h.labels]; exact hs.oneWriter c

/-- A side whose counter is zero has no entry. -/
theorem BalancedAt.held_of_count {lm : LockManager} {l : LockPtr} (hb : lm.BalancedAt l) {side : SubLock}
    (h : (lm.heap l).count side = 0) : lm.held (l, side) = 0 := by
  have hr := hb.readers
  have hw := hb.writers
  cases side <;> simp only [RWLock.count] at h <;> omega

theorem SyncAt.held_of_count {lm : LockManager} {l : LockPtr} (hs : lm.SyncAt l) {side : SubLock}
    (h : (lm.heap l).count side = 0) : lm.held (l, side) = 0 :=
  hs.balanced.held_of_count h

theorem BalancedAt.count_nonneg {lm : LockManager} {l : LockPtr} (hb : lm.BalancedAt l) (side : SubLock) :
    lm.held (l, side) ≤ (lm.heap l).count side := by
  cases side with
  | reader => exact hb.readers.ge
  | writer => exact hb.writers

theorem SyncAt.count_nonneg {lm : LockManager} {l : LockPtr} (hs : lm.SyncAt l) (side : SubLock) :
    lm.held (l, side) ≤ (lm.heap l).count side :=
  hs.balanced.count_nonneg side

theorem count_labels_sweep {l : LockPtr} {s : List TXN} {x : LockPtr × SubLock} (hx : x.1 ≠ l) :
    (labels (sweep l s)).count x = (labels s).count x := by
  have hp : (!decide (x = (l, SubLock.reader))) = true := by
    simp only [Bool.not_eq_eq_eq_not, Bool.not_true, decide_eq_false_iff_not]
    rintro rfl
    exact hx rfl
  have : labels (sweep l s) = (labels s).filter (fun y => !decide (y = (l, SubLock.reader))) := by
    simp only [labels, sweep, List.filter_map, ne_eq, decide_not]
    rfl
  rw [this]
  exact List.count_filter (p := fun y => !decide (y = (l, SubLock.reader))) hp

/-- Finishing transactions of one lock loses no entry of another. -/
theorem Finished.count_other {lm lm' : LockManager} {l : LockPtr} {ts : Nat} {side : SubLock}
    {rr found : Bool} {ctx ctxOld : Int} (h : Finished lm l ts side rr ctx ctxOld found lm')
    {x : LockPtr × SubLock} (hx : x.1 ≠ l) (c : Int) :
    (labels (lm'.stack c)).count x = (labels (lm.stack c)).count x := by
  by_cases hc : c = ctx
  · subst hc
    cases h with
    | found above t below msgs hs ha ht =>
      have hk : (labels (if rr then sweep l below else below)).count x = (labels below).count x := by
        split
        · exact count_labels_sweep hx
        · rfl
      have hne : ((l, side) == x) = false := by
        simp only [beq_eq_false_iff_ne]
        rintro rfl
        exact hx rfl
      rw [stack_closed, if_pos rfl, hs]
      simp [ht, hk, hne, List.count_cons]
    | missing msgs hn => simp [stack_closed]
  · rw [h.stack_other hc]

theorem Finished.held_other {lm lm' : LockManager} {l : LockPtr} {ts : Nat} {side : SubLock}
    {rr found : Bool} {ctx ctxOld : Int} (h : Finished lm l ts side rr ctx ctxOld found lm')
    {x : LockPtr × SubLock} (hx : x.1 ≠ l) : lm'.held x = lm.held x := by
  have := h.held x
  have := h.count_other hx ctx
  omega

/-- A plain close takes one entry away. -/
theorem Finished.count_closed {lm lm' : LockManager} {l : LockPtr} {ts : Nat} {side : SubLock}
    {ctx ctxOld : Int} (h : Finished lm l ts side false ctx ctxOld true lm') (x : LockPtr × SubLock) :
    (labels (lm'.stack ctx)).count x + (if x = (l, side) then 1 else 0) = (labels (lm.stack ctx)).count x := by
  rw [h.labels_closed, List.count_erase]
  by_cases hx : x = (l, side)
  · subst hx
    have := List.count_pos_iff.mpr h.mem_of_found
    simp only [beq_self_eq_true, if_true]
    omega
  · have hb : ((l, side) == x) = false := by simpa using Ne.symm hx
    simp only [hb, Bool.false_eq_true, if_false, hx]
    omega

theorem Finished.held_closed {lm lm' : LockManager} {l : LockPtr} {ts : Nat} {side : SubLock}
    {ctx ctxOld : Int} (h : Finished lm l ts side false ctx ctxOld true lm') (x : LockPtr × SubLock) :
    lm'.held x + (if x = (l, side) then 1 else 0) = lm.held x := by
  have := h.held x
  have := h.count_closed x
  omega

/-- The preparation of a `P()` does not touch the entries of other locks. -/
theorem Prepared.other {lm lm' : LockManager} {l : LockPtr} {ts : Nat} {ctx : Int} {side : SubLock}
    (h : Prepared lm l ts ctx side lm') {x : LockPtr × SubLock} (hx : x.1 ≠ l) :
    lm'.held x = lm.held x ∧ ∀ c, (labels (lm'.stack c)).count x = (labels (lm.stack c)).count x := by
  cases h with
  | plain => exact ⟨rfl, fun _ => rfl⟩
  | flushed side lm₁ msgs zero pos fin => exact ⟨fin.held_other hx, fin.count_other hx⟩
  | unflushed side _ zero pos fin => exact ⟨fin.held_other hx, fin.count_other hx⟩
  | reclosed lm₁ p ps pos zero once fin top => exact ⟨fin.held_other hx, fin.count_other hx⟩
  | unclosed _ pos zero once fin => exact ⟨fin.held_other hx, fin.count_other hx⟩

theorem Released.other {lm lm' : LockManager} {l : LockPtr} {ts : Nat} {ctx : Int} {side : SubLock}
    (h : Released lm l ts ctx side lm') {x : LockPtr × SubLock} (hx : x.1 ≠ l) :
    lm'.held x = lm.held x ∧ ∀ c, (labels (lm'.stack c)).count x = (labels (lm.stack c)).count x := by
  cases h with
  | closed lm₁ p ps msgs top fin => exact ⟨fin.held_other hx, fin.count_other hx⟩
  | unclosed lm₁ msgs some fin => exact ⟨fin.held_other hx, fin.count_other hx⟩
  | empty msgs none => exact ⟨rfl, fun _ => rfl⟩

theorem count_acquire (lm : LockManager) (l : LockPtr) (pos : LockPos) (ctx c : Int) (x : LockPtr × SubLock) :
    (labels ((lm.acquire l pos ctx).stack c)).count x =
      (labels (lm.stack c)).count x + if c = ctx ∧ x = (l, pos.subLock) then 1 else 0 := by
  rw [stack_acquire]
  by_cases hc : c = ctx
  · subst hc
    rw [if_pos rfl, labels_cons, List.count_cons]
    simp only [TXN.label, true_and, beq_iff_eq, eq_comm (a := x)]
  · simp [hc]

theorem transition_other {lm lm' : LockManager} {l : LockPtr} {e : LockEvent} {kernelDir : String} {ctx : Int}
    (h : lm.transition l e kernelDir ctx = .ok lm') {x : LockPtr × SubLock} (hx : x.1 ≠ l) :
    lm'.held x = lm.held x ∧ ∀ c, (labels (lm'.stack c)).count x = (labels (lm.stack c)).count x := by
  have hne : ∀ s, x ≠ (l, s) := by
    rintro s rfl
    exact hx rfl
  obtain ⟨-, ⟨-, lm₁, hp, rfl⟩ | ⟨-, hr⟩⟩ := transition_ok h
  · obtain ⟨hh, hc⟩ := hp.other hx
    refine ⟨?_, ?_⟩
    · rw [held_acquire, if_neg (hne _), hh]
      rfl
    · intro c
      rw [count_acquire, if_neg (fun h => hne _ h.2), hc]
      rfl
  · exact hr.other hx

/-- A transition of one lock keeps the others in step. -/
theorem BalancedAt.transition_other {lm lm' : LockManager} {k l : LockPtr} {e : LockEvent} {kernelDir : String}
    {ctx : Int} (hb : lm.BalancedAt k) (hk : k ≠ l) (h : lm.transition l e kernelDir ctx = .ok lm') :
    lm'.BalancedAt k := by
  have ho := fun s => LockManager.transition_other h (x := (k, s)) hk
  have hh := (transition_framed h).heap k hk
  refine ⟨?_, ?_, ?_⟩
  · rw [hh, (ho _).1, (ho _).1, hb.positions]
  · rw [hh, (ho _).1, hb.readers]
  · rw [hh, (ho _).1]
    exact hb.writers

theorem SyncAt.transition_other {lm lm' : LockManager} {k l : LockPtr} {e : LockEvent} {kernelDir : String}
    {ctx : Int} (hs : lm.SyncAt k) (hk : k ≠ l) (h : lm.transition l e kernelDir ctx = .ok lm') :
    lm'.SyncAt k := by
  refine (hs.balanced.transition_other hk h).sync ?_
  intro c
  rw [(LockManager.transition_other h (x := (k, .writer)) hk).2]
  exact hs.oneWriter c

/-- The `P()` of an event would flush `other` entries of its own context. -/
structure Flushes (lm : LockManager) (l : LockPtr) (side : SubLock) (ctx : Int) : Prop where
  zero : (lm.heap l).count side = 0
  pos : 0 < (lm.heap l).count side.other
  found : (l, side.other) ∈ labels (lm.stack ctx)

/-- No context but `ctx` has an entry of the lock. -/
def OnlyIn (lm : LockManager) (l : LockPtr) (ctx : Int) : Prop :=
  ∀ c, c ≠ ctx → ∀ x ∈ labels (lm.stack c), x.1 ≠ l

theorem Kept.flushes {lm lm' : LockManager} {l : LockPtr} {side : SubLock} {ctx : Int} (h : Kept lm lm') :
    lm'.Flushes l side ctx ↔ lm.Flushes l side ctx := by
  constructor
  · rintro ⟨hz, hp, hf⟩
    exact ⟨by rw [← h.count, hz], by rw [← h.count]; exact hp, by rw [← h.labels]; exact hf⟩
  · rintro ⟨hz, hp, hf⟩
    exact ⟨by rw [h.count, hz], by rw [h.count]; exact hp, by rw [h.labels]; exact hf⟩

theorem Kept.onlyIn {lm lm' : LockManager} {l : LockPtr} {ctx : Int} (h : Kept lm lm') :
    lm'.OnlyIn l ctx ↔ lm.OnlyIn l ctx := by
  simp only [OnlyIn, h.labels]

/-- A local flush leaves the lock without any entry. -/
theorem SyncAt.flushed {lm lm₁ : LockManager} {l : LockPtr} {ts : Nat} {ctx : Int} {side : SubLock}
    (hs : lm.SyncAt l) (zero : (lm.heap l).count side = 0)
    (fin : Finished lm l ts side.other true ctx ctx true lm₁) (hl : lm.OnlyIn l ctx) (s : SubLock) :
    lm₁.held (l, s) = 0 ∧ ∀ c, (l, s) ∉ labels (lm₁.stack c) := by
  have hside : ∀ x ∈ labels (lm.stack ctx), x.1 = l → x.2 = side.other := by
    rintro ⟨k, t⟩ hx rfl
    have hz := (held_eq_zero lm _).mp (hs.held_of_count zero) ctx
    cases t <;> cases side <;> simp_all [SubLock.other]
  have hctx : (l, s) ∉ labels (lm₁.stack ctx) := by
    rw [fin.labels_flushed hside (hs.oneWriter ctx)]
    simp
  have hall : ∀ c, (l, s) ∉ labels (lm₁.stack c) := by
    intro c
    by_cases hc : c = ctx
    · rw [hc]
      exact hctx
    · rw [fin.stack_other hc]
      exact fun hx => hl c hc _ hx rfl
  exact ⟨(held_eq_zero lm₁ _).mpr hall, hall⟩

theorem Finished.labels_unfound {lm lm₁ : LockManager} {l : LockPtr} {ts : Nat} {side : SubLock} {rr : Bool}
    {ctx ctxOld : Int} (fin : Finished lm l ts side rr ctx ctxOld false lm₁) (c : Int) :
    labels (lm₁.stack c) = labels (lm.stack c) := by
  by_cases hc : c = ctx
  · rw [hc, fin.labels_missing]
  · rw [fin.stack_other hc]

theorem Finished.held_unfound {lm lm₁ : LockManager} {l : LockPtr} {ts : Nat} {side : SubLock} {rr : Bool}
    {ctx ctxOld : Int} (fin : Finished lm l ts side rr ctx ctxOld false lm₁) (x : LockPtr × SubLock) :
    lm₁.held x = lm.held x := by
  have := fin.held x
  rw [fin.labels_unfound] at this
  omega

theorem BalancedAt.unfound {lm lm₁ : LockManager} {l k : LockPtr} {ts : Nat} {side : SubLock} {rr : Bool}
    {ctx ctxOld : Int} (hb : lm.BalancedAt k) (fin : Finished lm l ts side rr ctx ctxOld false lm₁) :
    lm₁.BalancedAt k where
  positions := by rw [fin.held_unfound, fin.held_unfound, fin.heap_eq, hb.positions]
  readers := by rw [fin.held_unfound, fin.heap_eq, hb.readers]
  writers := by rw [fin.held_unfound, fin.heap_eq]; exact hb.writers

/-- After the preparation of a `P()` the lock is balanced, if a flush leaves no entry of it. -/
theorem BalancedAt.prepared {lm lm₁ : LockManager} {l : LockPtr} {ts : Nat} {ctx : Int} {side : SubLock}
    (hb : lm.BalancedAt l) (h : Prepared lm l ts ctx side lm₁)
    (hflush : ∀ lm₂, (lm.heap l).count side = 0 → 0 < (lm.heap l).count side.other →
      Finished lm l ts side.other true ctx ctx true lm₂ → ∀ s, lm₂.held (l, s) = 0) : lm₁.BalancedAt l := by
  cases h with
  | plain _ noFlush oneSide again => exact hb
  | flushed _ lm₂ msgs zero pos fin =>
    have hz := hflush lm₂ zero pos fin
    refine ⟨?_, ?_, ?_⟩
    · simp [hz .reader, hz .writer, RWLock.drain]
    · cases side with
      | reader =>
        simp only [RWLock.count] at zero
        simpa [hz .reader, RWLock.drain, SubLock.other, RWLock.setCount] using zero
      | writer => simp [hz .reader, RWLock.drain, SubLock.other, RWLock.setCount]
    · cases side with
      | reader => simp [hz .writer, RWLock.drain, SubLock.other, RWLock.setCount]
      | writer =>
        have hw := hb.writers
        simp only [RWLock.count] at zero
        simp [hz .writer, RWLock.drain, SubLock.other, RWLock.setCount]
        omega
  | unflushed _ _ zero pos fin => exact hb.unfound fin
  | reclosed lm₂ p ps pos zero once fin top =>
    have hW := fin.held_closed (l, .writer)
    have hR := fin.held_closed (l, .reader)
    simp only [if_true, reduceCtorEq, Prod.mk.injEq, and_false, if_false] at hW hR
    refine ⟨?_, ?_, ?_⟩
    · have hp := hb.positions
      rw [top] at hp
      simp only [List.length_cons] at hp
      simp only [heap_setLock, if_true, held_setLock]
      omega
    · have := hb.readers
      simp only [heap_setLock, if_true, held_setLock]
      omega
    · have := hb.writers
      simp only [heap_setLock, if_true, held_setLock]
      omega
  | unclosed _ pos zero once fin => exact hb.unfound fin

/-- After the preparation of a `P()` the lock is in step, and a `P_WRITE` finds no
entry of its own on the stack. -/
theorem SyncAt.prepared {lm lm₁ : LockManager} {l : LockPtr} {ts : Nat} {ctx : Int} {side : SubLock}
    (hs : lm.SyncAt l) (hr : isRecursive (lm.heap l).flags = false) (h : Prepared lm l ts ctx side lm₁)
    (hl : lm.Flushes l side ctx → lm.OnlyIn l ctx) :
    lm₁.SyncAt l ∧ (side = .writer → (labels (lm₁.stack ctx)).count (l, .writer) = 0) := by
  have hflush : ∀ lm₂, (lm.heap l).count side = 0 → 0 < (lm.heap l).count side.other →
      Finished lm l ts side.other true ctx ctx true lm₂ → ∀ s, lm₂.held (l, s) = 0 :=
    fun lm₂ zero pos fin s => (hs.flushed zero fin (hl ⟨zero, pos, fin.mem_of_found⟩) s).1
  have hb := hs.balanced.prepared h hflush
  have unfound : ∀ {rr s lm₁}, Finished lm l ts s rr ctx ctx false lm₁ →
      ∀ c, (labels (lm₁.stack c)).count (l, .writer) ≤ 1 := by
    intro rr s lm₁ fin c
    rw [fin.labels_unfound]
    exact hs.oneWriter c
  have none_of_zero : lm.held (l, .writer) = 0 → (labels (lm.stack ctx)).count (l, .writer) = 0 := by
    intro hz
    have := lm.count_le_held ctx (l, .writer)
    omega
  cases h with
  | plain _ noFlush oneSide again =>
    refine ⟨hs, ?_⟩
    rintro rfl
    apply none_of_zero
    have hw := hs.writers
    have hrd := hs.readers
    simp only [RWLock.count, SubLock.other] at noFlush
    by_cases hpos : 0 < (lm.heap l).writerCount
    · by_cases hz : (lm.heap l).readerCount = 0
      · rw [again rfl hpos hz] at hr
        cases hr
      · omega
    · omega
  | flushed _ lm₂ msgs zero pos fin =>
    have hz := fun c => (hs.flushed zero fin (hl ⟨zero, pos, fin.mem_of_found⟩) .writer).2 c
    refine ⟨hb.sync ?_, ?_⟩
    · intro c
      rw [stack_stderr, stack_setLock, List.count_eq_zero.mpr (hz c)]
      omega
    · intro _
      exact List.count_eq_zero.mpr (hz ctx)
  | unflushed _ _ zero pos fin =>
    refine ⟨hb.sync (unfound fin), ?_⟩
    rintro rfl
    rw [fin.labels_missing]
    exact none_of_zero (hs.held_of_count zero)
  | reclosed lm₂ p ps pos zero once fin top =>
    have hcount := fin.count_closed (l, .writer)
    have hone := hs.oneWriter ctx
    simp only [if_true] at hcount
    refine ⟨hb.sync ?_, ?_⟩
    · intro c
      rw [stack_setLock]
      by_cases hc : c = ctx
      · rw [hc]
        omega
      · rw [fin.stack_other hc]
        exact hs.oneWriter c
    · intro _
      rw [stack_setLock]
      omega
  | unclosed _ pos zero once fin =>
    refine ⟨hb.sync (unfound fin), ?_⟩
    intro _
    rw [fin.labels_missing]
    exact List.count_eq_zero.mpr fin.not_mem_of_missing

/-- Counting, pushing and opening go together. -/
theorem BalancedAt.acquire {lm : LockManager} {l : LockPtr} {ctx : Int} (hb : lm.BalancedAt l) (pos : LockPos) :
    (lm.acquire l pos ctx).BalancedAt l := by
  have hheap : (lm.acquire l pos ctx).heap l = (lm.heap l).push pos := by
    simp [LockManager.acquire, startTXN, setStack]
  have hp := hb.positions
  have hr := hb.readers
  have hwr := hb.writers
  refine ⟨?_, ?_, ?_⟩
  · rw [hheap, held_acquire, held_acquire]
    cases hside : pos.subLock <;> simp [RWLock.push, hp] <;> omega
  · rw [hheap, held_acquire]
    cases hside : pos.subLock <;> simp [RWLock.push, RWLock.setCount, RWLock.count, hside, hr]
  · rw [hheap, held_acquire]
    cases hside : pos.subLock <;> simp [RWLock.push, RWLock.setCount, RWLock.count, hside, hwr]

theorem SyncAt.acquire {lm : LockManager} {l : LockPtr} {ctx : Int} (hs : lm.SyncAt l) (pos : LockPos)
    (hw : pos.subLock = .writer → (labels (lm.stack ctx)).count (l, .writer) = 0) :
    (lm.acquire l pos ctx).SyncAt l := by
  refine (hs.balanced.acquire pos).sync ?_
  intro c
  rw [count_acquire]
  by_cases hc : c = ctx
  · subst hc
    have hone := hs.oneWriter c
    cases hside : pos.subLock with
    | reader => simpa using hone
    | writer => simp [hw hside]
  · simpa [hc] using hs.oneWriter c

/-- A `V()` keeps the lock balanced. -/
theorem BalancedAt.released {lm lm' : LockManager} {l : LockPtr} {ts : Nat} {ctx : Int} {side : SubLock}
    (hb : lm.BalancedAt l) (h : Released lm l ts ctx side lm') : lm'.BalancedAt l := by
  have hp := hb.positions
  have hr := hb.readers
  have hw := hb.writers
  -- Without an entry only the write counter can move, and it stays above zero.
  have uncounted : lm.held (l, side) = 0 → ∀ {lm₁ : LockManager} (lk : RWLock), lk = (lm.heap l).uncount side →
      lm₁.heap l = lk → (∀ x, lm₁.held x = lm.held x) → lm₁.BalancedAt l := by
    rintro hz lm₁ lk rfl hk hheld
    refine ⟨?_, ?_, ?_⟩
    · rw [hk, hheld, hheld, RWLock.lastNPos_uncount, hp]
    · rw [hk, hheld]
      cases side with
      | reader =>
        have : (lm.heap l).count .reader = 0 := by simp only [RWLock.count]; omega
        simp [RWLock.uncount, this, hr]
      | writer => rw [← hr]; exact (lm.heap l).count_uncount_other .writer
    · rw [hk, hheld]
      cases side with
      | reader =>
        have := (lm.heap l).count_uncount_other .reader
        simp only [RWLock.count, SubLock.other] at this
        omega
      | writer =>
        have hnn : 0 ≤ (lm.heap l).count .writer := by
          simp only [RWLock.count]
          omega
        have hu := (lm.heap l).count_uncount_nonneg .writer hnn
        simp only [RWLock.count] at hu
        omega
  cases h with
  | closed lm₁ p ps msgs top fin =>
    have hW := fin.held_closed (l, .writer)
    have hR := fin.held_closed (l, .reader)
    have hne : (lm.heap l).count side ≠ 0 := by
      have := hb.count_nonneg side
      have := held_pos_of_mem fin.mem_of_found
      omega
    rw [top, List.length_cons] at hp
    refine ⟨?_, ?_, ?_⟩
    · simp only [heap_setLock, if_true, held_setLock, held_stderr, RWLock.lastNPos_uncount]
      cases side <;> simp only [if_true, reduceCtorEq, Prod.mk.injEq, and_false, if_false] at hW hR <;> omega
    · simp only [heap_setLock, if_true, held_setLock, held_stderr]
      cases side <;> simp only [if_true, reduceCtorEq, Prod.mk.injEq, and_false, if_false] at hW hR <;>
        simp only [RWLock.count] at hne <;>
        simp only [RWLock.uncount, RWLock.count, hne, RWLock.setCount, if_false] <;> omega
    · simp only [heap_setLock, if_true, held_setLock, held_stderr]
      cases side <;> simp only [if_true, reduceCtorEq, Prod.mk.injEq, and_false, if_false] at hW hR <;>
        simp only [RWLock.count] at hne <;>
        simp only [RWLock.uncount, RWLock.count, hne, RWLock.setCount, if_false] <;> omega
  | unclosed lm₁ msgs some fin =>
    have hz : lm.held (l, side) = 0 := by
      rw [held_eq_zero]
      intro c hc
      exact fin.not_mem_of_missing (releaseCtx_mem ctx hc)
    refine uncounted hz _ rfl (by simp) ?_
    intro x
    rw [held_stderr, held_setLock, fin.held_unfound]
  | empty msgs none =>
    have hz : lm.held (l, side) = 0 := by
      rw [none] at hp
      simp only [List.length_nil] at hp
      cases side <;> omega
    exact uncounted hz _ rfl (by simp) (fun _ => rfl)

/-- A `V()` adds no entry. -/
theorem SyncAt.released {lm lm' : LockManager} {l : LockPtr} {ts : Nat} {ctx : Int} {side : SubLock}
    (hs : lm.SyncAt l) (h : Released lm l ts ctx side lm') : lm'.SyncAt l :=
  (hs.balanced.released h).sync fun c =>
    Nat.le_trans ((h.labels_sublist c).count_le (l, .writer)) (hs.oneWriter c)

/-- A transition without the recursive flag keeps every lock in step, if a flush
finds no entry of the lock in another context. -/
theorem SyncAt.transition {lm lm' : LockManager} {k l : LockPtr} {e : LockEvent} {kernelDir : String}
    {ctx : Int} (hk : lm.SyncAt k) (hs : lm.SyncAt l) (hr : isRecursive e.flags = false)
    (hl : e.op.isP = true → lm.Flushes l e.op.side ctx → lm.OnlyIn l ctx)
    (h : lm.transition l e kernelDir ctx = .ok lm') : lm'.SyncAt k := by
  by_cases hkl : k = l
  · subst hkl
    have hu := kept_updateFlags lm k e.flags
    have hs' := hu.syncAt hs
    obtain ⟨-, ⟨hP, lm₁, hp, rfl⟩ | ⟨-, hrel⟩⟩ := transition_ok h
    · have hflags : isRecursive ((lm.updateFlags k e.flags).heap k).flags = false := by
        simpa [updateFlags, RWLock.updateFlags] using hr
      obtain ⟨h₁, hw⟩ := hs'.prepared hflags hp
        (fun hf => hu.onlyIn.mpr (hl hP (hu.flushes.mp hf)))
      exact h₁.acquire _ hw
    · exact hs'.released hrel
  · exact hk.transition_other hkl h

end LockManager

end LockDoc.Convert
