import LockDoc.Convert.Count

/-!
# What a transition leaves alone

A transition of a lock changes counters, flags and positions of this lock, the
stack of one context, and the rows of closed transactions. Everything else stays.
-/
namespace LockDoc.Convert

namespace LockManager

/-- Only the lock `l` may have changed, and neither its class, its ids nor where it resides. -/
structure Framed (l : LockPtr) (lm lm' : LockManager) : Prop where
  heap : ∀ k, k ≠ l → lm'.heap k = lm.heap k
  cls : (lm'.heap l).cls = (lm.heap l).cls
  idOf : ∀ s, (lm'.heap l).idOf s = (lm.heap l).idOf s
  address : (lm'.heap l).lockAddress = (lm.heap l).lockAddress
  allocationId : (lm'.heap l).allocationId = (lm.heap l).allocationId
  objects : lm'.objects = lm.objects
  locks : lm'.locks = lm.locks
  nextLockID : lm'.nextLockID = lm.nextLockID

theorem Framed.refl (l : LockPtr) (lm : LockManager) : Framed l lm lm :=
  ⟨fun _ _ => rfl, rfl, fun _ => rfl, rfl, rfl, rfl, rfl, rfl⟩

theorem Framed.trans {l : LockPtr} {lm₁ lm₂ lm₃ : LockManager} (h : Framed l lm₁ lm₂) (h' : Framed l lm₂ lm₃) :
    Framed l lm₁ lm₃ where
  heap k hk := (h'.heap k hk).trans (h.heap k hk)
  cls := h'.cls.trans h.cls
  idOf s := (h'.idOf s).trans (h.idOf s)
  address := h'.address.trans h.address
  allocationId := h'.allocationId.trans h.allocationId
  objects := h'.objects.trans h.objects
  locks := h'.locks.trans h.locks
  nextLockID := h'.nextLockID.trans h.nextLockID

theorem framed_setLock {l : LockPtr} {lm : LockManager} {lk : RWLock} (hc : lk.cls = (lm.heap l).cls)
    (hi : ∀ s, lk.idOf s = (lm.heap l).idOf s) (ha : lk.lockAddress = (lm.heap l).lockAddress)
    (he : lk.allocationId = (lm.heap l).allocationId) : Framed l lm (lm.setLock l lk) where
  heap k hk := by simp [hk]
  cls := by simpa using hc
  idOf s := by simpa using hi s
  address := by simpa using ha
  allocationId := by simpa using he
  objects := rfl
  locks := rfl
  nextLockID := rfl

theorem framed_stderr (l : LockPtr) (lm : LockManager) (msgs : List Msg) :
    Framed l lm { lm with stderr := msgs } :=
  ⟨fun _ _ => rfl, rfl, fun _ => rfl, rfl, rfl, rfl, rfl, rfl⟩

theorem Finished.framed {lm lm' : LockManager} {k l : LockPtr} {ts : Nat} {side : SubLock}
    {rr found : Bool} {ctx ctxOld : Int} (h : Finished lm l ts side rr ctx ctxOld found lm') :
    Framed k lm lm' := by
  cases h <;> exact ⟨fun _ _ => rfl, rfl, fun _ => rfl, rfl, rfl, rfl, rfl, rfl⟩

theorem address_setCount (lk : RWLock) (s : SubLock) (n : Int) :
    (lk.setCount s n).lockAddress = lk.lockAddress := by cases s <;> rfl

theorem address_uncount (lk : RWLock) (s : SubLock) : (lk.uncount s).lockAddress = lk.lockAddress := by
  unfold RWLock.uncount
  split
  · rfl
  · exact address_setCount lk s _

theorem allocationId_setCount (lk : RWLock) (s : SubLock) (n : Int) :
    (lk.setCount s n).allocationId = lk.allocationId := by cases s <;> rfl

theorem allocationId_uncount (lk : RWLock) (s : SubLock) : (lk.uncount s).allocationId = lk.allocationId := by
  unfold RWLock.uncount
  split
  · rfl
  · exact allocationId_setCount lk s _

theorem idOf_drain (lk : RWLock) (s t : SubLock) : (lk.drain s).idOf t = lk.idOf t := by
  cases s <;> cases t <;> rfl

theorem idOf_push (lk : RWLock) (p : LockPos) (t : SubLock) : (lk.push p).idOf t = lk.idOf t := by
  cases hp : p.subLock <;> cases t <;> simp [RWLock.push, RWLock.setCount, RWLock.idOf, hp]

theorem idOf_lastNPos (lk : RWLock) (ps : List LockPos) (t : SubLock) :
    RWLock.idOf { lk with lastNPos := ps } t = lk.idOf t := by cases t <;> rfl

/-- Besides, no stack and no row has changed. -/
structure Touched (l : LockPtr) (lm lm' : LockManager) : Prop extends Framed l lm lm' where
  activeTXNs : lm'.activeTXNs = lm.activeTXNs
  nextTXNID : lm'.nextTXNID = lm.nextTXNID
  txnsOFile : lm'.txnsOFile = lm.txnsOFile
  locksHeldOFile : lm'.locksHeldOFile = lm.locksHeldOFile

theorem Touched.refl (l : LockPtr) (lm : LockManager) : Touched l lm lm := ⟨Framed.refl l lm, rfl, rfl, rfl, rfl⟩

theorem touched_setLock {l : LockPtr} {lm : LockManager} {lk : RWLock} (hc : lk.cls = (lm.heap l).cls)
    (hi : ∀ s, lk.idOf s = (lm.heap l).idOf s) (ha : lk.lockAddress = (lm.heap l).lockAddress)
    (he : lk.allocationId = (lm.heap l).allocationId) (msgs : List Msg) :
    Touched l lm { lm.setLock l lk with stderr := msgs } :=
  ⟨(framed_setLock hc hi ha he).trans (framed_stderr l _ msgs), rfl, rfl, rfl, rfl⟩

theorem Touched.stack {l : LockPtr} {lm lm' : LockManager} (h : Touched l lm lm') (c : Int) :
    lm'.stack c = lm.stack c := by
  rw [LockManager.stack, LockManager.stack, h.activeTXNs]

/-- The preparation of a `P()` finishes transactions at most once, and then only touches its lock. -/
theorem Prepared.touched {lm lm' : LockManager} {l : LockPtr} {ts : Nat} {ctx : Int} {side : SubLock}
    (h : Prepared lm l ts ctx side lm') :
    ∃ lm₁, (lm₁ = lm ∨ ∃ s rr found, Finished lm l ts s rr ctx ctx found lm₁) ∧ Touched l lm₁ lm' := by
  cases h with
  | plain => exact ⟨lm, .inl rfl, Touched.refl l lm⟩
  | flushed side lm₁ msgs zero pos fin =>
    refine ⟨lm₁, .inr ⟨_, _, _, fin⟩, touched_setLock ?_ ?_ ?_ ?_ msgs⟩
    · rw [fin.heap_eq]
      exact (lm.heap l).cls_setCount side.other 0
    · intro s
      rw [fin.heap_eq, idOf_drain]
    · rw [fin.heap_eq]
      exact address_setCount (lm.heap l) side.other 0
    · rw [fin.heap_eq]
      exact allocationId_setCount (lm.heap l) side.other 0
  | unflushed side _ zero pos fin => exact ⟨lm', .inr ⟨_, _, _, fin⟩, Touched.refl l lm'⟩
  | reclosed lm₁ p ps pos zero once fin top =>
    refine ⟨lm₁, .inr ⟨_, _, _, fin⟩, touched_setLock ?_ ?_ ?_ ?_ lm₁.stderr⟩
    · rw [fin.heap_eq]
    · intro s
      rw [fin.heap_eq, idOf_lastNPos]
    · rw [fin.heap_eq]
    · rw [fin.heap_eq]
  | unclosed _ pos zero once fin => exact ⟨lm', .inr ⟨_, _, _, fin⟩, Touched.refl l lm'⟩

theorem Prepared.framed {lm lm' : LockManager} {l : LockPtr} {ts : Nat} {ctx : Int} {side : SubLock}
    (h : Prepared lm l ts ctx side lm') : Framed l lm lm' := by
  obtain ⟨lm₁, rfl | ⟨_, _, _, fin⟩, ht⟩ := h.touched
  · exact ht.toFramed
  · exact fin.framed.trans ht.toFramed

theorem acquire_framed (lm : LockManager) (l : LockPtr) (pos : LockPos) (ctx : Int) :
    Framed l lm (lm.acquire l pos ctx) := by
  have h : Framed l lm (lm.setLock l ((lm.heap l).push pos)) :=
    framed_setLock ((lm.heap l).cls_setCount pos.subLock _) (idOf_push _ pos)
      (address_setCount (lm.heap l) pos.subLock _) (allocationId_setCount (lm.heap l) pos.subLock _)
  exact h.trans ⟨fun _ _ => rfl, rfl, fun _ => rfl, rfl, rfl, rfl, rfl, rfl⟩

/-- A `V()` finishes transactions at most once, and then only touches its lock. -/
theorem Released.touched {lm lm' : LockManager} {l : LockPtr} {ts : Nat} {ctx : Int} {side : SubLock}
    (h : Released lm l ts ctx side lm') :
    ∃ lm₁, (lm₁ = lm ∨ ∃ found, Finished lm l ts side false (lm.releaseCtx l side ctx) ctx found lm₁) ∧
      Touched l lm₁ lm' := by
  cases h with
  | closed lm₁ p ps msgs top fin =>
    refine ⟨lm₁, .inr ⟨_, fin⟩, touched_setLock ?_ ?_ ?_ ?_ msgs⟩
    · rw [fin.heap_eq, RWLock.cls_uncount]
    · intro s
      rw [fin.heap_eq, RWLock.idOf_uncount, idOf_lastNPos]
    · rw [fin.heap_eq, address_uncount]
    · rw [fin.heap_eq, allocationId_uncount]
  | unclosed lm₁ msgs some fin =>
    refine ⟨lm₁, .inr ⟨_, fin⟩, touched_setLock ?_ ?_ ?_ ?_ msgs⟩
    · rw [fin.heap_eq, RWLock.cls_uncount]
    · intro s
      rw [fin.heap_eq, RWLock.idOf_uncount]
    · rw [fin.heap_eq, address_uncount]
    · rw [fin.heap_eq, allocationId_uncount]
  | empty msgs none =>
    refine ⟨lm, .inl rfl, touched_setLock ?_ ?_ ?_ ?_ msgs⟩
    · exact RWLock.cls_uncount _ _
    · exact RWLock.idOf_uncount _ _
    · exact address_uncount _ _
    · exact allocationId_uncount _ _

theorem Released.framed {lm lm' : LockManager} {l : LockPtr} {ts : Nat} {ctx : Int} {side : SubLock}
    (h : Released lm l ts ctx side lm') : Framed l lm lm' := by
  obtain ⟨lm₁, rfl | ⟨_, fin⟩, ht⟩ := h.touched
  · exact ht.toFramed
  · exact fin.framed.trans ht.toFramed

theorem updateFlags_touched (lm : LockManager) (l : LockPtr) (flags : Nat) :
    Touched l lm (lm.updateFlags l flags) :=
  ⟨framed_setLock rfl (fun s => by cases s <;> rfl) rfl rfl, rfl, rfl, rfl, rfl⟩

theorem updateFlags_framed (lm : LockManager) (l : LockPtr) (flags : Nat) :
    Framed l lm (lm.updateFlags l flags) :=
  (updateFlags_touched lm l flags).toFramed

theorem transition_framed {lm lm' : LockManager} {l : LockPtr} {e : LockEvent} {kernelDir : String} {ctx : Int}
    (h : lm.transition l e kernelDir ctx = .ok lm') : Framed l lm lm' := by
  obtain ⟨-, ⟨-, lm₁, hp, rfl⟩ | ⟨-, hr⟩⟩ := transition_ok h
  · exact ((updateFlags_framed lm l e.flags).trans hp.framed).trans (acquire_framed lm₁ l _ ctx)
  · exact (updateFlags_framed lm l e.flags).trans hr.framed

/-- Finishing transactions opens no entry of a new sub lock, in any context. -/
theorem Finished.labels_sublist_any {lm lm' : LockManager} {l : LockPtr} {ts : Nat} {side : SubLock}
    {rr found : Bool} {ctx ctxOld : Int} (h : Finished lm l ts side rr ctx ctxOld found lm') (c : Int) :
    (labels (lm'.stack c)).Sublist (labels (lm.stack c)) := by
  by_cases hc : c = ctx
  · rw [hc]
    exact h.labels_sublist
  · rw [h.stack_other hc]

theorem Prepared.labels_sublist {lm lm' : LockManager} {l : LockPtr} {ts : Nat} {ctx : Int} {side : SubLock}
    (h : Prepared lm l ts ctx side lm') (c : Int) :
    (labels (lm'.stack c)).Sublist (labels (lm.stack c)) := by
  obtain ⟨lm₁, hfin, ht⟩ := h.touched
  rw [ht.stack]
  rcases hfin with rfl | ⟨_, _, _, fin⟩
  · exact List.Sublist.refl _
  · exact fin.labels_sublist_any c

theorem Released.labels_sublist {lm lm' : LockManager} {l : LockPtr} {ts : Nat} {ctx : Int} {side : SubLock}
    (h : Released lm l ts ctx side lm') (c : Int) :
    (labels (lm'.stack c)).Sublist (labels (lm.stack c)) := by
  obtain ⟨lm₁, hfin, ht⟩ := h.touched
  rw [ht.stack]
  rcases hfin with rfl | ⟨_, fin⟩
  · exact List.Sublist.refl _
  · exact fin.labels_sublist_any c

theorem stack_acquire (lm : LockManager) (l : LockPtr) (pos : LockPos) (ctx c : Int) :
    (lm.acquire l pos ctx).stack c =
      if c = ctx then ⟨lm.nextTXNID, pos.start, ctx, 0, l, pos.subLock⟩ :: lm.stack ctx else lm.stack c :=
  stack_insert (lm.setLock l ((lm.heap l).push pos)) ctx c _

theorem held_acquire (lm : LockManager) (l : LockPtr) (pos : LockPos) (ctx : Int) (x : LockPtr × SubLock) :
    (lm.acquire l pos ctx).held x = lm.held x + if x = (l, pos.subLock) then 1 else 0 := by
  have h := held_setStack (lm.setLock l ((lm.heap l).push pos)) ctx
    (⟨lm.nextTXNID, pos.start, ctx, 0, l, pos.subLock⟩ :: lm.stack ctx) x
  rw [labels_cons, List.count_cons, held_setLock, stack_setLock] at h
  simp only [TXN.label, beq_iff_eq, eq_comm (a := (l, pos.subLock))] at h
  change (lm.acquire l pos ctx).held x + _ = _ at h
  omega

/-- A transition opens entries of its own sub lock only. -/
theorem transition_labels {lm lm' : LockManager} {l : LockPtr} {e : LockEvent} {kernelDir : String} {ctx : Int}
    (h : lm.transition l e kernelDir ctx = .ok lm') {c : Int} {x : LockPtr × SubLock}
    (hx : x ∈ labels (lm'.stack c)) : x ∈ labels (lm.stack c) ∨ x = (l, e.op.side) := by
  obtain ⟨-, ⟨-, lm₁, hp, rfl⟩ | ⟨-, hr⟩⟩ := transition_ok h
  · rw [stack_acquire] at hx
    split at hx
    · subst c
      rcases List.mem_cons.mp hx with hx | hx
      · exact .inr hx
      · exact .inl ((hp.labels_sublist ctx).subset hx)
    · exact .inl ((hp.labels_sublist c).subset hx)
  · exact .inl ((hr.labels_sublist c).subset hx)

end LockManager

end LockDoc.Convert
