import LockDoc.Convert.References

/-!
# Ids and rows

Transaction ids are used once: an open transaction is never one that has been
recorded, and no two are open under one id. Lock ids are used once as well. So the
rows of a recorded transaction list each sub lock of its stack once, and no later
row can add to them.
-/
namespace LockDoc.Convert

namespace LockManager

/-- The transaction ids in use. -/
structure IdsFresh (lm : LockManager) : Prop where
  openLt : ∀ c, ∀ t ∈ lm.stack c, t.id < lm.nextTXNID
  nodup : ∀ c, ((lm.stack c).map TXN.id).Nodup
  apart : ∀ c d, c ≠ d → ∀ t ∈ lm.stack c, ∀ u ∈ lm.stack d, t.id ≠ u.id
  txns : ∀ r ∈ lm.txnsOFile, r.id < lm.nextTXNID ∧ ∀ c, ∀ t ∈ lm.stack c, t.id ≠ r.id
  locks : ∀ r ∈ lm.locksHeldOFile, r.txnId < lm.nextTXNID ∧ ∀ c, ∀ t ∈ lm.stack c, t.id ≠ r.txnId

theorem heldRows_txnId {heap : LockPtr → RWLock} {tid : Nat} {s : List TXN} {seen : List Nat} :
    ∀ row ∈ heldRows heap tid s seen, row.txnId = tid := by
  induction s generalizing seen with
  | nil => simp [heldRows]
  | cons t rest ih =>
    intro row hrow
    unfold heldRows at hrow
    split at hrow
    · split at hrow
      · exact ih row hrow
      · dsimp only at hrow
        split at hrow
        · exact ih row hrow
        · rcases List.mem_cons.mp hrow with rfl | hrow
          · rfl
          · exact ih row hrow
    · exact ih row hrow

theorem closedHeldRows_txnId {heap : LockPtr → RWLock} {popped below : List TXN} :
    ∀ row ∈ closedHeldRows heap popped below, ∃ u ∈ popped, row.txnId = u.id := by
  induction popped with
  | nil => simp [closedHeldRows]
  | cons t popped ih =>
    intro row hrow
    rw [closedHeldRows, List.mem_append] at hrow
    rcases hrow with hrow | hrow
    · split at hrow
      · exact ⟨t, List.mem_cons_self, heldRows_txnId row hrow⟩
      · simp at hrow
    · obtain ⟨u, hu, he⟩ := ih row hrow
      exact ⟨u, List.mem_cons_of_mem _ hu, he⟩

theorem txnRows_id {ts : Nat} {c : Int} {popped : List TXN} :
    ∀ r ∈ txnRows ts c popped, ∃ u ∈ popped, r.id = u.id := by
  intro r hr
  obtain ⟨u, hu, rfl⟩ := List.mem_map.mp hr
  exact ⟨u, (List.mem_filter.mp hu).1, rfl⟩

section

variable {lm : LockManager} {ts : Nat} {ctx ctxOld : Int} {above popped below kept : List TXN} {msgs : List Msg}

/-- After a stack was taken apart, every open transaction is a reopened one, one that was kept, or one
of another context. -/
theorem mem_stack_closed {c : Int} {t : TXN} (ht : t ∈ (lm.closed ts ctx ctxOld above popped below kept msgs).stack c) :
    (lm.nextTXNID ≤ t.id ∧ t.id < lm.nextTXNID + above.length ∧ c = ctx) ∨ (c = ctx ∧ t ∈ kept) ∨
      (c ≠ ctx ∧ t ∈ lm.stack c) := by
  rw [stack_closed] at ht
  split at ht
  · rename_i hc
    rcases List.mem_append.mp ht with ht | ht
    · have := mem_restart ht
      exact .inl ⟨this.1, this.2.1, hc⟩
    · exact .inr (.inl ⟨hc, ht⟩)
  · rename_i hc
    exact .inr (.inr ⟨hc, ht⟩)

/-- An id that was not open before is not open afterwards, unless it is a new one. -/
theorem closed_keeps_retired (hkept : ∀ t ∈ kept, t ∈ lm.stack ctx) {i : Nat}
    (hi : i < lm.nextTXNID ∧ ∀ c, ∀ t ∈ lm.stack c, t.id ≠ i) :
    i < lm.nextTXNID + above.length ∧
      ∀ c, ∀ t ∈ (lm.closed ts ctx ctxOld above popped below kept msgs).stack c, t.id ≠ i := by
  obtain ⟨hi, hne⟩ := hi
  refine ⟨by omega, ?_⟩
  intro c t ht
  rcases mem_stack_closed ht with ⟨hge, -, -⟩ | ⟨-, htk⟩ | ⟨-, ht⟩
  · omega
  · exact hne ctx t (hkept t htk)
  · exact hne c t ht

/-- The ids of the transactions that were closed are not open any more. -/
theorem IdsFresh.closed_retires (h : lm.IdsFresh) (hs : lm.stack ctx = popped ++ below) (hk : kept.Sublist below)
    {u : TXN} (hu : u ∈ popped) : u.id < lm.nextTXNID + above.length ∧
      ∀ c, ∀ t ∈ (lm.closed ts ctx ctxOld above popped below kept msgs).stack c, t.id ≠ u.id := by
  have hnd := h.nodup ctx
  rw [hs, List.map_append, List.nodup_append] at hnd
  have hmem : u ∈ lm.stack ctx := by
    rw [hs]
    exact List.mem_append_left _ hu
  have hlt := h.openLt ctx u hmem
  refine ⟨by omega, ?_⟩
  intro c t ht
  rcases mem_stack_closed ht with ⟨hge, -, -⟩ | ⟨-, htk⟩ | ⟨hc, ht⟩
  · omega
  · intro he
    exact hnd.2.2 u.id (List.mem_map_of_mem hu) t.id (List.mem_map_of_mem (hk.subset htk)) he.symm
  · exact h.apart c ctx hc t ht u hmem

/-- Taking a stack apart uses each id once. -/
theorem IdsFresh.closed (h : lm.IdsFresh) (hs : lm.stack ctx = popped ++ below) (hk : kept.Sublist below) :
    (lm.closed ts ctx ctxOld above popped below kept msgs).IdsFresh := by
  have hnd := h.nodup ctx
  rw [hs, List.map_append, List.nodup_append] at hnd
  have hkept : ∀ t ∈ kept, t ∈ lm.stack ctx := fun t ht => by
    rw [hs]
    exact List.mem_append_right _ (hk.subset ht)
  refine ⟨?_, ?_, ?_, ?_, ?_⟩
  · intro c t ht
    change t.id < lm.nextTXNID + above.length
    rcases mem_stack_closed ht with ⟨-, hlt, -⟩ | ⟨-, htk⟩ | ⟨-, ht⟩
    · exact hlt
    · have := h.openLt ctx t (hkept t htk)
      omega
    · have := h.openLt c t ht
      omega
  · intro c
    rw [stack_closed]
    split
    · rw [List.map_append, List.nodup_append]
      refine ⟨nodup_restart ts ctx _ above, (hk.map TXN.id).nodup hnd.2.1, ?_⟩
      intro i hi j hj he
      obtain ⟨t, ht, rfl⟩ := List.mem_map.mp hi
      obtain ⟨u, hu, rfl⟩ := List.mem_map.mp hj
      have := (mem_restart ht).1
      have := h.openLt ctx u (hkept u hu)
      omega
    · exact h.nodup c
  · intro c d hcd t ht u hu
    rcases mem_stack_closed ht with ⟨hge, -, rfl⟩ | ⟨rfl, htk⟩ | ⟨-, hto⟩
    · rcases mem_stack_closed hu with ⟨-, -, rfl⟩ | ⟨rfl, -⟩ | ⟨-, hu⟩
      · exact absurd rfl hcd
      · exact absurd rfl hcd
      · have := h.openLt d u hu
        omega
    · rcases mem_stack_closed hu with ⟨-, -, rfl⟩ | ⟨rfl, -⟩ | ⟨-, hu⟩
      · exact absurd rfl hcd
      · exact absurd rfl hcd
      · exact h.apart c d hcd t (hkept t htk) u hu
    · rcases mem_stack_closed hu with ⟨hge, -, rfl⟩ | ⟨rfl, huk⟩ | ⟨-, hu⟩
      · have := h.openLt c t hto
        omega
      · exact h.apart c d hcd t hto u (hkept u huk)
      · exact h.apart c d hcd t hto u hu
  · intro r hr
    rcases List.mem_append.mp hr with hr | hr
    · exact closed_keeps_retired hkept (h.txns r hr)
    · obtain ⟨u, hu, he⟩ := txnRows_id r hr
      rw [he]
      exact h.closed_retires hs hk hu
  · intro r hr
    rcases List.mem_append.mp hr with hr | hr
    · exact closed_keeps_retired hkept (h.locks r hr)
    · obtain ⟨u, hu, he⟩ := closedHeldRows_txnId r hr
      rw [he]
      exact h.closed_retires hs hk hu

end

theorem Finished.idsFresh {lm lm' : LockManager} {l : LockPtr} {ts : Nat} {side : SubLock} {rr found : Bool}
    {ctx ctxOld : Int} (h : Finished lm l ts side rr ctx ctxOld found lm') (hi : lm.IdsFresh) : lm'.IdsFresh := by
  cases h with
  | found above t below msgs split above_ne label =>
    refine hi.closed (by simpa using split) ?_
    split
    · exact List.filter_sublist
    · exact List.Sublist.refl _
  | missing msgs none => exact hi.closed (by simp) (List.Sublist.refl _)

/-- Nothing the ids depend on has changed. -/
theorem IdsFresh.congr {lm lm' : LockManager} (h : lm.IdsFresh) (hs : ∀ c, ∃ k, lm'.stack c = bump k (lm.stack c))
    (hn : lm'.nextTXNID = lm.nextTXNID) (ht : lm'.txnsOFile = lm.txnsOFile)
    (hl : lm'.locksHeldOFile = lm.locksHeldOFile) : lm'.IdsFresh := by
  have hold : ∀ c, ∀ t ∈ lm'.stack c, ∃ u ∈ lm.stack c, t.id = u.id := by
    intro c t ht
    obtain ⟨k, hk⟩ := hs c
    have : t.id ∈ (lm'.stack c).map TXN.id := List.mem_map_of_mem ht
    rw [hk, map_id_bump] at this
    obtain ⟨u, hu, he⟩ := List.mem_map.mp this
    exact ⟨u, hu, he.symm⟩
  refine ⟨?_, ?_, ?_, ?_, ?_⟩
  · intro c t ht
    obtain ⟨u, hu, he⟩ := hold c t ht
    rw [hn, he]
    exact h.openLt c u hu
  · intro c
    obtain ⟨k, hk⟩ := hs c
    rw [hk, map_id_bump]
    exact h.nodup c
  · intro c d hcd t ht u hu
    obtain ⟨t', ht', he⟩ := hold c t ht
    obtain ⟨u', hu', he'⟩ := hold d u hu
    rw [he, he']
    exact h.apart c d hcd t' ht' u' hu'
  · intro r hr
    rw [ht] at hr
    refine ⟨by rw [hn]; exact (h.txns r hr).1, ?_⟩
    intro c t ht
    obtain ⟨u, hu, he⟩ := hold c t ht
    rw [he]
    exact (h.txns r hr).2 c u hu
  · intro r hr
    rw [hl] at hr
    refine ⟨by rw [hn]; exact (h.locks r hr).1, ?_⟩
    intro c t ht
    obtain ⟨u, hu, he⟩ := hold c t ht
    rw [he]
    exact (h.locks r hr).2 c u hu

/-- The rows and stacks are literally the same. -/
theorem IdsFresh.same {lm lm' : LockManager} (h : lm.IdsFresh) (hs : ∀ c, lm'.stack c = lm.stack c)
    (hn : lm'.nextTXNID = lm.nextTXNID) (ht : lm'.txnsOFile = lm.txnsOFile)
    (hl : lm'.locksHeldOFile = lm.locksHeldOFile) : lm'.IdsFresh :=
  h.congr (fun c => ⟨0, by rw [hs, bump_zero]⟩) hn ht hl

theorem IdsFresh.acquire {lm : LockManager} (h : lm.IdsFresh) (l : LockPtr) (pos : LockPos) (ctx : Int) :
    (lm.acquire l pos ctx).IdsFresh := by
  have hopen : ∀ c, ∀ t ∈ (lm.acquire l pos ctx).stack c,
      (c = ctx ∧ t.id = lm.nextTXNID) ∨ t ∈ lm.stack c := by
    intro c t ht
    rw [stack_acquire] at ht
    split at ht
    · rename_i hc
      rcases List.mem_cons.mp ht with rfl | ht
      · exact .inl ⟨hc, rfl⟩
      · exact .inr (hc ▸ ht)
    · exact .inr ht
  refine ⟨?_, ?_, ?_, ?_, ?_⟩
  · intro c t ht
    change t.id < lm.nextTXNID + 1
    rcases hopen c t ht with ⟨-, he⟩ | ht
    · omega
    · have := h.openLt c t ht
      omega
  · intro c
    rw [stack_acquire]
    split
    · rw [List.map_cons, List.nodup_cons]
      refine ⟨?_, h.nodup ctx⟩
      intro hm
      obtain ⟨t, ht, he⟩ := List.mem_map.mp hm
      have := h.openLt ctx t ht
      simp only at he
      omega
    · exact h.nodup c
  · intro c d hcd t ht u hu
    rcases hopen c t ht with ⟨rfl, he⟩ | hto
    · rcases hopen d u hu with ⟨rfl, -⟩ | huo
      · exact absurd rfl hcd
      · have := h.openLt d u huo
        omega
    · rcases hopen d u hu with ⟨rfl, he⟩ | huo
      · have := h.openLt c t hto
        omega
      · exact h.apart c d hcd t hto u huo
  · intro r hr
    have hr' := h.txns r hr
    refine ⟨Nat.lt_succ_of_lt hr'.1, ?_⟩
    intro c t ht
    rcases hopen c t ht with ⟨-, he⟩ | ht
    · omega
    · exact hr'.2 c t ht
  · intro r hr
    have hr' := h.locks r hr
    refine ⟨Nat.lt_succ_of_lt hr'.1, ?_⟩
    intro c t ht
    rcases hopen c t ht with ⟨-, he⟩ | ht
    · omega
    · exact hr'.2 c t ht

theorem init_idsFresh : LockManager.init.IdsFresh := by
  have hs : ∀ c, LockManager.init.stack c = [] := fun c => by simp [init, stack, OrdMap.getD_eq]
  refine ⟨?_, ?_, ?_, ?_, ?_⟩
  · intro c t ht
    simp [hs] at ht
  · intro c
    simp [hs]
  · intro c d _ t ht
    simp [hs] at ht
  · simp [init]
  · simp [init]

/-- The id of a sub lock in the output. -/
def lockId (lm : LockManager) (x : LockPtr × SubLock) : Nat := (lm.heap x.1).idOf x.2

/-- A sub lock of an allocated object that its class uses. -/
structure Used (lm : LockManager) (x : LockPtr × SubLock) : Prop where
  allocated : x.1 < lm.objects
  has : (lm.heap x.1).cls.has x.2

/-- The lock ids in use. -/
structure LockIds (lm : LockManager) : Prop where
  lt : ∀ x, lm.Used x → lm.lockId x < lm.nextLockID
  inj : ∀ x y, lm.Used x → lm.Used y → lm.lockId x = lm.lockId y → x = y

theorem Used.congr {lm lm' : LockManager} (hh : lm'.heap = lm.heap) (ho : lm'.objects = lm.objects)
    {x : LockPtr × SubLock} (h : lm.Used x) : lm'.Used x :=
  ⟨by rw [ho]; exact h.allocated, by rw [hh]; exact h.has⟩

theorem LockIds.congr {lm lm' : LockManager} (h : lm.LockIds) (hh : lm'.heap = lm.heap)
    (ho : lm'.objects = lm.objects) (hn : lm'.nextLockID = lm.nextLockID) : lm'.LockIds := by
  have hid : ∀ x, lm'.lockId x = lm.lockId x := fun x => by unfold lockId; rw [hh]
  refine ⟨?_, ?_⟩
  · intro x hx
    rw [hid, hn]
    exact h.lt x (hx.congr hh.symm ho.symm)
  · intro x y hx hy he
    rw [hid, hid] at he
    exact h.inj x y (hx.congr hh.symm ho.symm) (hy.congr hh.symm ho.symm) he

theorem init_lockIds : LockManager.init.LockIds where
  lt _ hx := absurd hx.allocated (Nat.not_lt_zero _)
  inj _ _ hx := absurd hx.allocated (Nat.not_lt_zero _)

theorem Framed.used {l : LockPtr} {lm lm' : LockManager} (h : Framed l lm lm') (x : LockPtr × SubLock) :
    lm'.Used x ↔ lm.Used x := by
  have hc : (lm'.heap x.1).cls = (lm.heap x.1).cls := by
    by_cases hk : x.1 = l
    · rw [hk, h.cls]
    · rw [h.heap _ hk]
  constructor
  · rintro ⟨ha, hs⟩
    exact ⟨h.objects ▸ ha, hc ▸ hs⟩
  · rintro ⟨ha, hs⟩
    exact ⟨by rw [h.objects]; exact ha, by rw [hc]; exact hs⟩

theorem Framed.lockId {l : LockPtr} {lm lm' : LockManager} (h : Framed l lm lm') (x : LockPtr × SubLock) :
    lm'.lockId x = lm.lockId x := by
  unfold LockManager.lockId
  by_cases hk : x.1 = l
  · rw [hk, h.idOf]
  · rw [h.heap _ hk]

theorem Framed.lockIds {l : LockPtr} {lm lm' : LockManager} (h : Framed l lm lm') (hi : lm.LockIds) : lm'.LockIds where
  lt x hx := by rw [h.lockId, h.nextLockID]; exact hi.lt x ((h.used x).mp hx)
  inj x y hx hy he := by
    rw [h.lockId, h.lockId] at he
    exact hi.inj x y ((h.used x).mp hx) ((h.used y).mp hy) he

/-- A new lock gets new ids, and only for the sides its class uses. -/
theorem initIDs_fresh (cls : LockClass) (address allocID : Nat) (lockType name : String) (flags next : Nat)
    {s t : SubLock} (hs : cls.has s) (ht : cls.has t) :
    let p := RWLock.initIDs ⟨cls, 0, 0, address, flags, 0, 0, allocID, lockType, name, []⟩ next
    next ≤ p.1.idOf s ∧ p.1.idOf s < p.2 ∧ (p.1.idOf s = p.1.idOf t → s = t) := by
  cases cls <;> cases s <;> cases t <;> simp_all [RWLock.initIDs, RWLock.idOf, LockClass.has]

theorem initIDs_cls (lk : RWLock) (next : Nat) : (lk.initIDs next).1.cls = lk.cls := by
  unfold RWLock.initIDs
  split <;> simp_all

theorem le_initIDs (lk : RWLock) (next : Nat) : next ≤ (lk.initIDs next).2 := by
  unfold RWLock.initIDs
  split <;> simp

section Allocated

variable (lm : LockManager) (cls : LockClass) (address allocID : Nat) (lockType name : String) (flags : Nat)

theorem heap_allocated_old {k : LockPtr} (hk : k < lm.objects) :
    (lm.allocated cls address allocID lockType name flags).heap k = lm.heap k := by
  simp [allocated, Nat.ne_of_lt hk]

theorem heap_allocated_new : (lm.allocated cls address allocID lockType name flags).heap lm.objects =
    (RWLock.initIDs ⟨cls, 0, 0, address, flags, 0, 0, allocID, lockType, name, []⟩ lm.nextLockID).1 := by
  simp [allocated]

theorem lockId_allocated {x : LockPtr × SubLock} (hx : x.1 < lm.objects) :
    (lm.allocated cls address allocID lockType name flags).lockId x = lm.lockId x := by
  unfold lockId
  rw [heap_allocated_old _ _ _ _ _ _ _ hx]

/-- The sub locks in use after an allocation are the old ones and those of the new object. -/
theorem used_allocated {x : LockPtr × SubLock} (hx : (lm.allocated cls address allocID lockType name flags).Used x) :
    lm.Used x ∨ (x.1 = lm.objects ∧ cls.has x.2) := by
  by_cases hlt : x.1 < lm.objects
  · exact .inl ⟨hlt, by have := hx.has; rwa [heap_allocated_old _ _ _ _ _ _ _ hlt] at this⟩
  · have he : x.1 = lm.objects := Nat.le_antisymm (Nat.le_of_lt_succ hx.allocated) (Nat.le_of_not_lt hlt)
    have := hx.has
    rw [he, heap_allocated_new, initIDs_cls] at this
    exact .inr ⟨he, this⟩

theorem LockIds.allocated (h : lm.LockIds) : (lm.allocated cls address allocID lockType name flags).LockIds := by
  have hnew : ∀ x : LockPtr × SubLock, x.1 = lm.objects →
      (lm.allocated cls address allocID lockType name flags).lockId x =
        (RWLock.initIDs ⟨cls, 0, 0, address, flags, 0, 0, allocID, lockType, name, []⟩ lm.nextLockID).1.idOf x.2 := by
    intro x he
    unfold lockId
    rw [he, heap_allocated_new]
  have hle := le_initIDs ⟨cls, 0, 0, address, flags, 0, 0, allocID, lockType, name, []⟩ lm.nextLockID
  refine ⟨?_, ?_⟩
  · intro x hx
    change _ < (RWLock.initIDs ⟨cls, 0, 0, address, flags, 0, 0, allocID, lockType, name, []⟩ lm.nextLockID).2
    rcases used_allocated _ _ _ _ _ _ _ hx with hx | ⟨he, hs⟩
    · rw [lockId_allocated _ _ _ _ _ _ _ hx.allocated]
      exact Nat.lt_of_lt_of_le (h.lt x hx) hle
    · rw [hnew x he]
      exact (initIDs_fresh cls address allocID lockType name flags lm.nextLockID hs hs).2.1
  · intro x y hx hy hid
    rcases used_allocated _ _ _ _ _ _ _ hx with hx | ⟨hex, hsx⟩
    · rw [lockId_allocated _ _ _ _ _ _ _ hx.allocated] at hid
      have hlt := h.lt x hx
      rcases used_allocated _ _ _ _ _ _ _ hy with hy | ⟨hey, hsy⟩
      · rw [lockId_allocated _ _ _ _ _ _ _ hy.allocated] at hid
        exact h.inj x y hx hy hid
      · rw [hnew y hey] at hid
        have := (initIDs_fresh cls address allocID lockType name flags lm.nextLockID hsy hsy).1
        omega
    · rw [hnew x hex] at hid
      rcases used_allocated _ _ _ _ _ _ _ hy with hy | ⟨hey, hsy⟩
      · rw [lockId_allocated _ _ _ _ _ _ _ hy.allocated] at hid
        have := h.lt y hy
        have := (initIDs_fresh cls address allocID lockType name flags lm.nextLockID hsx hsx).1
        omega
      · rw [hnew y hey] at hid
        exact Prod.ext (hex.trans hey.symm)
          ((initIDs_fresh cls address allocID lockType name flags lm.nextLockID hsx hsy).2.2 hid)

end Allocated

/-- Where a row of `locks_held.csv` comes from: an entry of the stack, and the topmost
position of its lock. -/
theorem heldRows_source {heap : LockPtr → RWLock} {tid : Nat} {s : List TXN} {seen : List Nat} :
    ∀ row ∈ heldRows heap tid s seen, ∃ t ∈ s, ∃ pos ps, (heap t.lock).lastNPos = pos :: ps ∧
      row = ⟨tid, (heap t.lock).idOf t.subLock, pos.start, pos.lastFile, pos.lastLine⟩ := by
  induction s generalizing seen with
  | nil => simp [heldRows]
  | cons t rest ih =>
    intro row hrow
    have later : ∀ {seen}, row ∈ heldRows heap tid rest seen → ∃ u ∈ t :: rest, ∃ pos ps,
        (heap u.lock).lastNPos = pos :: ps ∧
        row = ⟨tid, (heap u.lock).idOf u.subLock, pos.start, pos.lastFile, pos.lastLine⟩ := by
      intro seen h
      obtain ⟨u, hu, hrest⟩ := ih row h
      exact ⟨u, List.mem_cons_of_mem _ hu, hrest⟩
    unfold heldRows at hrow
    split at hrow
    · split at hrow
      · exact later hrow
      · rename_i pos ps hp
        dsimp only at hrow
        split at hrow
        · exact later hrow
        · rcases List.mem_cons.mp hrow with rfl | hrow
          · exact ⟨t, List.mem_cons_self, pos, ps, hp, rfl⟩
          · exact later hrow
    · exact later hrow

/-- One transaction lists a lock once, whatever its stack looks like. -/
theorem heldRows_nodup {heap : LockPtr → RWLock} {tid : Nat} {s : List TXN} {seen : List Nat} :
    ((heldRows heap tid s seen).map LockHeldRow.lockId).Nodup ∧
      ∀ r ∈ heldRows heap tid s seen, r.lockId ∉ seen := by
  induction s generalizing seen with
  | nil => simp [heldRows]
  | cons t rest ih =>
    unfold heldRows
    split
    · split
      · exact ih
      · dsimp only
        split
        · exact ih
        · rename_i hm
          obtain ⟨hnd, hout⟩ := @ih ((heap t.lock).idOf t.subLock :: seen)
          refine ⟨?_, ?_⟩
          · rw [List.map_cons, List.nodup_cons]
            refine ⟨fun hin => ?_, hnd⟩
            obtain ⟨r, hr, he⟩ := List.mem_map.mp hin
            exact hout r hr (by rw [he]; exact List.mem_cons_self)
          · intro r hr
            rcases List.mem_cons.mp hr with rfl | hr
            · exact hm
            · exact fun hin => hout r hr (List.mem_cons_of_mem _ hin)
    · exact ih

/-- The row for a sub lock, if it is held and has a recorded position. -/
def heldRow? (lm : LockManager) (tid : Nat) (x : LockPtr × SubLock) : Option LockHeldRow :=
  if (lm.heap x.1).isHeld then
    (lm.heap x.1).lastNPos.head?.map fun pos => ⟨tid, lm.lockId x, pos.start, pos.lastFile, pos.lastLine⟩
  else none

theorem heldRow?_lockId {lm : LockManager} {tid : Nat} {x : LockPtr × SubLock} {row : LockHeldRow}
    (h : lm.heldRow? tid x = some row) : row.lockId = lm.lockId x := by
  unfold heldRow? at h
  split at h
  · obtain ⟨pos, -, rfl⟩ := Option.map_eq_some_iff.mp h
    rfl
  · cases h

/-- The loop over the stack, entry by entry. -/
theorem heldRows_cons (lm : LockManager) (tid : Nat) (t : TXN) (rest : List TXN) (seen : List Nat) :
    heldRows lm.heap tid (t :: rest) seen = (lm.heldRow? tid t.label).elim (heldRows lm.heap tid rest seen) fun row =>
      if row.lockId ∈ seen then heldRows lm.heap tid rest seen
      else row :: heldRows lm.heap tid rest (row.lockId :: seen) := by
  have hrow : lm.heldRow? tid t.label = if (lm.heap t.lock).isHeld then
      (lm.heap t.lock).lastNPos.head?.map fun pos =>
        ⟨tid, (lm.heap t.lock).idOf t.subLock, pos.start, pos.lastFile, pos.lastLine⟩
    else none := rfl
  rw [heldRows, hrow]
  by_cases hh : (lm.heap t.lock).isHeld
  · rw [if_pos hh, if_pos hh]
    cases hp : (lm.heap t.lock).lastNPos with
    | nil => rfl
    | cons pos ps => rfl
  · rw [if_neg hh, if_neg hh]
    rfl

/-- Entries under one lock id have one row, and each has it unless the id was seen before. -/
theorem mem_heldRows {lm : LockManager} (hi : lm.LockIds) {tid : Nat} {s : List TXN}
    (hu : ∀ x ∈ labels s, lm.Used x) {seen : List Nat} {row : LockHeldRow} :
    row ∈ heldRows lm.heap tid s seen ↔ row.lockId ∉ seen ∧ ∃ t ∈ s, lm.heldRow? tid t.label = some row := by
  induction s generalizing seen with
  | nil => simp [heldRows]
  | cons t rest ih =>
    have ih {seen} := @ih (fun x hx => hu x (List.mem_cons_of_mem _ hx)) seen
    rw [heldRows_cons]
    cases hrow : lm.heldRow? tid t.label with
    | none =>
      rw [Option.elim_none, ih]
      simp [hrow]
    | some r =>
      have hid := heldRow?_lockId hrow
      rw [Option.elim_some]
      split
      · rename_i hseen
        rw [ih]
        constructor
        · rintro ⟨hnot, u, hm, he⟩
          exact ⟨hnot, u, List.mem_cons_of_mem _ hm, he⟩
        · rintro ⟨hnot, u, hm, he⟩
          cases hm with
          | head =>
            rw [hrow] at he
            cases he
            exact absurd hseen hnot
          | tail _ hm => exact ⟨hnot, u, hm, he⟩
      · rename_i hseen
        rw [List.mem_cons, ih, List.mem_cons, not_or]
        constructor
        · rintro (rfl | ⟨⟨-, hnot⟩, u, hm, he⟩)
          · exact ⟨hseen, t, List.mem_cons_self, hrow⟩
          · exact ⟨hnot, u, List.mem_cons_of_mem _ hm, he⟩
        · rintro ⟨hnot, u, hm, he⟩
          by_cases hsame : row.lockId = r.lockId
          · -- one lock id, so one sub lock and one row
            have hlabel : u.label = t.label := by
              refine hi.inj _ _ (hu _ (mem_labels.mpr ⟨u, hm, rfl⟩)) (hu _ (mem_labels.mpr ⟨t, List.mem_cons_self, rfl⟩)) ?_
              rw [← heldRow?_lockId he, hsame, hid]
            rw [hlabel, hrow] at he
            exact .inl (Option.some.inj he).symm
          · cases hm with
            | head =>
              rw [hrow] at he
              cases he
              exact absurd rfl hsame
            | tail _ hm => exact .inr ⟨⟨hsame, hnot⟩, u, hm, he⟩

/-- The rows of a transaction are those of the distinct sub locks of its part of the stack. -/
theorem heldRows_distinct {lm : LockManager} (hi : lm.LockIds) (tid : Nat) {s : List TXN}
    (hu : ∀ x ∈ labels s, lm.Used x) :
    (heldRows lm.heap tid s.reverse []).Perm ((labels s).dedup.filterMap (lm.heldRow? tid)) := by
  have hur : ∀ x ∈ labels s.reverse, lm.Used x := by
    intro x hx
    obtain ⟨t, ht, he⟩ := mem_labels.mp hx
    exact hu x (mem_labels.mpr ⟨t, List.mem_reverse.mp ht, he⟩)
  have hrows : (heldRows lm.heap tid s.reverse []).Nodup := List.Nodup.of_map _ heldRows_nodup.1
  have hdistinct : ((labels s).dedup.filterMap (lm.heldRow? tid)).Nodup := by
    refine List.pairwise_filterMap.mpr ((List.nodup_dedup (labels s)).imp_of_mem fun hx hy hne row hrow row' hrow' he => ?_)
    have hid : lm.lockId _ = lm.lockId _ := (heldRow?_lockId hrow).symm.trans (he ▸ heldRow?_lockId hrow')
    exact hne (hi.inj _ _ (hu _ (List.mem_dedup.mp hx)) (hu _ (List.mem_dedup.mp hy)) hid)
  refine (List.perm_ext_iff_of_nodup hrows hdistinct).mpr fun row => ?_
  rw [mem_heldRows hi hur, List.mem_filterMap]
  constructor
  · rintro ⟨-, t, ht, he⟩
    exact ⟨t.label, List.mem_dedup.mpr (mem_labels.mpr ⟨t, List.mem_reverse.mp ht, rfl⟩), he⟩
  · rintro ⟨x, hx, he⟩
    obtain ⟨t, ht, rfl⟩ := mem_labels.mp (List.mem_dedup.mp hx)
    exact ⟨List.not_mem_nil, t, List.mem_reverse.mpr ht, he⟩

/-- A reportable entry has a row. -/
theorem heldRow?_of_reportable {lm : LockManager} (tid : Nat) {t : TXN} (h : Reportable lm.heap t) :
    ∃ row, lm.heldRow? tid t.label = some row := by
  obtain ⟨pos, ps, hp⟩ := List.exists_cons_of_ne_nil h.pos
  have hheld : (lm.heap t.label.1).isHeld = true := h.held
  rw [heldRow?, if_pos hheld]
  exact ⟨_, congrArg (fun ps => Option.map _ (List.head? ps)) hp⟩

/-- The rows of a transaction name the distinct sub locks of its stack, each once. -/
theorem heldRows_perm {lm : LockManager} (hi : lm.LockIds) {tid : Nat} {s : List TXN}
    (hs : ∀ t ∈ s, Reportable lm.heap t) (hu : ∀ x ∈ labels s, lm.Used x) :
    ((heldRows lm.heap tid s.reverse []).map LockHeldRow.lockId).Perm ((labels s).dedup.map lm.lockId) := by
  have hids : ((labels s).dedup.filterMap (lm.heldRow? tid)).map LockHeldRow.lockId = (labels s).dedup.map lm.lockId := by
    rw [List.map_filterMap]
    refine List.filterMap_eq_map_iff_forall_eq_some.mpr fun x hx => ?_
    obtain ⟨t, ht, rfl⟩ := mem_labels.mp (List.mem_dedup.mp hx)
    obtain ⟨row, hrow⟩ := heldRow?_of_reportable tid (hs t ht)
    rw [hrow, Option.map_some, heldRow?_lockId hrow]
  rw [← hids]
  exact (heldRows_distinct hi tid hu).map LockHeldRow.lockId

theorem closedHeldRows_append (heap : LockPtr → RWLock) (a b below : List TXN) :
    closedHeldRows heap (a ++ b) below = closedHeldRows heap a (b ++ below) ++ closedHeldRows heap b below := by
  induction a with
  | nil => rfl
  | cons t a ih => simp [closedHeldRows, ih]

/-- The transaction is recorded once, with the locks `H`. -/
structure Settled (lm : LockManager) (i : Nat) (H : List (LockPtr × SubLock)) : Prop where
  used : ∀ x ∈ H, lm.Used x
  once : (lm.txnsOFile.filter (fun r => r.id = i)).length = 1
  rows : ((lm.locksHeldOFile.filter (fun r => r.txnId = i)).map LockHeldRow.lockId).Perm (H.dedup.map lm.lockId)

/-- The transaction is on a stack, has accesses, and its part of the stack is `H`. -/
def Pending (lm : LockManager) (i : Nat) (H : List (LockPtr × SubLock)) : Prop :=
  ∃ c above t below, lm.stack c = above ++ t :: below ∧ t.id = i ∧ 0 < t.memAccessCounter ∧ labels (t :: below) = H

/-- The transaction is recorded with the locks `H`, or will be when it is closed. -/
def Backed (lm : LockManager) (i : Nat) (H : List (LockPtr × SubLock)) : Prop := lm.Settled i H ∨ lm.Pending i H

/-- A recorded transaction is not open. -/
theorem Settled.not_open {lm : LockManager} (hf : lm.IdsFresh) {i : Nat} {H : List (LockPtr × SubLock)}
    (h : lm.Settled i H) {c : Int} {t : TXN} (ht : t ∈ lm.stack c) : t.id ≠ i := by
  have hpos : 0 < (lm.txnsOFile.filter (fun r => r.id = i)).length := by rw [h.once]; exact Nat.one_pos
  obtain ⟨r, hr⟩ := List.exists_mem_of_length_pos hpos
  obtain ⟨hr, he⟩ := List.mem_filter.mp hr
  have he : r.id = i := by simpa using he
  rw [← he]
  exact (hf.txns r hr).2 c t ht

section

variable {pre mid : List TXN} {t : TXN}

/-- Entries with different ids: what comes before and after one of them has not its id. -/
theorem ids_apart {below : List TXN} (hnd : (((pre ++ t :: mid) ++ below).map TXN.id).Nodup) :
    ∀ u ∈ pre ++ mid, u.id ≠ t.id := by
  intro u hu he
  simp only [List.append_assoc, List.cons_append, List.map_append, List.map_cons] at hnd
  rw [List.nodup_append] at hnd
  obtain ⟨-, hnd, hdis⟩ := hnd
  rcases List.mem_append.mp hu with hu | hu
  · exact hdis _ (List.mem_map_of_mem hu) t.id (by simp) he
  · exact (List.nodup_cons.mp hnd).1 (by rw [← he]; simp [List.mem_map_of_mem hu])

/-- Among the rows of closed transactions, one with accesses has one row. -/
theorem txnRows_filter {ts : Nat} {ctxOld : Int} (hne : ∀ u ∈ pre ++ mid, u.id ≠ t.id) (hc : 0 < t.memAccessCounter) :
    (txnRows ts ctxOld (pre ++ t :: mid)).filter (fun r => r.id = t.id) =
      [⟨t.id, t.startTs, t.startCtx, ts, ctxOld⟩] := by
  have hpre : (txnRows ts ctxOld pre).filter (fun r => r.id = t.id) = [] := by
    rw [List.filter_eq_nil_iff]
    intro r hr
    obtain ⟨u, hu, he⟩ := txnRows_id r hr
    simpa [he] using hne u (by simp [hu])
  have hmid : (txnRows ts ctxOld mid).filter (fun r => r.id = t.id) = [] := by
    rw [List.filter_eq_nil_iff]
    intro r hr
    obtain ⟨u, hu, he⟩ := txnRows_id r hr
    simpa [he] using hne u (by simp [hu])
  have happ : txnRows ts ctxOld (pre ++ t :: mid) =
      txnRows ts ctxOld pre ++ (txnRows ts ctxOld [t] ++ txnRows ts ctxOld mid) := by
    simp [txnRows, hc]
  rw [happ, List.filter_append, List.filter_append, hpre, hmid]
  simp [txnRows, hc]

/-- Its locks are those of the stack from the transaction downwards. -/
theorem closedHeldRows_filter {heap : LockPtr → RWLock} {below : List TXN} (hne : ∀ u ∈ pre ++ mid, u.id ≠ t.id)
    (hc : 0 < t.memAccessCounter) :
    (closedHeldRows heap (pre ++ t :: mid) below).filter (fun r => r.txnId = t.id) =
      heldRows heap t.id (t :: (mid ++ below)).reverse [] := by
  have hpre : (closedHeldRows heap pre (t :: mid ++ below)).filter (fun r => r.txnId = t.id) = [] := by
    rw [List.filter_eq_nil_iff]
    intro r hr
    obtain ⟨u, hu, he⟩ := closedHeldRows_txnId r hr
    simpa [he] using hne u (by simp [hu])
  have hmid : (closedHeldRows heap mid below).filter (fun r => r.txnId = t.id) = [] := by
    rw [List.filter_eq_nil_iff]
    intro r hr
    obtain ⟨u, hu, he⟩ := closedHeldRows_txnId r hr
    simpa [he] using hne u (by simp [hu])
  have hself : (heldRows heap t.id (t :: (mid ++ below)).reverse []).filter (fun r => r.txnId = t.id) =
      heldRows heap t.id (t :: (mid ++ below)).reverse [] := by
    rw [List.filter_eq_self]
    intro r hr
    simpa using heldRows_txnId r hr
  rw [closedHeldRows_append, List.filter_append, hpre, closedHeldRows, List.filter_append, hmid]
  simp only [hc, if_true, hself, List.nil_append, List.append_nil]

end

/-- The rows of the transactions that were closed together with `t`. -/
theorem settled_of_popped {lm : LockManager} (hf : lm.IdsFresh) (hl : lm.LockIds) {ts : Nat} {ctx ctxOld : Int}
    {above pre mid below kept : List TXN} {t : TXN} {msgs : List Msg}
    (hs : lm.stack ctx = (pre ++ t :: mid) ++ below) (hc : 0 < t.memAccessCounter)
    (hr : ∀ u ∈ lm.stack ctx, Reportable lm.heap u) (hu : ∀ x ∈ labels (lm.stack ctx), lm.Used x) :
    (lm.closed ts ctx ctxOld above (pre ++ t :: mid) below kept msgs).Settled t.id (labels (t :: (mid ++ below))) := by
  have hnd := hf.nodup ctx
  rw [hs] at hnd hr hu
  have hne := ids_apart hnd
  have hmem : t ∈ lm.stack ctx := by simp [hs]
  have hsub : ∀ u ∈ t :: (mid ++ below), u ∈ (pre ++ t :: mid) ++ below := by
    intro u hu
    rcases List.mem_cons.mp hu with rfl | hu
    · simp
    · rcases List.mem_append.mp hu with hu | hu <;> simp [hu]
  have hused : ∀ x ∈ labels (t :: (mid ++ below)), lm.Used x := by
    intro x hx
    obtain ⟨u, hu', rfl⟩ := mem_labels.mp hx
    exact hu u.label (mem_labels.mpr ⟨u, hsub u hu', rfl⟩)
  refine ⟨fun x hx => ⟨(hused x hx).allocated, (hused x hx).has⟩, ?_, ?_⟩
  · have hold : lm.txnsOFile.filter (fun r => r.id = t.id) = [] := by
      rw [List.filter_eq_nil_iff]
      intro r hr
      simpa using fun he => (hf.txns r hr).2 ctx t hmem he.symm
    simp only [LockManager.closed, List.filter_append, hold, txnRows_filter hne hc]
    rfl
  · have hold : lm.locksHeldOFile.filter (fun r => r.txnId = t.id) = [] := by
      rw [List.filter_eq_nil_iff]
      intro r hr
      simpa using fun he => (hf.locks r hr).2 ctx t hmem he.symm
    simp only [LockManager.closed, List.filter_append, hold, closedHeldRows_filter hne hc, List.nil_append]
    exact heldRows_perm hl (fun u hu => hr u (hsub u hu)) hused

theorem bump_append (k : Nat) (above below : List TXN) (t : TXN) :
    ∃ above' t', bump k (above ++ t :: below) = above' ++ t' :: below ∧ t'.id = t.id ∧ t'.label = t.label ∧
      t.memAccessCounter ≤ t'.memAccessCounter := by
  cases above with
  | nil => exact ⟨[], { t with memAccessCounter := t.memAccessCounter + k }, rfl, rfl, rfl, Nat.le_add_right _ _⟩
  | cons a above => exact ⟨_ :: above, t, rfl, rfl, rfl, Nat.le_refl _⟩

/-- Moves that close nothing leave every transaction as it was. -/
theorem Backed.congr {lm lm' : LockManager} (hs : ∀ c, ∃ k, lm'.stack c = bump k (lm.stack c))
    (ht : lm'.txnsOFile = lm.txnsOFile) (hl : lm'.locksHeldOFile = lm.locksHeldOFile)
    (hu : ∀ x, lm.Used x → lm'.Used x ∧ lm'.lockId x = lm.lockId x) {i : Nat} {H : List (LockPtr × SubLock)}
    (h : lm.Backed i H) : lm'.Backed i H := by
  rcases h with h | ⟨c, above, t, below, hst, hi, hc, hH⟩
  · refine .inl ⟨fun x hx => (hu x (h.used x hx)).1, by rw [ht]; exact h.once, ?_⟩
    rw [hl]
    have hmap : H.dedup.map lm'.lockId = H.dedup.map lm.lockId := by
      apply List.map_congr_left
      intro x hx
      exact (hu x (h.used x (List.mem_dedup.mp hx))).2
    rw [hmap]
    exact h.rows
  · obtain ⟨k, hk⟩ := hs c
    rw [hst] at hk
    obtain ⟨above', t', he, hid, hlab, hle⟩ := bump_append k above below t
    refine .inr ⟨c, above', t', below, hk.trans he, hid.trans hi, by omega, ?_⟩
    rw [← hH, labels_cons, labels_cons, hlab]

theorem Backed.same {lm lm' : LockManager} (hs : ∀ c, lm'.stack c = lm.stack c)
    (ht : lm'.txnsOFile = lm.txnsOFile) (hl : lm'.locksHeldOFile = lm.locksHeldOFile)
    (hu : ∀ x, lm.Used x → lm'.Used x ∧ lm'.lockId x = lm.lockId x) {i : Nat} {H : List (LockPtr × SubLock)}
    (h : lm.Backed i H) : lm'.Backed i H :=
  h.congr (fun c => ⟨0, by rw [hs, bump_zero]⟩) ht hl hu

/-- A plain close records what it closes and keeps the rest. -/
theorem Backed.closed {lm : LockManager} (hf : lm.IdsFresh) (hl : lm.LockIds) {ts : Nat} {ctx ctxOld : Int}
    {above popped below : List TXN} {msgs : List Msg} (hs : lm.stack ctx = popped ++ below)
    (hr : ∀ u ∈ lm.stack ctx, Reportable lm.heap u) (hu : ∀ x ∈ labels (lm.stack ctx), lm.Used x)
    {i : Nat} {H : List (LockPtr × SubLock)} (h : lm.Backed i H) :
    (lm.closed ts ctx ctxOld above popped below below msgs).Backed i H := by
  have hopen : ∀ u ∈ popped, u ∈ lm.stack ctx := fun u hu => by rw [hs]; exact List.mem_append_left _ hu
  rcases h with h | ⟨c, pre, t, rest, hst, rfl, hc, rfl⟩
  · have htx : (txnRows ts ctxOld popped).filter (fun r => r.id = i) = [] := by
      rw [List.filter_eq_nil_iff]
      intro r hr
      obtain ⟨u, hu, he⟩ := txnRows_id r hr
      simpa [he] using h.not_open hf (hopen u hu)
    have hlk : (closedHeldRows lm.heap popped below).filter (fun r => r.txnId = i) = [] := by
      rw [List.filter_eq_nil_iff]
      intro r hr
      obtain ⟨u, hu, he⟩ := closedHeldRows_txnId r hr
      simpa [he] using h.not_open hf (hopen u hu)
    refine .inl ⟨fun x hx => ⟨(h.used x hx).allocated, (h.used x hx).has⟩, ?_, ?_⟩
    · simp only [LockManager.closed, List.filter_append, htx, List.append_nil]
      exact h.once
    · simp only [LockManager.closed, List.filter_append, hlk, List.append_nil]
      exact h.rows
  · by_cases hcc : c = ctx
    · subst hcc
      rw [hs] at hst
      rcases List.append_eq_append_iff.mp hst with ⟨mid, rfl, hb⟩ | ⟨mid, hp, hb⟩
      · -- The transaction is below the ones that are closed.
        refine .inr ⟨c, restart ts c lm.nextTXNID above ++ mid, t, rest, ?_, rfl, hc, rfl⟩
        rw [stack_closed, if_pos rfl, hb, List.append_assoc]
      · cases mid with
        | nil =>
          simp only [List.nil_append] at hb
          refine .inr ⟨c, restart ts c lm.nextTXNID above, t, rest, ?_, rfl, hc, rfl⟩
          rw [stack_closed, if_pos rfl, hb]
        | cons u mid =>
          simp only [List.cons_append, List.cons.injEq] at hb
          obtain ⟨rfl, rfl⟩ := hb
          subst hp
          exact .inl (settled_of_popped hf hl hs hc hr hu)
    · refine .inr ⟨c, pre, t, rest, ?_, rfl, hc, rfl⟩
      rw [stack_closed, if_neg hcc]
      exact hst

theorem Finished.backed {lm lm' : LockManager} (hf : lm.IdsFresh) (hl : lm.LockIds) {l : LockPtr} {ts : Nat}
    {side : SubLock} {found : Bool} {ctx ctxOld : Int} (h : Finished lm l ts side false ctx ctxOld found lm')
    (hr : ∀ u ∈ lm.stack ctx, Reportable lm.heap u) (hu : ∀ x ∈ labels (lm.stack ctx), lm.Used x)
    {i : Nat} {H : List (LockPtr × SubLock)} (hb : lm.Backed i H) : lm'.Backed i H := by
  cases h with
  | found above t below msgs split above_ne label =>
    exact hb.closed hf hl (by simpa using split) hr hu
  | missing msgs none => exact hb.closed hf hl (by simp) hr hu

theorem acquire_backed {lm : LockManager} {l : LockPtr} {pos : LockPos} {ctx : Int} {i : Nat}
    {H : List (LockPtr × SubLock)} (h : lm.Backed i H) : (lm.acquire l pos ctx).Backed i H := by
  have hfr := acquire_framed lm l pos ctx
  rcases h with h | ⟨c, above, t, below, hst, hi, hc, hH⟩
  · refine .inl ⟨fun x hx => (hfr.used x).mpr (h.used x hx), h.once, ?_⟩
    have hmap : H.dedup.map (lm.acquire l pos ctx).lockId = H.dedup.map lm.lockId :=
      List.map_congr_left (fun x _ => hfr.lockId x)
    rw [hmap]
    exact h.rows
  · by_cases hcc : c = ctx
    · subst hcc
      refine .inr ⟨c, ⟨lm.nextTXNID, pos.start, c, 0, l, pos.subLock⟩ :: above, t, below, ?_, hi, hc, hH⟩
      rw [stack_acquire, if_pos rfl, hst]
      rfl
    · refine .inr ⟨c, above, t, below, ?_, hi, hc, hH⟩
      rw [stack_acquire, if_neg hcc]
      exact hst

end LockManager

end LockDoc.Convert
