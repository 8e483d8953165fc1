import LockDoc.Convert.Ledger

/-!
# Keys of the output

The primary and foreign keys of `txns.csv`, `locks_held.csv`, `locks.csv` and
`accesses.csv`, on every run, legal or not. All of them rest on counters that only go up:
an id that was written belongs to something that is no longer open, and a new id is larger
than all old ones.
-/
namespace LockDoc.Convert

open FallibleRun

/-- The primary key of `locks_held.csv`. -/
def LockHeldRow.key (r : LockHeldRow) : Nat × Nat := (r.txnId, r.lockId)

namespace LockManager

/-- What the rows of `txns.csv` and `locks_held.csv` refer to. -/
structure Keyed (lm : LockManager) : Prop where
  ids : lm.IdsFresh
  lockIds : lm.LockIds
  used : ∀ c, ∀ x ∈ labels (lm.stack c), lm.Used x
  txns : (lm.txnsOFile.map TxnRow.id).Nodup
  pairs : (lm.locksHeldOFile.map LockHeldRow.key).Nodup
  recorded : ∀ r ∈ lm.locksHeldOFile, ∃ t ∈ lm.txnsOFile, t.id = r.txnId
  named : ∀ r ∈ lm.locksHeldOFile, ∃ x, lm.Used x ∧ lm.lockId x = r.lockId

theorem init_keyed : LockManager.init.Keyed where
  ids := init_idsFresh
  lockIds := init_lockIds
  used c x hx := by simp [init, stack, OrdMap.getD_eq] at hx
  txns := List.nodup_nil
  pairs := List.nodup_nil
  recorded := by simp [init]
  named := by simp [init]

theorem heldRows_keys {heap : LockPtr → RWLock} {tid : Nat} {s : List TXN} {seen : List Nat} :
    ((heldRows heap tid s seen).map LockHeldRow.key).Nodup := by
  have h := (@heldRows_nodup heap tid s seen).1
  rw [List.nodup_iff_pairwise_ne, List.pairwise_map] at h ⊢
  exact h.imp fun hne he => hne (Prod.mk.inj he).2

/-- The rows of transactions with different ids have different keys. -/
theorem closedHeldRows_keys {heap : LockPtr → RWLock} {popped below : List TXN}
    (hnd : (popped.map TXN.id).Nodup) : ((closedHeldRows heap popped below).map LockHeldRow.key).Nodup := by
  induction popped with
  | nil => simp [closedHeldRows]
  | cons t popped ih =>
    rw [List.map_cons, List.nodup_cons] at hnd
    rw [closedHeldRows, List.map_append, List.nodup_append]
    refine ⟨?_, ih hnd.2, ?_⟩
    · split
      · exact heldRows_keys
      · simp
    · intro k hk k' hk' he
      obtain ⟨r, hr, rfl⟩ := List.mem_map.mp hk
      obtain ⟨r', hr', rfl⟩ := List.mem_map.mp hk'
      obtain ⟨u, hu, hru⟩ := closedHeldRows_txnId r' hr'
      split at hr
      · have hid : t.id = u.id := by
          rw [← heldRows_txnId r hr, ← hru]
          exact (Prod.mk.inj he).1
        exact hnd.1 (by rw [hid]; exact List.mem_map_of_mem hu)
      · simp at hr

/-- A transaction that lists locks is recorded, and the locks are those of its stack. -/
theorem closedHeldRows_recorded {heap : LockPtr → RWLock} {popped below : List TXN} (ts : Nat) (ctxOld : Int) :
    ∀ r ∈ closedHeldRows heap popped below, (∃ t ∈ txnRows ts ctxOld popped, t.id = r.txnId) ∧
      ∃ u ∈ popped ++ below, (heap u.lock).idOf u.subLock = r.lockId := by
  induction popped with
  | nil => simp [closedHeldRows]
  | cons t popped ih =>
    intro r hr
    rw [closedHeldRows, List.mem_append] at hr
    rcases hr with hr | hr
    · split at hr
      · rename_i hc
        refine ⟨⟨⟨t.id, t.startTs, t.startCtx, ts, ctxOld⟩, ?_, (heldRows_txnId r hr).symm⟩, ?_⟩
        · simp [txnRows, hc]
        · obtain ⟨u, hu, pos, ps, -, rfl⟩ := heldRows_source r hr
          exact ⟨u, List.mem_reverse.mp hu, rfl⟩
      · simp at hr
    · obtain ⟨⟨row, hrow, he⟩, u, hu, hid⟩ := ih r hr
      refine ⟨⟨row, ?_, he⟩, u, List.mem_cons_of_mem _ hu, hid⟩
      rw [txnRows_cons ts ctxOld t popped]
      exact List.mem_append_right _ hrow

/-- Taking a stack apart writes rows with new keys. -/
theorem Keyed.closed {lm : LockManager} (h : lm.Keyed) {ts : Nat} {ctx ctxOld : Int}
    {above popped below kept : List TXN} {msgs : List Msg} (hs : lm.stack ctx = popped ++ below)
    (ha : ∀ u ∈ above, u ∈ popped) (hk : kept.Sublist below) :
    (lm.closed ts ctx ctxOld above popped below kept msgs).Keyed := by
  have hnd := h.ids.nodup ctx
  rw [hs, List.map_append, List.nodup_append] at hnd
  have hopen : ∀ u ∈ popped ++ below, u ∈ lm.stack ctx := fun u hu => by rw [hs]; exact hu
  refine ⟨h.ids.closed hs hk, ⟨fun x hx => h.lockIds.lt x ⟨hx.allocated, hx.has⟩, fun x y hx hy =>
    h.lockIds.inj x y ⟨hx.allocated, hx.has⟩ ⟨hy.allocated, hy.has⟩⟩, ?_, ?_, ?_, ?_, ?_⟩
  · intro c x hx
    have hold : ∃ d, x ∈ labels (lm.stack d) := by
      rw [stack_closed] at hx
      split at hx
      · rw [labels_append, labels_restart, List.mem_append] at hx
        refine ⟨ctx, ?_⟩
        rcases hx with hx | hx
        · obtain ⟨u, hu, rfl⟩ := mem_labels.mp hx
          exact mem_labels.mpr ⟨u, hopen u (List.mem_append_left _ (ha u hu)), rfl⟩
        · obtain ⟨u, hu, rfl⟩ := mem_labels.mp hx
          exact mem_labels.mpr ⟨u, hopen u (List.mem_append_right _ (hk.subset hu)), rfl⟩
      · exact ⟨c, hx⟩
    obtain ⟨d, hd⟩ := hold
    exact ⟨(h.used d x hd).allocated, (h.used d x hd).has⟩
  · change ((lm.txnsOFile ++ txnRows ts ctxOld popped).map TxnRow.id).Nodup
    rw [List.map_append, List.nodup_append]
    refine ⟨h.txns, ?_, ?_⟩
    · have he : (txnRows ts ctxOld popped).map TxnRow.id =
          (popped.filter (fun t => 0 < t.memAccessCounter)).map TXN.id := by
        simp [txnRows, Function.comp_def]
      rw [he]
      exact ((List.filter_sublist (l := popped)).map TXN.id).nodup hnd.1
    · intro i hi j hj he
      obtain ⟨r, hr, rfl⟩ := List.mem_map.mp hi
      obtain ⟨r', hr', rfl⟩ := List.mem_map.mp hj
      obtain ⟨u, hu, hru⟩ := txnRows_id r' hr'
      exact (h.ids.txns r hr).2 ctx u (hopen u (List.mem_append_left _ hu)) (by rw [← hru, ← he])
  · change ((lm.locksHeldOFile ++ closedHeldRows lm.heap popped below).map LockHeldRow.key).Nodup
    rw [List.map_append, List.nodup_append]
    refine ⟨h.pairs, closedHeldRows_keys hnd.1, ?_⟩
    intro k hk k' hk' he
    obtain ⟨r, hr, rfl⟩ := List.mem_map.mp hk
    obtain ⟨r', hr', rfl⟩ := List.mem_map.mp hk'
    obtain ⟨u, hu, hru⟩ := closedHeldRows_txnId r' hr'
    have hid : r.txnId = r'.txnId := (Prod.mk.inj he).1
    exact (h.ids.locks r hr).2 ctx u (hopen u (List.mem_append_left _ hu)) (by rw [hid, hru])
  · intro r hr
    rcases List.mem_append.mp hr with hr | hr
    · obtain ⟨t, ht, he⟩ := h.recorded r hr
      exact ⟨t, List.mem_append_left _ ht, he⟩
    · obtain ⟨⟨t, ht, he⟩, -⟩ := closedHeldRows_recorded ts ctxOld r hr
      exact ⟨t, List.mem_append_right _ ht, he⟩
  · intro r hr
    rcases List.mem_append.mp hr with hr | hr
    · obtain ⟨x, hx, he⟩ := h.named r hr
      exact ⟨x, ⟨hx.allocated, hx.has⟩, he⟩
    · obtain ⟨-, u, hu, hid⟩ := closedHeldRows_recorded ts ctxOld r hr
      have hx := h.used ctx u.label (mem_labels.mpr ⟨u, hopen u hu, rfl⟩)
      exact ⟨u.label, ⟨hx.allocated, hx.has⟩, hid⟩

theorem Finished.keyed {lm lm' : LockManager} {l : LockPtr} {ts : Nat} {side : SubLock} {rr found : Bool}
    {ctx ctxOld : Int} (h : Finished lm l ts side rr ctx ctxOld found lm') (hK : lm.Keyed) : lm'.Keyed := by
  cases h with
  | found above t below msgs split above_ne label =>
    refine hK.closed (by simpa using split) (fun u hu => List.mem_append_left _ hu) ?_
    split
    · exact List.filter_sublist
    · exact List.Sublist.refl _
  | missing msgs none => exact hK.closed (by simp) (fun u hu => hu) (List.Sublist.refl _)

/-- Updates of lock objects and counters of transactions write no rows. -/
theorem Keyed.congr {lm lm' : LockManager} (h : lm.Keyed) (hi : lm'.LockIds) (hu : ∀ x, lm.Used x → lm'.Used x)
    (hid : ∀ x, lm'.lockId x = lm.lockId x) (hs : ∀ c, ∃ k, lm'.stack c = bump k (lm.stack c))
    (hn : lm'.nextTXNID = lm.nextTXNID) (ht : lm'.txnsOFile = lm.txnsOFile)
    (hl : lm'.locksHeldOFile = lm.locksHeldOFile) : lm'.Keyed where
  ids := h.ids.congr hs hn ht hl
  lockIds := hi
  used c x hx := by
    obtain ⟨k, hk⟩ := hs c
    rw [hk, labels_bump] at hx
    exact hu x (h.used c x hx)
  txns := by rw [ht]; exact h.txns
  pairs := by rw [hl]; exact h.pairs
  recorded := by rw [hl, ht]; exact h.recorded
  named r hr := by
    rw [hl] at hr
    obtain ⟨x, hx, he⟩ := h.named r hr
    exact ⟨x, hu x hx, by rw [hid, he]⟩

theorem Keyed.touched {lm lm' : LockManager} (h : lm.Keyed) {l : LockPtr} (ht : Touched l lm lm') : lm'.Keyed :=
  h.congr (ht.lockIds h.lockIds) (fun x => (ht.used x).mpr) ht.lockId (fun c => ⟨0, by rw [bump_zero, ht.stack]⟩)
    ht.nextTXNID ht.txnsOFile ht.locksHeldOFile

theorem Keyed.deleteLockByArea {lm : LockManager} (h : lm.Keyed) (base size : Nat) :
    (lm.deleteLockByArea base size).Keyed :=
  h.congr (h.lockIds.congr rfl rfl rfl) (fun _ hx => ⟨hx.allocated, hx.has⟩) (fun _ => rfl)
    (fun c => ⟨0, by rw [bump_zero]; rfl⟩) rfl rfl rfl

theorem Prepared.keyed {lm lm' : LockManager} {l : LockPtr} {ts : Nat} {ctx : Int} {side : SubLock}
    (h : Prepared lm l ts ctx side lm') (hK : lm.Keyed) : lm'.Keyed := by
  obtain ⟨lm₁, rfl | ⟨_, _, _, fin⟩, ht⟩ := h.touched
  · exact hK.touched ht
  · exact (fin.keyed hK).touched ht

theorem Released.keyed {lm lm' : LockManager} {l : LockPtr} {ts : Nat} {ctx : Int} {side : SubLock}
    (h : Released lm l ts ctx side lm') (hK : lm.Keyed) : lm'.Keyed := by
  obtain ⟨lm₁, rfl | ⟨_, fin⟩, ht⟩ := h.touched
  · exact hK.touched ht
  · exact (fin.keyed hK).touched ht

theorem Keyed.acquire {lm : LockManager} (h : lm.Keyed) {l : LockPtr} {pos : LockPos} (ctx : Int)
    (hu : lm.Used (l, pos.subLock)) : (lm.acquire l pos ctx).Keyed := by
  have hf := acquire_framed lm l pos ctx
  refine ⟨h.ids.acquire l pos ctx, hf.lockIds h.lockIds, ?_, h.txns, h.pairs, h.recorded, ?_⟩
  · intro c x hx
    rw [stack_acquire] at hx
    split at hx
    · rcases List.mem_cons.mp hx with rfl | hx
      · exact (hf.used _).mpr hu
      · exact (hf.used x).mpr (h.used ctx x hx)
    · exact (hf.used x).mpr (h.used c x hx)
  · intro r hr
    obtain ⟨x, hx, he⟩ := h.named r hr
    exact ⟨x, (hf.used x).mpr hx, by rw [hf.lockId, he]⟩

theorem Keyed.transition {lm lm' : LockManager} (h : lm.Keyed) {l : LockPtr} {e : LockEvent} {kernelDir : String}
    {ctx : Int} (hl : l < lm.objects) (ht : lm.transition l e kernelDir ctx = .ok lm') : lm'.Keyed := by
  have hfl := updateFlags_framed lm l e.flags
  have h₀ : (lm.updateFlags l e.flags).Keyed := h.touched (updateFlags_touched lm l e.flags)
  obtain ⟨hhas, ⟨-, lm₁, hp, rfl⟩ | ⟨-, hr⟩⟩ := transition_ok ht
  · refine (hp.keyed h₀).acquire ctx ((hp.framed.used _).mpr ((hfl.used _).mpr ⟨hl, hhas⟩))
  · exact hr.keyed h₀

/-- A new lock writes no transaction. -/
theorem Keyed.allocated {lm : LockManager} (h : lm.Keyed) (cls : LockClass) (address allocID : Nat)
    (lockType name : String) (flags : Nat) : (lm.allocated cls address allocID lockType name flags).Keyed := by
  have hused : ∀ x, lm.Used x → (lm.allocated cls address allocID lockType name flags).Used x := by
    intro x hx
    refine ⟨Nat.lt_succ_of_lt hx.allocated, ?_⟩
    rw [heap_allocated_old _ _ _ _ _ _ _ hx.allocated]
    exact hx.has
  refine ⟨h.ids.same (fun _ => rfl) rfl rfl rfl, h.lockIds.allocated _ _ _ _ _ _ _, ?_, h.txns, h.pairs,
    h.recorded, ?_⟩
  · exact fun c x hx => hused x (h.used c x hx)
  · intro r hr
    obtain ⟨x, hx, he⟩ := h.named r hr
    exact ⟨x, hused x hx, by rw [lockId_allocated _ _ _ _ _ _ _ hx.allocated, he]⟩

theorem Keyed.closeAllTXNs {lm lm' : LockManager} {ts : Nat} (h : lm.Keyed) (hc : lm.closeAllTXNs ts = .ok lm') :
    lm'.Keyed ∧ lm'.heap = lm.heap ∧ lm'.objects = lm.objects := by
  refine closeAllTXNs_rule (I := fun m => m.Keyed ∧ m.heap = lm.heap ∧ m.objects = lm.objects) ?_ ?_ hc ⟨h, rfl, rfl⟩
  · rintro m msg ⟨hK, hh, ho⟩
    exact ⟨hK.touched (l := 0) ⟨framed_stderr 0 m _, rfl, rfl, rfl, rfl⟩, hh, ho⟩
  · rintro m ts ctx t below msgs hs ⟨hK, hh, ho⟩
    exact ⟨hK.closed hs (by simp) (List.Sublist.refl _), hh, ho⟩

end LockManager

/-- The rows of `locks.csv` are the sub locks in use, each once. -/
structure LocksWritten (σ : State) : Prop where
  nodup : (σ.locksOFile.map LockRow.id).Nodup
  used : ∀ i, i ∈ σ.locksOFile.map LockRow.id ↔ ∃ x, σ.lockManager.Used x ∧ σ.lockManager.lockId x = i

theorem LocksWritten.congr {σ σ' : State} (h : LocksWritten σ) (hl : σ'.locksOFile = σ.locksOFile)
    (hu : ∀ x, σ'.lockManager.Used x ↔ σ.lockManager.Used x)
    (hi : ∀ x, σ'.lockManager.lockId x = σ.lockManager.lockId x) : LocksWritten σ' where
  nodup := by rw [hl]; exact h.nodup
  used i := by
    rw [hl, h.used]
    simp only [hu, hi]

/-- The ids of the rows of one lock. -/
theorem writeLock_ids (lk : RWLock) :
    (writeLock lk).map LockRow.id = ([SubLock.writer, SubLock.reader].filter lk.cls.has).map lk.idOf := by
  simp [writeLock, Function.comp_def]

/-- A new lock gets rows with new ids. -/
theorem LocksWritten.allocated {σ : State} (h : LocksWritten σ) (hids : σ.lockManager.LockIds) (cls : LockClass)
    (address allocID : Nat) (lockType name : String) (flags : Nat) :
    LocksWritten { σ with
      lockManager := σ.lockManager.allocated cls address allocID lockType name flags
      locksOFile := σ.locksOFile ++
        writeLock ((σ.lockManager.allocated cls address allocID lockType name flags).heap σ.lockManager.objects) } := by
  let lk := (RWLock.initIDs ⟨cls, 0, 0, address, flags, 0, 0, allocID, lockType, name, []⟩ σ.lockManager.nextLockID).1
  have hheap : (σ.lockManager.allocated cls address allocID lockType name flags).heap σ.lockManager.objects = lk :=
    LockManager.heap_allocated_new _ _ _ _ _ _ _
  have hcls : lk.cls = cls := LockManager.initIDs_cls _ _
  have hfresh : ∀ {s t}, cls.has s → cls.has t →
      σ.lockManager.nextLockID ≤ lk.idOf s ∧ (lk.idOf s = lk.idOf t → s = t) := fun hs ht =>
    let p := LockManager.initIDs_fresh cls address allocID lockType name flags σ.lockManager.nextLockID hs ht
    ⟨p.1, p.2.2⟩
  have hmem : ∀ i, i ∈ (writeLock lk).map LockRow.id ↔ ∃ s, cls.has s ∧ lk.idOf s = i := by
    intro i
    rw [writeLock_ids, hcls]
    simp only [List.mem_map, List.mem_filter]
    refine exists_congr fun s => and_congr_left fun _ => and_iff_right ?_
    cases s <;> simp
  refine ⟨?_, ?_⟩
  · simp only [hheap, List.map_append]
    rw [List.nodup_append]
    refine ⟨h.nodup, ?_, ?_⟩
    · rw [writeLock_ids, hcls]
      refine List.Nodup.map_on ?_ ((by decide : [SubLock.writer, SubLock.reader].Nodup).filter _)
      intro s hs t ht he
      exact (hfresh (List.mem_filter.mp hs).2 (List.mem_filter.mp ht).2).2 he
    · intro i hi j hj he
      obtain ⟨x, hx, hxi⟩ := (h.used i).mp hi
      obtain ⟨s, hs, hsj⟩ := (hmem j).mp hj
      have := hids.lt x hx
      have := (hfresh hs hs).1
      omega
  · intro i
    simp only [hheap, List.map_append, List.mem_append, h.used, hmem]
    constructor
    · rintro (⟨x, hx, he⟩ | ⟨s, hs, he⟩)
      · refine ⟨x, ⟨Nat.lt_succ_of_lt hx.allocated, ?_⟩, ?_⟩
        · rw [LockManager.heap_allocated_old _ _ _ _ _ _ _ hx.allocated]
          exact hx.has
        · rw [LockManager.lockId_allocated _ _ _ _ _ _ _ hx.allocated]
          exact he
      · refine ⟨(σ.lockManager.objects, s), ⟨Nat.lt_succ_self _, ?_⟩, ?_⟩
        · simp only [hheap, hcls]
          exact hs
        · simp only [LockManager.lockId, hheap]
          exact he
    · rintro ⟨x, hx, he⟩
      rcases LockManager.used_allocated _ _ _ _ _ _ _ hx with hx | ⟨hxo, hs⟩
      · rw [LockManager.lockId_allocated _ _ _ _ _ _ _ hx.allocated] at he
        exact .inl ⟨x, hx, he⟩
      · refine .inr ⟨x.2, hs, ?_⟩
        simp only [LockManager.lockId, hxo, hheap] at he
        exact he

/-- The ids of accesses increase along the file and the buffer. -/
structure AccessesNumbered (σ : State) : Prop where
  increasing : ((σ.accessOFile.map AccessRow.access ++ σ.lastMemAccesses).map MemAccess.id).Pairwise (· < ·)
  next : ∀ a ∈ σ.accessOFile.map AccessRow.access ++ σ.lastMemAccesses, a.id < σ.curAccessID

theorem AccessesNumbered.sublist {σ σ' : State} (h : AccessesNumbered σ)
    (hs : (σ'.accessOFile.map AccessRow.access ++ σ'.lastMemAccesses).Sublist
      (σ.accessOFile.map AccessRow.access ++ σ.lastMemAccesses))
    (hn : σ'.curAccessID = σ.curAccessID) : AccessesNumbered σ' where
  increasing := h.increasing.sublist (hs.map MemAccess.id)
  next a ha := by
    rw [hn]
    exact h.next a (hs.subset ha)

/-- Only a new lock is written to `locks.csv`. -/
theorem resolveLock_written {cfg : Config} {σ σ₁ : State} {e : LockEvent} {l : LockPtr}
    (h : resolveLock cfg σ e = .ok (some l, σ₁)) :
    (σ.lockManager.locks[e.address]? = some l ∧ σ₁ = σ) ∨ ∃ cls allocID name, l = σ.lockManager.objects ∧
      σ₁ = { σ with
        lockManager := σ.lockManager.allocated cls e.address allocID e.lockType name e.flags
        locksOFile := σ.locksOFile ++ writeLock
          ((σ.lockManager.allocated cls e.address allocID e.lockType name e.flags).heap σ.lockManager.objects) } := by
  unfold resolveLock LockManager.findLock at h
  split at h
  · rename_i hf
    cases h
    exact .inl ⟨hf, rfl⟩
  · split at h
    · cases h
    · split at h
      · cases h
      · obtain ⟨⟨k, lm⟩, h₁, h⟩ := bind_ok.mp h
        cases h
        obtain ⟨cls, -, rfl, rfl⟩ := LockManager.allocLock_ok h₁
        exact .inr ⟨cls, _, _, rfl, rfl⟩

theorem resolveLock_unwritten {cfg : Config} {σ σ₁ : State} {e : LockEvent}
    (h : resolveLock cfg σ e = .ok (none, σ₁)) : σ₁.locksOFile = σ.locksOFile := by
  unfold resolveLock at h
  split at h
  · cases h
  · split at h
    · cases h
      rfl
    · split at h
      · cases h
        rfl
      · obtain ⟨⟨k, lm⟩, -, h⟩ := bind_ok.mp h
        cases h

theorem findSubclass_locksOFile {cfg : Config} {σ σ' : State} {typeStr : String} {i : Option Nat}
    (h : findSubclass cfg σ typeStr = .ok (i, σ')) : σ'.locksOFile = σ.locksOFile := by
  unfold findSubclass at h
  simp only at h
  split at h
  · cases h
    rfl
  · split at h
    · cases h
      rfl
    · split at h
      · cases h
      · cases h
        rfl

/-- Events other than lock operations leave `locks.csv` alone. -/
theorem dispatch_locksOFile {cfg : Config} {σ σ' : State} {e : Event} (h : dispatch cfg σ e = .ok σ')
    (hne : ∀ ev, e ≠ .lockOp ev) : σ'.locksOFile = σ.locksOFile := by
  cases e with
  | alloc ts base size typeStr =>
    change handleAlloc cfg σ ts base size typeStr = .ok σ' at h
    unfold handleAlloc at h
    split at h
    · cases h
      rfl
    · obtain ⟨⟨i, σ₁⟩, h₁, h⟩ := bind_ok.mp h
      have hl := findSubclass_locksOFile h₁
      cases i with
      | none =>
        cases h
        exact hl
      | some i =>
        cases h
        exact hl
  | free ts base size =>
    cases h
    unfold handleFree
    split <;> rfl
  | lockOp ev => exact absurd rfl (hne ev)
  | access ev =>
    change handleAccess σ ev = .ok σ' at h
    unfold handleAccess at h
    split at h
    · cases h
      rfl
    · split at h
      · cases h
      · obtain ⟨trace, traces, next, hst⟩ := addStacktrace_eq σ ev.instrPtr ev.stacktrace
        simp only [hst] at h
        cases h
        rfl
  | other ts c =>
    cases h
    rfl

/-- Everything the keys depend on. -/
structure KeysKept (σ : State) : Prop where
  wellFormed : σ.lockManager.WellFormed
  keyed : σ.lockManager.Keyed
  locks : LocksWritten σ
  accesses : AccessesNumbered σ

theorem init_keysKept (cfg : Config) : KeysKept (.init cfg) where
  wellFormed := LockManager.init_wellFormed
  keyed := LockManager.init_keyed
  locks := ⟨List.nodup_nil, fun i => by
    refine ⟨fun h => by simp [State.init] at h, ?_⟩
    rintro ⟨x, hx, -⟩
    exact absurd hx.allocated (Nat.not_lt_zero _)⟩
  accesses := ⟨by simp [State.init], by simp [State.init]⟩

/-- Writing accesses from the buffer keeps all keys. -/
theorem KeysKept.flushed {σ : State} (h : KeysKept σ) (cfg : Config) {pending : List MemAccess}
    (hp : pending.Sublist σ.lastMemAccesses) :
    KeysKept { pending.foldl (State.writeMemAccess cfg) σ with lastMemAccesses := [] } := by
  obtain ⟨hk, he⟩ := kept_writeMemAccesses cfg σ pending
  have hstack := (writeMemAccesses_fold cfg σ pending).1
  have hframe := writeMemAccesses_frame cfg σ pending
  have hflush := flush_sublist cfg σ hp
  generalize pending.foldl (State.writeMemAccess cfg) σ = σ₁ at hk he hstack hframe hflush
  have hf : LockManager.Framed 0 σ.lockManager σ₁.lockManager := by
    rw [he]
    exact ⟨fun _ _ => rfl, rfl, fun _ => rfl, rfl, rfl, rfl, rfl, rfl⟩
  refine ⟨hk.wellFormed h.wellFormed ?_, ?_, h.locks.congr (by rw [hframe]) hf.used hf.lockId, ?_⟩
  · rw [he]
    exact h.wellFormed.registered
  · exact h.keyed.congr (hf.lockIds h.keyed.lockIds) (fun x => (hf.used x).mpr) hf.lockId (fun c => ⟨_, hstack c⟩)
      (by rw [he]) (by rw [he]) (by rw [he])
  · exact h.accesses.sublist hflush (by rw [hframe])

theorem KeysKept.written {σ : State} (h : KeysKept σ) (cfg : Config) (action : Char) (address : Nat) :
    KeysKept (writeMemAccesses cfg action address σ) := by
  unfold writeMemAccesses
  split
  · exact h
  · refine h.flushed cfg ?_
    split
    · exact discardLockAccess_sublist _ _
    · exact List.Sublist.refl _

theorem AccessesNumbered.same {σ σ' : State} (h : AccessesNumbered σ) (ha : σ'.accessOFile = σ.accessOFile)
    (hp : σ'.lastMemAccesses = σ.lastMemAccesses) (hn : σ'.curAccessID = σ.curAccessID) : AccessesNumbered σ' :=
  h.sublist (by rw [ha, hp]) hn

/-- A buffered access gets a new id. -/
theorem AccessesNumbered.buffered {σ σ' : State} (h : AccessesNumbered σ) {a : MemAccess} (ha : a.id = σ.curAccessID)
    (hf : σ'.accessOFile = σ.accessOFile) (hp : σ'.lastMemAccesses = σ.lastMemAccesses ++ [a])
    (hn : σ'.curAccessID = σ.curAccessID + 1) : AccessesNumbered σ' := by
  refine ⟨?_, ?_⟩
  · rw [hf, hp, ← List.append_assoc, List.map_append, List.pairwise_append]
    refine ⟨h.increasing, by simp, ?_⟩
    intro i hi j hj
    obtain ⟨b, hb, rfl⟩ := List.mem_map.mp hi
    rw [List.map_singleton, List.mem_singleton] at hj
    rw [hj, ha]
    exact h.next b hb
  · intro b hb
    rw [hf, hp, ← List.append_assoc] at hb
    rw [hn]
    rcases List.mem_append.mp hb with hb | hb
    · exact Nat.lt_succ_of_lt (h.next b hb)
    · rw [List.mem_singleton.mp hb, ha]
      exact Nat.lt_succ_self _

/-- A move that leaves the lock objects and stacks alone. -/
theorem KeysKept.touched {σ σ' : State} (h : KeysKept σ) (hw : σ'.lockManager.WellFormed)
    (ht : LockManager.Touched 0 σ.lockManager σ'.lockManager) (hl : σ'.locksOFile = σ.locksOFile)
    (ha : AccessesNumbered σ') : KeysKept σ' :=
  ⟨hw, h.keyed.touched ht, h.locks.congr hl ht.used ht.lockId, ha⟩

theorem KeysKept.quiet {σ σ' : State} (h : KeysKept σ) (hq : Quiet σ σ') (hl : σ'.locksOFile = σ.locksOFile) :
    KeysKept σ' := by
  obtain ⟨ms, -, hlm⟩ := hq.lm
  have hk := LockManager.kept_stderr σ.lockManager (σ.lockManager.stderr ++ ms)
  refine h.touched ?_ ?_ hl (h.accesses.same hq.access hq.pending hq.nextId)
  · rw [hlm]
    exact hk.wellFormed h.wellFormed h.wellFormed.registered
  · rw [hlm]
    exact ⟨LockManager.framed_stderr 0 _ _, rfl, rfl, rfl, rfl⟩

/-- A transition of an allocated lock keeps all keys. -/
theorem KeysKept.transition {σ : State} {lm : LockManager} (h : KeysKept σ) {l : LockPtr} {e : LockEvent}
    {kernelDir : String} {ctx : Int} (hl : l < σ.lockManager.objects)
    (ht : σ.lockManager.transition l e kernelDir ctx = .ok lm) : KeysKept { σ with lockManager := lm } := by
  have hf := LockManager.transition_framed ht
  exact ⟨h.wellFormed.transition hl ht, h.keyed.transition hl ht, h.locks.congr rfl hf.used hf.lockId,
    h.accesses.same rfl rfl rfl⟩

/-- A new lock keeps all keys. -/
theorem KeysKept.allocated {σ : State} (h : KeysKept σ) (cls : LockClass) (address allocID : Nat)
    (lockType name : String) (flags : Nat) :
    KeysKept { σ with
      lockManager := σ.lockManager.allocated cls address allocID lockType name flags
      locksOFile := σ.locksOFile ++
        writeLock ((σ.lockManager.allocated cls address allocID lockType name flags).heap σ.lockManager.objects) } :=
  ⟨h.wellFormed.allocated cls address allocID lockType name flags, h.keyed.allocated cls address allocID lockType name flags,
    h.locks.allocated h.keyed.lockIds cls address allocID lockType name flags, h.accesses.same rfl rfl rfl⟩

theorem KeysKept.handlePV {cfg : Config} {σ σ' : State} {e : LockEvent} (h : KeysKept σ)
    (hp : handlePV cfg σ e = .ok σ') : KeysKept σ' := by
  obtain ⟨⟨lock, σ₁⟩, hres, hp⟩ := bind_ok.mp hp
  cases lock with
  | none =>
    cases hp
    exact h.quiet (resolveLock_none hres).1 (resolveLock_unwritten hres)
  | some l =>
    obtain ⟨lm, ht, hp⟩ := bind_ok.mp hp
    cases hp
    rcases resolveLock_written hres with ⟨hl, rfl⟩ | ⟨cls, allocID, name, rfl, rfl⟩
    · exact h.transition (h.wellFormed.registered _ _ hl) ht
    · exact (h.allocated cls e.address allocID e.lockType name e.flags).transition (Nat.lt_succ_self _) ht

/-- One event keeps all keys. -/
theorem KeysKept.dispatched {cfg : Config} {σ σ' : State} {e : Event} (h : KeysKept σ)
    (hd : dispatch cfg σ e = .ok σ') : KeysKept σ' := by
  cases e with
  | lockOp ev => exact h.handlePV hd
  | alloc ts base size typeStr =>
    exact h.quiet (handleAlloc_ok hd) (dispatch_locksOFile hd (by simp))
  | other ts c =>
    have hl := dispatch_locksOFile hd (by simp)
    cases hd
    exact h.quiet ⟨rfl, rfl, rfl, LockManager.chatter_log _ _ (by simp [Msg.internal])⟩ hl
  | free ts base size =>
    have hl := dispatch_locksOFile hd (by simp)
    cases dispatch_ok hd with
    | quiet _ _ hq _ _ => exact h.quiet hq hl
    | freed _ _ _ a rows ha =>
      have hk := LockManager.kept_deleteLockByArea σ.lockManager base (toU64 a.size)
      refine ⟨hk.wellFormed h.wellFormed ?_, h.keyed.deleteLockByArea base _, ?_, h.accesses.same rfl rfl rfl⟩
      · intro b l hb
        rw [LockManager.deleteLockByArea, Std.ExtTreeMap.getElem?_filter'] at hb
        exact h.wellFormed.registered b l (Option.filter_eq_some_iff.mp hb).1
      · exact h.locks.congr rfl (fun x => ⟨fun hx => ⟨hx.allocated, hx.has⟩, fun hx => ⟨hx.allocated, hx.has⟩⟩) fun _ => rfl
  | access ev =>
    have hl := dispatch_locksOFile hd (by simp)
    cases dispatch_ok hd with
    | quiet _ _ hq _ _ => exact h.quiet hq hl
    | buffered _ a trace next traces ha hin =>
      refine h.touched h.wellFormed (LockManager.Touched.refl 0 _) hl ?_
      exact h.accesses.buffered rfl rfl rfl rfl

theorem step_keysKept {cfg : Config} {σ σ' : State} {e : Event} (h : KeysKept σ) (hs : step cfg σ e = .ok σ') :
    KeysKept σ' := by
  unfold step at hs
  have h' : KeysKept { σ with ts := e.ts } :=
    ⟨h.wellFormed, h.keyed, ⟨h.locks.nodup, h.locks.used⟩, h.accesses.same rfl rfl rfl⟩
  split at hs
  · cases hs
    exact h'
  · exact (h'.written cfg e.action e.address).dispatched hs

/-- The keys of the four files. -/
structure KeyIntegrity (σ : State) : Prop where
  txns : (σ.lockManager.txnsOFile.map TxnRow.id).Nodup
  retired : ∀ r ∈ σ.lockManager.txnsOFile, r.id < σ.lockManager.nextTXNID ∧
    ∀ c, ∀ t ∈ σ.lockManager.stack c, t.id ≠ r.id
  held : (σ.lockManager.locksHeldOFile.map LockHeldRow.key).Nodup
  heldTxn : ∀ r ∈ σ.lockManager.locksHeldOFile, r.txnId ∈ σ.lockManager.txnsOFile.map TxnRow.id
  locks : (σ.locksOFile.map LockRow.id).Nodup
  heldLock : ∀ r ∈ σ.lockManager.locksHeldOFile, r.lockId ∈ σ.locksOFile.map LockRow.id ∧
    ∃ x, σ.lockManager.Used x ∧ σ.lockManager.lockId x = r.lockId
  accesses : (σ.accessOFile.map (fun r => r.access.id)).Pairwise (· < ·)

theorem keyIntegrity_of {σ : State} (hk : σ.lockManager.Keyed) (hl : LocksWritten σ) (ha : AccessesNumbered σ) :
    KeyIntegrity σ where
  txns := hk.txns
  retired := hk.ids.txns
  held := hk.pairs
  heldTxn r hr := by
    obtain ⟨t, ht, he⟩ := hk.recorded r hr
    exact List.mem_map.mpr ⟨t, ht, he⟩
  locks := hl.nodup
  heldLock r hr := ⟨(hl.used r.lockId).mpr (hk.named r hr), hk.named r hr⟩
  accesses := by
    have := ha.increasing
    rw [List.map_append, List.pairwise_append, List.map_map] at this
    exact this.1

/-- The end of a run keeps all keys. -/
theorem finish_keyIntegrity {cfg : Config} {σ σ' : State} (h : KeysKept σ) (hf : finish cfg σ = .ok σ') :
    KeyIntegrity σ' := by
  have h₁ : KeysKept { σ with allocOFile := σ.allocOFile ++ openAllocRows σ } :=
    ⟨h.wellFormed, h.keyed, ⟨h.locks.nodup, h.locks.used⟩, h.accesses.same rfl rfl rfl⟩
  have h₂ := h₁.written cfg 'v' 0
  obtain ⟨lm, hc, hf⟩ := bind_ok.mp hf
  cases hf
  obtain ⟨hK, hheap, hobj⟩ := h₂.keyed.closeAllTXNs hc
  refine keyIntegrity_of hK (h₂.locks.congr rfl ?_ ?_) (h₂.accesses.same rfl rfl rfl)
  · exact fun x => ⟨fun hx => hx.congr hheap.symm hobj.symm, fun hx => hx.congr hheap hobj⟩
  · intro x
    unfold LockManager.lockId
    rw [hheap]

/-- The keys hold in every state of every run, and in its output. -/
theorem key_integrity (cfg : Config) (trace : List Event) :
    Throughout (step cfg) KeyIntegrity trace (.init cfg) ∧ ∀ σ, convert cfg trace = .ok σ → KeyIntegrity σ := by
  have hall : Along (step cfg) (fun _ _ => True) trace (.init cfg) := fun _ _ _ _ _ _ => trivial
  refine ⟨?_, ?_⟩
  · intro pre post he t ht
    have hk := throughout_of_invariant (fun s e t hs _ hst => step_keysKept hs hst) hall (init_keysKept cfg)
      pre post he t ht
    exact keyIntegrity_of hk.keyed hk.locks hk.accesses
  · intro σ hσ
    obtain ⟨σ₁, hrun, hfin⟩ := bind_ok.mp hσ
    have hk := run_invariant (fun s e t hs _ hst => step_keysKept hs hst) hall (init_keysKept cfg) hrun
    exact finish_keyIntegrity hk hfin

end LockDoc.Convert
