import LockDoc.Convert.Conserve
import LockDoc.Convert.Tally
import LockDoc.Convert.Origin

/-!
# Transactions in time

In a trace whose timestamps never go back, a transaction is open while the accesses that are
attributed to it happen: between its start and its end in `txns.csv`. The buffer between
an access and its attribution does not get in the way, since every event that changes a
stack empties it first.
-/
namespace LockDoc.Convert

open FallibleRun

/-- The timestamps of a trace never go back. -/
def InOrder (trace : List Event) : Prop := (trace.map Event.ts).Pairwise (· ≤ ·)

instance (trace : List Event) : Decidable (InOrder trace) :=
  inferInstanceAs (Decidable ((trace.map Event.ts).Pairwise (· ≤ ·)))

/-- What the rows of the output say about time. -/
structure InTime (σ : State) : Prop where
  txns : ∀ r ∈ σ.lockManager.txnsOFile, r.startTs ≤ r.endTs
  accesses : ∀ row ∈ σ.accessOFile, ∀ r ∈ σ.lockManager.txnsOFile, row.txnId = some r.id →
    r.startTs ≤ row.access.ts ∧ row.access.ts ≤ r.endTs
  locks : ∀ h ∈ σ.lockManager.locksHeldOFile, ∀ r ∈ σ.lockManager.txnsOFile, h.txnId = r.id → h.start ≤ r.endTs

namespace LockManager

/-- The manager at time `now`: nothing lies in the future, and what is open or recorded
encloses the accesses in `rows`. -/
structure Timed (rows : List AccessRow) (now : Nat) (lm : LockManager) : Prop where
  ids : lm.IdsFresh
  used : ∀ row ∈ rows, ∀ i, row.txnId = some i → i < lm.nextTXNID
  past : ∀ row ∈ rows, row.access.ts ≤ now
  started : ∀ c, ∀ t ∈ lm.stack c, t.startTs ≤ now
  acquired : ∀ l, ∀ p ∈ (lm.heap l).lastNPos, p.start ≤ now
  enclosing : ∀ row ∈ rows, ∀ c, ∀ t ∈ lm.stack c, row.txnId = some t.id → t.startTs ≤ row.access.ts
  txns : ∀ r ∈ lm.txnsOFile, r.startTs ≤ r.endTs ∧ r.endTs ≤ now
  recorded : ∀ row ∈ rows, ∀ r ∈ lm.txnsOFile, row.txnId = some r.id →
    r.startTs ≤ row.access.ts ∧ row.access.ts ≤ r.endTs
  locks : ∀ h ∈ lm.locksHeldOFile, ∀ r ∈ lm.txnsOFile, h.txnId = r.id → h.start ≤ r.endTs

namespace Timed

variable {rows : List AccessRow} {now : Nat} {lm lm' : LockManager}

theorem later (h : Timed rows now lm) {now' : Nat} (hle : now ≤ now') : Timed rows now' lm where
  ids := h.ids
  used := h.used
  past row hrow := Nat.le_trans (h.past row hrow) hle
  started c t ht := Nat.le_trans (h.started c t ht) hle
  acquired l p hp := Nat.le_trans (h.acquired l p hp) hle
  enclosing := h.enclosing
  txns r hr := ⟨(h.txns r hr).1, Nat.le_trans (h.txns r hr).2 hle⟩
  recorded := h.recorded
  locks := h.locks

/-- Stacks and rows are the same, and no position is new. -/
theorem congr (h : Timed rows now lm) (hs : ∀ c, lm'.stack c = lm.stack c) (hn : lm'.nextTXNID = lm.nextTXNID)
    (ht : lm'.txnsOFile = lm.txnsOFile) (hl : lm'.locksHeldOFile = lm.locksHeldOFile)
    (hp : ∀ l, ∀ p ∈ (lm'.heap l).lastNPos, p ∈ (lm.heap l).lastNPos) : Timed rows now lm' where
  ids := h.ids.same hs hn ht hl
  used row hrow i hi := by
    rw [hn]
    exact h.used row hrow i hi
  past := h.past
  started c t htm := by
    rw [hs] at htm
    exact h.started c t htm
  acquired l p hpm := h.acquired l p (hp l p hpm)
  enclosing row hrow c t htm := by
    rw [hs] at htm
    exact h.enclosing row hrow c t htm
  txns r hr := by
    rw [ht] at hr
    exact h.txns r hr
  recorded row hrow r hr := by
    rw [ht] at hr
    exact h.recorded row hrow r hr
  locks k hk r hr := by
    rw [hl] at hk
    rw [ht] at hr
    exact h.locks k hk r hr

/-- What a closed transaction lists was acquired before. -/
theorem closedHeldRows_start (h : Timed rows now lm) {popped below : List TXN} {k : LockHeldRow}
    (hk : k ∈ closedHeldRows lm.heap popped below) : k.start ≤ now := by
  obtain ⟨-, -, -, u, -, pos, ps, hpos, hrow⟩ := closedHeldRows_source k hk
  rw [hrow]
  exact h.acquired u.lock pos (by simp [hpos])

/-- What is recorded when a stack is taken apart ends now. -/
theorem closed (h : Timed rows now lm) {ctx ctxOld : Int} {above popped below kept : List TXN} {msgs : List Msg}
    (hs : lm.stack ctx = popped ++ below) (hk : kept.Sublist below) :
    Timed rows now (lm.closed now ctx ctxOld above popped below kept msgs) := by
  have hpopped : ∀ u ∈ popped, u ∈ lm.stack ctx := fun u hu => by
    rw [hs]
    exact List.mem_append_left _ hu
  have hkept : ∀ u ∈ kept, u ∈ lm.stack ctx := fun u hu => by
    rw [hs]
    exact List.mem_append_right _ (hk.subset hu)
  have hnew : ∀ r ∈ txnRows now ctxOld popped, ∃ u ∈ popped, r = ⟨u.id, u.startTs, u.startCtx, now, ctxOld⟩ := by
    intro r hr
    obtain ⟨u, hu, rfl⟩ := List.mem_map.mp hr
    exact ⟨u, (List.mem_filter.mp hu).1, rfl⟩
  have hopen : ∀ c, ∀ t ∈ (lm.closed now ctx ctxOld above popped below kept msgs).stack c,
      (t.startTs = now ∧ lm.nextTXNID ≤ t.id) ∨ ∃ d, t ∈ lm.stack d := by
    intro c t ht
    rw [stack_closed] at ht
    split at ht
    · rcases List.mem_append.mp ht with ht | ht
      · exact .inl ⟨startTs_restart ht, (mem_restart ht).1⟩
      · exact .inr ⟨ctx, hkept t ht⟩
    · exact .inr ⟨c, ht⟩
  refine ⟨h.ids.closed hs hk, ?_, h.past, ?_, h.acquired, ?_, ?_, ?_, ?_⟩
  · intro row hrow i hi
    exact Nat.lt_of_lt_of_le (h.used row hrow i hi) (Nat.le_add_right _ _)
  · intro c t ht
    rcases hopen c t ht with ⟨he, -⟩ | ⟨d, ht⟩
    · omega
    · exact h.started d t ht
  · intro row hrow c t ht he
    rcases hopen c t ht with ⟨-, hid⟩ | ⟨d, ht⟩
    · have := h.used row hrow t.id he
      omega
    · exact h.enclosing row hrow d t ht he
  · intro r hr
    rcases List.mem_append.mp hr with hr | hr
    · exact h.txns r hr
    · obtain ⟨u, hu, rfl⟩ := hnew r hr
      exact ⟨h.started ctx u (hpopped u hu), Nat.le_refl _⟩
  · intro row hrow r hr he
    rcases List.mem_append.mp hr with hr | hr
    · exact h.recorded row hrow r hr he
    · obtain ⟨u, hu, rfl⟩ := hnew r hr
      exact ⟨h.enclosing row hrow ctx u (hpopped u hu) he, h.past row hrow⟩
  · intro k hk' r hr he
    rcases List.mem_append.mp hr with hr | hr
    · rcases List.mem_append.mp hk' with hk' | hk'
      · exact h.locks k hk' r hr he
      · -- The transaction was still open, so no earlier row has its id.
        obtain ⟨u, hu, hid⟩ := closedHeldRows_txnId k hk'
        exact absurd (hid.symm.trans he) ((h.ids.txns r hr).2 ctx u (hpopped u hu))
    · obtain ⟨u, hu, rfl⟩ := hnew r hr
      rcases List.mem_append.mp hk' with hk' | hk'
      · exact absurd he.symm ((h.ids.locks k hk').2 ctx u (hpopped u hu))
      · exact h.closedHeldRows_start hk'

/-- A `P()` opens a transaction with its own timestamp. -/
theorem acquire (h : Timed rows now lm) {l : LockPtr} {pos : LockPos} {ctx : Int} (hpos : pos.start = now) :
    Timed rows now (lm.acquire l pos ctx) where
  ids := h.ids.acquire l pos ctx
  used row hrow i hi := Nat.lt_succ_of_lt (h.used row hrow i hi)
  past := h.past
  started c t ht := by
    rw [stack_acquire] at ht
    split at ht
    · rcases List.mem_cons.mp ht with rfl | ht
      · exact Nat.le_of_eq hpos
      · exact h.started ctx t ht
    · exact h.started c t ht
  acquired k p hp := by
    have hheap : (lm.acquire l pos ctx).heap k = if k = l then (lm.heap l).push pos else lm.heap k :=
      Function.update_apply ..
    rw [hheap] at hp
    split at hp
    · simp only [RWLock.push, List.mem_cons] at hp
      rcases hp with rfl | hp
      · exact Nat.le_of_eq hpos
      · exact h.acquired l p hp
    · exact h.acquired k p hp
  enclosing row hrow c t ht he := by
    rw [stack_acquire] at ht
    split at ht
    · rcases List.mem_cons.mp ht with rfl | ht
      · exact absurd (h.used row hrow _ he) (Nat.lt_irrefl _)
      · exact h.enclosing row hrow ctx t ht he
    · exact h.enclosing row hrow c t ht he
  txns := h.txns
  recorded := h.recorded
  locks := h.locks

theorem transition {e : LockEvent} (h : Timed rows e.ts lm) {l : LockPtr} {kernelDir : String} {ctx : Int}
    (ht : lm.transition l e kernelDir ctx = .ok lm') : Timed rows e.ts lm' := by
  refine transition_rule ?_ ?_ ?_ ht h
  · intro lm lk msgs hpos h
    refine h.congr (fun _ => rfl) rfl rfl rfl ?_
    intro k p hp
    by_cases hk : k = l
    · subst hk
      exact hpos p (by simpa [setLock] using hp)
    · simpa [setLock, hk] using hp
  · intro lm c above popped below kept msgs hs _ hk h
    exact h.closed hs hk
  · intro lm h
    exact h.acquire rfl

/-- The accesses in `pending` are written, under the transactions that were open all along. -/
theorem written (h : Timed rows now lm) {cfg : Config} {pending : List MemAccess} {k : Int → Nat}
    (hpast : ∀ a ∈ pending, a.ts ≤ now) (hopen : ∀ a ∈ pending, ∀ c, ∀ t ∈ lm.stack c, t.startTs ≤ a.ts)
    (hs : ∀ c, lm'.stack c = bump (k c) (lm.stack c)) (he : lm' = { lm with activeTXNs := lm'.activeTXNs }) :
    Timed (rows ++ pending.map (accessRow cfg lm)) now lm' := by
  have hstack : ∀ c, ∀ t ∈ lm'.stack c, ∃ u ∈ lm.stack c, u.id = t.id ∧ u.startTs = t.startTs := by
    intro c t ht
    rw [hs] at ht
    cases hst : lm.stack c with
    | nil => simp [hst, bump] at ht
    | cons u below =>
      rw [hst, bump] at ht
      rcases List.mem_cons.mp ht with rfl | ht
      · exact ⟨u, List.mem_cons_self, rfl, rfl⟩
      · exact ⟨t, List.mem_cons_of_mem _ ht, rfl, rfl⟩
  have hnew : ∀ a i, (accessRow cfg lm a).txnId = some i → ∃ c, ∃ t ∈ lm.stack c, t.id = i := by
    intro a i hi
    obtain ⟨t, ht, rfl⟩ := Option.map_eq_some_iff.mp hi
    exact ⟨_, t, List.mem_of_mem_head? ht, rfl⟩
  have hrows : ∀ row ∈ rows ++ pending.map (accessRow cfg lm),
      row ∈ rows ∨ ∃ a ∈ pending, row = accessRow cfg lm a := by
    intro row hrow
    rcases List.mem_append.mp hrow with hrow | hrow
    · exact .inl hrow
    · obtain ⟨a, ha, rfl⟩ := List.mem_map.mp hrow
      exact .inr ⟨a, ha, rfl⟩
  rw [he] at hstack ⊢
  refine ⟨h.ids.congr (fun c => ⟨_, (he ▸ hs) c⟩) rfl rfl rfl, ?_, ?_, ?_, h.acquired, ?_, h.txns, ?_, h.locks⟩
  · intro row hrow i hi
    rcases hrows row hrow with hrow | ⟨a, -, rfl⟩
    · exact h.used row hrow i hi
    · obtain ⟨c, t, ht, rfl⟩ := hnew a i hi
      exact h.ids.openLt c t ht
  · intro row hrow
    rcases hrows row hrow with hrow | ⟨a, ha, rfl⟩
    · exact h.past row hrow
    · exact hpast a ha
  · intro c t ht
    obtain ⟨u, hu, -, hts⟩ := hstack c t ht
    exact hts ▸ h.started c u hu
  · intro row hrow c t ht hid
    obtain ⟨u, hu, hui, hts⟩ := hstack c t ht
    rw [← hts]
    rcases hrows row hrow with hrow | ⟨a, ha, rfl⟩
    · exact h.enclosing row hrow c u hu (hui ▸ hid)
    · exact hopen a ha c u hu
  · intro row hrow r hr hid
    rcases hrows row hrow with hrow | ⟨a, ha, rfl⟩
    · exact h.recorded row hrow r hr hid
    · -- The transaction of a new row is open, so it has no row in `txns.csv`.
      obtain ⟨c, t, ht, hti⟩ := hnew a r.id hid
      exact absurd hti ((h.ids.txns r hr).2 c t ht)

end Timed

end LockManager

open LockManager

/-- The manager is in time, and no transaction was opened after a buffered access. -/
structure State.Timed (σ : State) : Prop where
  lm : σ.lockManager.Timed σ.accessOFile σ.ts
  past : ∀ a ∈ σ.lastMemAccesses, a.ts ≤ σ.ts
  opened : ∀ a ∈ σ.lastMemAccesses, ∀ c, ∀ t ∈ σ.lockManager.stack c, t.startTs ≤ a.ts

theorem State.Timed.later {σ : State} (h : σ.Timed) {ts : Nat} (hle : σ.ts ≤ ts) : { σ with ts := ts }.Timed where
  lm := h.lm.later hle
  past a ha := Nat.le_trans (h.past a ha) hle
  opened := h.opened

/-- A flush empties the buffer into rows that are in time. -/
theorem State.Timed.flushed {σ : State} (h : σ.Timed) (cfg : Config) {pending : List MemAccess}
    (hp : ∀ a ∈ pending, a ∈ σ.lastMemAccesses) :
    State.Timed { pending.foldl (State.writeMemAccess cfg) σ with lastMemAccesses := [] } where
  lm := by
    obtain ⟨hs, hr⟩ := writeMemAccesses_fold cfg σ pending
    have hts : (pending.foldl (State.writeMemAccess cfg) σ).ts = σ.ts := by rw [writeMemAccesses_frame]
    dsimp only
    rw [hr, hts]
    exact h.lm.written (fun a ha => h.past a (hp a ha)) (fun a ha => h.opened a (hp a ha)) hs
      (kept_writeMemAccesses cfg σ pending).2
  past := by simp
  opened := by simp

theorem State.Timed.attributed {σ : State} (h : σ.Timed) (cfg : Config) {e : Event} (hle : σ.ts ≤ e.ts) :
    (attributed cfg σ e).Timed := by
  rcases attributed_eq cfg σ e with ⟨he, -⟩ | ⟨-, pending, hp, he⟩
  · rw [he]
    exact h.later hle
  · rw [he]
    refine (h.later hle).flushed cfg ?_
    intro a ha
    rw [hp] at ha
    split at ha
    · exact (discardLockAccess_sublist _ _).subset ha
    · exact ha

/-- No handler sets the clock. -/
theorem dispatch_ts {cfg : Config} {σ σ' : State} {e : Event} (h : dispatch cfg σ e = .ok σ') : σ'.ts = σ.ts := by
  by_cases he : ∃ ev, e = .access ev
  · obtain ⟨ev, rfl⟩ := he
    simp only [dispatch, handleAccess] at h
    split at h
    · cases h
      rfl
    · split at h
      · cases h
      · obtain ⟨trace, traces, next, hst⟩ := addStacktrace_eq σ ev.instrPtr ev.stacktrace
        simp only [hst] at h
        cases h
        rfl
  · exact dispatch_kept (fun _ _ _ _ _ _ _ _ => rfl) h (fun ev hev => he ⟨ev, hev⟩)

/-- After an event that is no access, the buffer is empty. -/
theorem attributed_pending {cfg : Config} {σ : State} {e : Event} (he : ¬(e.action = 'r' ∨ e.action = 'w')) :
    (attributed cfg σ e).lastMemAccesses = [] := by
  rcases attributed_eq cfg σ e with ⟨-, ha⟩ | ⟨-, pending, -, he⟩
  · exact absurd ha he
  · rw [he]

theorem handled_timed {cfg : Config} {σ σ' : State} {e : Event} (h : σ.Timed) (hts : σ.ts = e.ts)
    (hidle : ¬(e.action = 'r' ∨ e.action = 'w') → σ.lastMemAccesses = []) (hd : dispatch cfg σ e = .ok σ') :
    σ'.Timed := by
  have hts' := dispatch_ts hd
  cases dispatch_ok hd with
  | quiet e σ' hq idle unknown =>
    obtain ⟨ms, -, hlm⟩ := hq.lm
    refine ⟨?_, ?_, ?_⟩
    · rw [hts', hq.access, hlm]
      exact h.lm.congr (fun _ => rfl) rfl rfl rfl (fun _ _ hp => hp)
    · rw [hts', hq.pending]
      exact h.past
    · rw [hq.pending, hlm]
      exact h.opened
  | freed ts base size a rows ha =>
    exact ⟨h.lm.congr (fun _ => rfl) rfl rfl rfl (fun _ _ hp => hp), h.past, h.opened⟩
  | buffered ev a trace next traces ha hin =>
    have hev : σ.ts = ev.ts := hts
    refine ⟨h.lm, ?_, ?_⟩
    · intro b hb
      rcases List.mem_append.mp hb with hb | hb
      · exact h.past b hb
      · rw [List.mem_singleton] at hb
        subst hb
        exact Nat.le_of_eq hev.symm
    · intro b hb c t ht
      rcases List.mem_append.mp hb with hb | hb
      · exact h.opened b hb c t ht
      · rw [List.mem_singleton] at hb
        subst hb
        exact hev ▸ h.lm.started c t ht
  | acted ev l σ₁ lm hres hr ht =>
    have hnone : σ.lastMemAccesses = [] := hidle (by simp [Event.action])
    have hev : σ.ts = ev.ts := hts
    have hσ₁ : σ₁.accessOFile = σ.accessOFile ∧ σ₁.lastMemAccesses = [] ∧ σ₁.lockManager.Timed σ.accessOFile ev.ts := by
      rw [← hev]
      cases hr with
      | known l hl => exact ⟨rfl, hnone, h.lm⟩
      | fresh cls allocID name hl isP hc rows =>
        refine ⟨rfl, hnone, h.lm.congr (fun _ => rfl) rfl rfl rfl ?_⟩
        intro k p hp
        by_cases hk : k = σ.lockManager.objects
        · subst hk
          rw [LockManager.heap_allocated_new] at hp
          cases cls <;> simp [RWLock.initIDs] at hp
        · have hold : (σ.lockManager.allocated cls ev.address allocID ev.lockType name ev.flags).heap k =
              σ.lockManager.heap k := Function.update_of_ne hk ..
          rwa [hold] at hp
    obtain ⟨hrows, hbuf, hlm⟩ := hσ₁
    refine ⟨?_, ?_, ?_⟩
    · rw [hts', hev]
      dsimp only
      rw [hrows]
      exact hlm.transition ht
    · simp [hbuf]
    · simp [hbuf]

/-- One event, not earlier than the last one. -/
theorem step_timed {cfg : Config} {σ σ' : State} {e : Event} (h : σ.Timed) (hle : σ.ts ≤ e.ts)
    (hst : step cfg σ e = .ok σ') : σ'.Timed ∧ σ'.ts = e.ts := by
  unfold step at hst
  split at hst
  · cases hst
    exact ⟨h.later hle, rfl⟩
  · have hts : (attributed cfg σ e).ts = e.ts := by rw [attributed_frame]
    exact ⟨handled_timed (h.attributed cfg hle) hts attributed_pending hst, (dispatch_ts hst).trans hts⟩

theorem init_timed (cfg : Config) : (State.init cfg).Timed where
  lm := by
    refine ⟨LockManager.init_idsFresh, ?_, ?_, ?_, fun l p hp => absurd hp List.not_mem_nil, ?_, ?_, ?_, ?_⟩ <;>
      simp [State.init, LockManager.init, LockManager.stack, OrdMap.getD_eq]
  past := by simp [State.init]
  opened := by simp [State.init]

/-- A run over events in order. -/
theorem run_timed {cfg : Config} {trace : List Event} {σ σ' : State} (hmono : InOrder trace)
    (hle : ∀ e ∈ trace, σ.ts ≤ e.ts) (h : σ.Timed) (hr : run (step cfg) trace σ = .ok σ') : σ'.Timed := by
  induction trace generalizing σ with
  | nil =>
    cases hr
    exact h
  | cons e trace ih =>
    obtain ⟨σ₁, hst, hr⟩ := run_cons_ok.mp hr
    obtain ⟨h₁, hts⟩ := step_timed h (hle e List.mem_cons_self) hst
    simp only [InOrder, List.map_cons, List.pairwise_cons] at hmono
    refine ih hmono.2 ?_ h₁ hr
    intro f hf
    rw [hts]
    exact hmono.1 f.ts (List.mem_map_of_mem hf)

/-- The final flush ends what is open at the time of the last event. -/
theorem closeAll_inTime {rows : List AccessRow} {now : Nat} {lm lm' : LockManager} (h : lm.Timed rows now)
    (hc : lm.closeAllTXNs now = .ok lm') :
    (∀ r ∈ lm'.txnsOFile, r.startTs ≤ r.endTs) ∧
      (∀ row ∈ rows, ∀ r ∈ lm'.txnsOFile, row.txnId = some r.id →
        r.startTs ≤ row.access.ts ∧ row.access.ts ≤ r.endTs) ∧
      (∀ k ∈ lm'.locksHeldOFile, ∀ r ∈ lm'.txnsOFile, k.txnId = r.id → k.start ≤ r.endTs) := by
  have hall := closeAllTXNs_ok hc
  have hrow : ∀ r ∈ lm'.txnsOFile, r ∈ lm.txnsOFile ∨ ∃ c, ∃ u ∈ lm.stack c, r = ⟨u.id, u.startTs, u.startCtx, now, c⟩ := by
    intro r hr
    rw [hall.txns] at hr
    rcases List.mem_append.mp hr with hr | hr
    · exact .inl hr
    · obtain ⟨c, -, hr⟩ := List.mem_flatMap.mp hr
      obtain ⟨u, hu, rfl⟩ := List.mem_map.mp hr
      exact .inr ⟨c, u, (List.mem_filter.mp hu).1, rfl⟩
  have hlock : ∀ k ∈ lm'.locksHeldOFile, k ∈ lm.locksHeldOFile ∨
      k.start ≤ now ∧ ∃ c, ∃ u ∈ lm.stack c, u.id = k.txnId := by
    intro k hk
    rw [hall.locks] at hk
    rcases List.mem_append.mp hk with hk | hk
    · exact .inl hk
    · obtain ⟨c, -, hk⟩ := List.mem_flatMap.mp hk
      obtain ⟨u, hu, hid, -⟩ := closedHeldRows_source k hk
      exact .inr ⟨h.closedHeldRows_start hk, c, u, hu, hid⟩
  refine ⟨?_, ?_, ?_⟩
  · intro r hr
    rcases hrow r hr with hr | ⟨c, u, hu, rfl⟩
    · exact (h.txns r hr).1
    · exact h.started c u hu
  · intro row hmem r hr he
    rcases hrow r hr with hr | ⟨c, u, hu, rfl⟩
    · exact h.recorded row hmem r hr he
    · exact ⟨h.enclosing row hmem c u hu he, h.past row hmem⟩
  · intro k hk r hr he
    rcases hlock k hk with hk | ⟨hstart, d, v, hv, hid⟩ <;> rcases hrow r hr with hr | ⟨c, u, hu, rfl⟩
    · exact h.locks k hk r hr he
    · exact absurd he.symm ((h.ids.locks k hk).2 c u hu)
    · exact absurd (hid.trans he) ((h.ids.txns r hr).2 d v hv)
    · exact hstart

/-- In the output of a trace in order, every transaction ends after it has started, the
accesses of a transaction lie between its start and its end, and a lock that is listed for
a transaction was acquired before the transaction ended. -/
theorem convert_inTime {cfg : Config} {trace : List Event} {σ : State} (hmono : InOrder trace)
    (h : convert cfg trace = .ok σ) : InTime σ := by
  obtain ⟨σ₁, hrun, hfin⟩ := bind_ok.mp h
  obtain ⟨lm, hlm, hfin⟩ := bind_ok.mp hfin
  cases hfin
  have h₁ := run_timed hmono (fun e _ => Nat.zero_le _) (init_timed cfg) hrun
  have h₂ : State.Timed { σ₁ with allocOFile := σ₁.allocOFile ++ openAllocRows σ₁ } := ⟨h₁.lm, h₁.past, h₁.opened⟩
  have h₃ := h₂.flushed cfg (fun a ha => (discardLockAccess_sublist 0 _).subset ha)
  rw [← writeMemAccesses_final] at h₃
  obtain ⟨htxns, haccesses, hlocks⟩ := closeAll_inTime h₃.lm hlm
  exact ⟨htxns, haccesses, hlocks⟩

theorem accessUnderWriter_inTime : ∃ σ, convert (.trackAll false) accessUnderWriter = .ok σ ∧ InTime σ := by
  have hmono : InOrder accessUnderWriter := by decide
  obtain ⟨σ, h⟩ : ∃ σ, convert (.trackAll false) accessUnderWriter = .ok σ := ⟨_, rfl⟩
  exact ⟨σ, h, convert_inTime hmono h⟩

end LockDoc.Convert
