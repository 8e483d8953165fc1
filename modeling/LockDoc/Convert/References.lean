import LockDoc.Convert.Attribute
import LockDoc.Convert.Stranded

/-!
# References from accesses to transactions

A transaction that has absorbed accesses leaves a stack by a matching `V()`, by a
restart under a new id, by the final flush, or by the `removeReader` sweep. The first
three record it. The sweep does not, so every transaction id in `accesses.csv` is
recorded as long as no sweep meets a transaction with accesses.
-/
namespace LockDoc.Convert

open FallibleRun

namespace LockManager

/-- The id belongs to a recorded transaction, or to an open one that will be recorded. -/
def Known (lm : LockManager) (i : Nat) : Prop :=
  (∃ r ∈ lm.txnsOFile, r.id = i) ∨ ∃ c, ∃ t ∈ lm.stack c, t.id = i ∧ 0 < t.memAccessCounter

/-- No sweep below the topmost `other` entry of the context meets a reader of the lock
that has accesses. -/
def SweepIsEmpty (lm : LockManager) (l : LockPtr) (other : SubLock) (ctx : Int) : Prop :=
  ∀ above t below, lm.stack ctx = above ++ t :: below → t.label = (l, other) →
    (∀ u ∈ above, u.label ≠ (l, other)) → ∀ u ∈ below, u.label = (l, .reader) → u.memAccessCounter = 0

theorem mem_txnRows (ts : Nat) (c : Int) {s : List TXN} {t : TXN} (ht : t ∈ s) (hc : 0 < t.memAccessCounter) :
    ∃ r ∈ txnRows ts c s, r.id = t.id :=
  ⟨_, List.mem_map.mpr ⟨t, List.mem_filter.mpr ⟨ht, by simpa using hc⟩, rfl⟩, rfl⟩

/-- Finishing transactions forgets no transaction with accesses, unless it sweeps one. -/
theorem Finished.known {lm lm' : LockManager} {l : LockPtr} {ts : Nat} {side : SubLock}
    {rr found : Bool} {ctx ctxOld : Int} (h : Finished lm l ts side rr ctx ctxOld found lm')
    (hs : rr = true → lm.SweepIsEmpty l side ctx) {i : Nat} (hi : lm.Known i) : lm'.Known i := by
  rcases hi with ⟨r, hr, rfl⟩ | ⟨c, t, ht, rfl, hpos⟩
  · left
    cases h with
    | found above u below msgs => exact ⟨r, List.mem_append_left _ hr, rfl⟩
    | missing msgs => exact ⟨r, List.mem_append_left _ hr, rfl⟩
  · by_cases hc : c = ctx
    · subst hc
      have recorded : ∀ {popped : List TXN}, t ∈ popped →
          ∃ r ∈ lm.txnsOFile ++ txnRows ts ctxOld popped, r.id = t.id := by
        intro popped hp
        obtain ⟨r, hr, he⟩ := mem_txnRows ts ctxOld hp hpos
        exact ⟨r, List.mem_append_right _ hr, he⟩
      cases h with
      | found above u below msgs split above_ne label =>
        rw [split, List.mem_append, List.mem_cons] at ht
        rcases ht with ht | rfl | ht
        · exact .inl (recorded (by simp [ht]))
        · exact .inl (recorded (by simp))
        · refine .inr ⟨c, t, ?_, rfl, hpos⟩
          rw [stack_closed, if_pos rfl, List.mem_append]
          right
          cases rr with
          | false => exact ht
          | true =>
            refine List.mem_filter.mpr ⟨ht, ?_⟩
            simp only [decide_eq_true_eq]
            intro hl
            have := hs rfl above u below split label above_ne t ht hl
            omega
      | missing msgs none => exact .inl (recorded ht)
    · exact .inr ⟨c, t, by rw [h.stack_other hc]; exact ht, rfl, hpos⟩

theorem known_of_eq {lm lm' : LockManager} (hs : ∀ c, lm'.stack c = lm.stack c) (ht : lm'.txnsOFile = lm.txnsOFile)
    {i : Nat} (hi : lm.Known i) : lm'.Known i := by
  rcases hi with ⟨r, hr, rfl⟩ | ⟨c, t, hm, rfl, hpos⟩
  · exact .inl ⟨r, by rw [ht]; exact hr, rfl⟩
  · exact .inr ⟨c, t, by rw [hs]; exact hm, rfl, hpos⟩

theorem Prepared.known {lm lm' : LockManager} {l : LockPtr} {ts : Nat} {ctx : Int} {side : SubLock}
    (h : Prepared lm l ts ctx side lm')
    (hs : lm.Flushes l side ctx → lm.SweepIsEmpty l side.other ctx) {i : Nat} (hi : lm.Known i) : lm'.Known i := by
  cases h with
  | plain => exact hi
  | flushed _ lm₁ msgs zero pos fin =>
    have := fin.known (fun _ => hs ⟨zero, pos, fin.mem_of_found⟩) hi
    exact known_of_eq (fun _ => rfl) rfl this
  | unflushed _ _ zero pos fin =>
    refine fin.known (fun _ above t below split label _ => ?_) hi
    have hm : (l, side.other) ∈ labels (lm.stack ctx) := by simp [split, label]
    exact absurd hm fin.not_mem_of_missing
  | reclosed lm₁ p ps pos zero once fin top =>
    have := fin.known (by simp) hi
    exact known_of_eq (fun _ => rfl) rfl this
  | unclosed _ pos zero once fin => exact fin.known (by simp) hi

theorem Released.known {lm lm' : LockManager} {l : LockPtr} {ts : Nat} {ctx : Int} {side : SubLock}
    (h : Released lm l ts ctx side lm') {i : Nat} (hi : lm.Known i) : lm'.Known i := by
  cases h with
  | closed lm₁ p ps msgs top fin => exact known_of_eq (fun _ => rfl) rfl (fin.known (by simp) hi)
  | unclosed lm₁ msgs some fin => exact known_of_eq (fun _ => rfl) rfl (fin.known (by simp) hi)
  | empty msgs none => exact known_of_eq (fun _ => rfl) rfl hi

theorem acquire_known {lm : LockManager} {l : LockPtr} {pos : LockPos} {ctx : Int} {i : Nat} (hi : lm.Known i) :
    (lm.acquire l pos ctx).Known i := by
  rcases hi with ⟨r, hr, rfl⟩ | ⟨c, t, hm, rfl, hpos⟩
  · exact .inl ⟨r, hr, rfl⟩
  · refine .inr ⟨c, t, ?_, rfl, hpos⟩
    rw [stack_acquire]
    split
    · subst c
      exact List.mem_cons_of_mem _ hm
    · exact hm

theorem transition_known {lm lm' : LockManager} {l : LockPtr} {e : LockEvent} {kernelDir : String} {ctx : Int}
    (h : lm.transition l e kernelDir ctx = .ok lm')
    (hs : e.op.isP = true → lm.Flushes l e.op.side ctx → lm.SweepIsEmpty l e.op.side.other ctx)
    {i : Nat} (hi : lm.Known i) : lm'.Known i := by
  have hu := kept_updateFlags lm l e.flags
  have hi' : (lm.updateFlags l e.flags).Known i := hi
  obtain ⟨-, ⟨hP, lm₁, hp, rfl⟩ | ⟨-, hr⟩⟩ := transition_ok h
  · exact acquire_known (hp.known (fun hf => hs hP (hu.flushes.mp hf)) hi')
  · exact hr.known hi'

/-- Counting accesses keeps every known id known. -/
theorem known_of_bump {lm lm' : LockManager} (hs : ∀ c, ∃ k, lm'.stack c = bump k (lm.stack c))
    (ht : lm'.txnsOFile = lm.txnsOFile) {i : Nat} (hi : lm.Known i) : lm'.Known i := by
  rcases hi with ⟨r, hr, rfl⟩ | ⟨c, t, hm, rfl, hpos⟩
  · exact .inl ⟨r, by rw [ht]; exact hr, rfl⟩
  · obtain ⟨k, hk⟩ := hs c
    right
    cases hst : lm.stack c with
    | nil => simp [hst] at hm
    | cons u below =>
      rw [hst, bump] at hk
      rw [hst] at hm
      rcases List.mem_cons.mp hm with rfl | hm
      · refine ⟨c, { t with memAccessCounter := t.memAccessCounter + k }, ?_, rfl, ?_⟩
        · rw [hk]
          exact List.mem_cons_self
        · exact Nat.add_pos_left hpos k
      · exact ⟨c, t, by rw [hk]; exact List.mem_cons_of_mem _ hm, rfl, hpos⟩

end LockManager

/-- Every transaction id of an access is recorded or will be. -/
def RefsKnown (σ : State) : Prop :=
  ∀ row ∈ σ.accessOFile, ∀ i, row.txnId = some i → σ.lockManager.Known i

/-- If the event is a `P()` that flushes the other side of its lock, the sweep meets no
transaction with accesses. -/
def SweepLosesNothing (cfg : Config) (σ : State) (e : Event) : Prop :=
  ∀ ev l, ActsOn cfg σ e ev l → ev.op.isP = true →
    σ.lockManager.Flushes l ev.op.side (cfg.ctxOf ev.ctx) →
      σ.lockManager.SweepIsEmpty l ev.op.side.other (cfg.ctxOf ev.ctx)

open LockManager

/-- Writing a batch of accesses keeps all references known. -/
theorem refsKnown_fold (cfg : Config) {σ : State} (h : RefsKnown σ) (pending : List MemAccess) :
    RefsKnown (pending.foldl (State.writeMemAccess cfg) σ) := by
  obtain ⟨hs, hr⟩ := writeMemAccesses_fold cfg σ pending
  have ht : (pending.foldl (State.writeMemAccess cfg) σ).lockManager.txnsOFile = σ.lockManager.txnsOFile := by
    rw [(kept_writeMemAccesses cfg σ pending).2]
  intro row hrow i hi
  rw [hr, List.mem_append] at hrow
  rcases hrow with hrow | hrow
  · exact known_of_bump (fun c => ⟨_, hs c⟩) ht (h row hrow i hi)
  · obtain ⟨a, ha, rfl⟩ := List.mem_map.mp hrow
    simp only [accessRow] at hi
    right
    refine ⟨cfg.ctxOf a.ctx, ?_⟩
    rw [hs]
    cases hst : σ.lockManager.stack (cfg.ctxOf a.ctx) with
    | nil => simp [hst] at hi
    | cons t below =>
      simp only [hst, List.head?_cons, Option.map_some, Option.some.injEq] at hi
      refine ⟨_, List.mem_cons_self, hi, ?_⟩
      have hpos : 0 < pending.countP (fun b => cfg.ctxOf b.ctx = cfg.ctxOf a.ctx) :=
        List.countP_pos_iff.mpr ⟨a, ha, by simp⟩
      simp only
      omega

theorem attributed_eq (cfg : Config) (σ : State) (e : Event) :
    (attributed cfg σ e = { σ with ts := e.ts } ∧ (e.action = 'r' ∨ e.action = 'w')) ∨
    ¬(e.action = 'r' ∨ e.action = 'w') ∧ ∃ pending : List MemAccess,
      pending = (if e.action = 'p' ∨ e.action = 'v' then discardLockAccess e.address σ.lastMemAccesses
        else σ.lastMemAccesses) ∧
      attributed cfg σ e =
        { pending.foldl (State.writeMemAccess cfg) { σ with ts := e.ts } with lastMemAccesses := [] } := by
  unfold attributed writeMemAccesses
  by_cases ha : e.action = 'r' ∨ e.action = 'w'
  · exact .inl ⟨by rw [if_pos ha], ha⟩
  · exact .inr ⟨ha, _, rfl, by rw [if_neg ha]⟩

/-- Attribution counts on top of stacks and nothing else. -/
theorem attributed_stack (cfg : Config) (σ : State) (e : Event) (c : Int) :
    ∃ k, (attributed cfg σ e).lockManager.stack c = bump k (σ.lockManager.stack c) := by
  rcases attributed_eq cfg σ e with ⟨h, -⟩ | ⟨-, pending, -, h⟩
  · exact ⟨0, by rw [h, bump_zero]⟩
  · refine ⟨pending.countP (fun a => cfg.ctxOf a.ctx = c), ?_⟩
    rw [h]
    exact (writeMemAccesses_fold cfg { σ with ts := e.ts } pending).1 c

theorem refsKnown_attributed (cfg : Config) {σ : State} (h : RefsKnown σ) (e : Event) :
    RefsKnown (attributed cfg σ e) := by
  rcases attributed_eq cfg σ e with ⟨he, -⟩ | ⟨-, pending, -, he⟩
  · rw [he]
    exact h
  · rw [he]
    have hσ : RefsKnown { σ with ts := e.ts } := h
    exact refsKnown_fold cfg hσ pending

theorem sweepIsEmpty_bump {lm lm' : LockManager} {l : LockPtr} {other : SubLock} {ctx : Int} {k : Nat}
    (hk : lm'.stack ctx = bump k (lm.stack ctx)) (h : lm.SweepIsEmpty l other ctx) :
    lm'.SweepIsEmpty l other ctx := by
  intro above t below split label above_ne
  rw [hk] at split
  obtain ⟨above', t', hs, ha, ht⟩ := bump_eq_append split
  refine h above' t' below hs (ht.trans label) ?_
  intro u hu he
  have hm : u.label ∈ labels above := by
    rw [← ha]
    exact mem_labels.mpr ⟨u, hu, rfl⟩
  obtain ⟨v, hv, hl⟩ := mem_labels.mp hm
  exact above_ne v hv (hl.trans he)

/-- One iteration keeps all references known if its sweep loses nothing. -/
theorem step_refsKnown {cfg : Config} {σ σ' : State} {e : Event}
    (hI : σ.lockManager.WellFormed ∧ RefsKnown σ) (hs : SweepLosesNothing cfg σ e)
    (h : step cfg σ e = .ok σ') : σ'.lockManager.WellFormed ∧ RefsKnown σ' := by
  refine ⟨(step_moved hI.1 h).wellFormed hI.1, ?_⟩
  rcases step_ok h with ⟨-, rfl⟩ | ⟨hskip, h⟩
  · exact hI.2
  · have hk := kept_attributed cfg σ e
    have hst := attributed_stack cfg σ e
    have hR := refsKnown_attributed cfg hI.2 e
    generalize attributed cfg σ e = σ₁ at h hk hst hR
    obtain ⟨hk, he⟩ := hk
    cases h with
    | quiet e σ' hq idle unknown =>
      intro row hrow i hi
      rw [hq.access] at hrow
      obtain ⟨ms, -, hlm⟩ := hq.lm
      rw [hlm]
      exact known_of_eq (fun _ => rfl) rfl (hR row hrow i hi)
    | freed ts base size a rows ha =>
      exact fun row hrow i hi => known_of_eq (fun _ => rfl) rfl (hR row hrow i hi)
    | buffered ev a trace next traces ha hin => exact hR
    | acted ev l σ₂ lm hres hr ht =>
      have hlocks : σ₁.lockManager.locks = σ.lockManager.locks := by rw [he]
      have hobj : σ₁.lockManager.objects = σ.lockManager.objects := by rw [he]
      intro row hrow i hi
      cases hr with
      | known l hl =>
        refine transition_known ht ?_ (hR row hrow i hi)
        intro hP hf
        obtain ⟨k, hk'⟩ := hst (cfg.ctxOf ev.ctx)
        have hl' : σ.lockManager.locks[ev.address]? = some l := hlocks ▸ hl
        have hact : ActsOn cfg σ (.lockOp ev) ev l := ⟨rfl, hskip, hl'⟩
        exact sweepIsEmpty_bump hk' (hs ev l hact hP (hk.flushes.mp hf))
      | fresh cls allocID name hl isP hc rows =>
        have hi' : (σ₁.lockManager.allocated cls ev.address allocID ev.lockType name ev.flags).Known i :=
          known_of_eq (fun _ => rfl) rfl (hR row hrow i hi)
        refine transition_known ht ?_ hi'
        intro _ hf
        -- A new lock has no counter above zero, so there is nothing to flush.
        have hw₁ : σ₁.lockManager.WellFormed := by
          refine hk.wellFormed hI.1 ?_
          rw [hlocks, hobj]
          exact hI.1.registered
        have hpos := ((kept_allocated hw₁ cls ev.address allocID ev.lockType name ev.flags).flushes.mp hf).pos
        rw [(hw₁.fresh _ (Nat.le_refl _)).1] at hpos
        omega

/-- Every transaction id that `accesses.csv` mentions is the id of a row of `txns.csv`. -/
def RefsRecorded (σ : State) : Prop :=
  ∀ row ∈ σ.accessOFile, ∀ i, row.txnId = some i → ∃ r ∈ σ.lockManager.txnsOFile, r.id = i

theorem finish_refsRecorded {cfg : Config} {σ σ' : State} (hR : RefsKnown σ) (h : finish cfg σ = .ok σ') :
    RefsRecorded σ' := by
  obtain ⟨lm, hlm, h⟩ := bind_ok.mp h
  cases h
  have hc := closeAllTXNs_ok hlm
  have hR' : RefsKnown (writeMemAccesses cfg 'v' 0 { σ with allocOFile := σ.allocOFile ++ openAllocRows σ }) := by
    have hσ : RefsKnown { σ with allocOFile := σ.allocOFile ++ openAllocRows σ } := hR
    exact refsKnown_fold cfg hσ _
  intro row hrow i hi
  rcases hR' row hrow i hi with ⟨r, hr, rfl⟩ | ⟨c, t, ht, rfl, hpos⟩
  · exact ⟨r, by rw [hc.txns]; exact List.mem_append_left _ hr, rfl⟩
  · have hmem : c ∈ (writeMemAccesses cfg 'v' 0
        { σ with allocOFile := σ.allocOFile ++ openAllocRows σ }).lockManager.activeTXNs.keys := by
      by_contra hn
      rw [stack_of_not_mem_keys hn] at ht
      simp at ht
    obtain ⟨r, hr, he⟩ := mem_txnRows (writeMemAccesses cfg 'v' 0
      { σ with allocOFile := σ.allocOFile ++ openAllocRows σ }).ts c ht hpos
    refine ⟨r, ?_, he⟩
    rw [hc.txns, List.mem_append, List.mem_flatMap]
    exact .inr ⟨c, hmem, hr⟩

/-- On a run whose sweeps lose nothing, every transaction id in `accesses.csv` occurs in
`txns.csv`. -/
theorem refs_recorded_of_sweeps (cfg : Config) (trace : List Event) (σ : State)
    (hs : Along (step cfg) (Completed (step cfg) (SweepLosesNothing cfg)) trace (.init cfg))
    (h : convert cfg trace = .ok σ) : RefsRecorded σ := by
  obtain ⟨σ₁, hrun, hfin⟩ := bind_ok.mp h
  refine finish_refsRecorded ?_ hfin
  have hinit : (State.init cfg).lockManager.WellFormed ∧ RefsKnown (.init cfg) :=
    ⟨init_wellFormed, by simp [RefsKnown, State.init]⟩
  refine (run_invariant (I := fun σ => σ.lockManager.WellFormed ∧ RefsKnown σ) ?_ hs hinit hrun).2
  intro s e t hI hC hst
  exact step_refsKnown hI (hC ⟨t, hst⟩) hst

/-- A test on the state before the event that excludes a flush. -/
def flushFree (σ : State) : Event → Bool
  | .lockOp ev =>
    match σ.lockManager.findLock ev.address with
    | some l => !(ev.op.isP && (σ.lockManager.heap l).count ev.op.side = 0 &&
        0 < (σ.lockManager.heap l).count ev.op.side.other)
    | none => true
  | _ => true

theorem sweepLosesNothing_of_flushFree {cfg : Config} {σ : State} {e : Event} (h : flushFree σ e = true) :
    SweepLosesNothing cfg σ e := by
  intro ev l hact hP hf
  rw [hact.event, flushFree, hact.lock] at h
  simp [hP, hf.zero, hf.pos] at h

/-- An access under a write lock. -/
def accessUnderWriter : List Event :=
  [inodeAlloc, rwlockOp .pWrite 2 0, inodeAccess 3 0, rwlockOp .vWrite 4 0]

theorem accessUnderWriter_recorded : ∃ σ, convert (.trackAll false) accessUnderWriter = .ok σ ∧
    σ.accessOFile.map AccessRow.txnId = [some 1] ∧ RefsRecorded σ := by
  refine ⟨_, rfl, by decide +kernel, refs_recorded_of_sweeps (.trackAll false) accessUnderWriter _ ?_ rfl⟩
  have hc : checkAlong (step (.trackAll false)) flushFree accessUnderWriter (.init (.trackAll false)) = true := by
    decide +kernel
  exact along_mono (fun _ _ _ h _ => sweepLosesNothing_of_flushFree h) (along_of_check hc)

/-- A reader with an access takes the lock once more and then writes. -/
def readTwiceThenWrite : List Event :=
  [inodeAlloc, rwlockOp .pRead 2 0, inodeAccess 3 0, rwlockOp .pRead 4 0, rwlockOp .pWrite 5 0]

/-- The flush sweeps the lower transaction away with its access. -/
theorem readTwiceThenWrite_dangles : ∃ σ, convert (.trackAll false) readTwiceThenWrite = .ok σ ∧
    ¬RefsRecorded σ := by
  refine ⟨_, rfl, fun h => ?_⟩
  obtain ⟨r, hr, hi⟩ := h _ (List.mem_singleton.mpr rfl) 1 rfl
  revert r
  decide +kernel

end LockDoc.Convert
