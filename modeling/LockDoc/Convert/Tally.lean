import LockDoc.Convert.Ledger

/-!
# Counting accesses

`memAccessCounter` decides whether a transaction is recorded when it is closed. At every
point of a run it is the number of rows of `accesses.csv` with the id of the transaction,
so that `txns.csv` lists no transaction without an access.
-/
namespace LockDoc.Convert

open FallibleRun

namespace LockManager

section

variable {I : LockManager → Prop} {lm lm' : LockManager} {l : LockPtr}

/-- What is kept when a stack is taken apart is kept by `finishTXN`. -/
theorem Finished.rule {ts : Nat} {side : SubLock} {rr found : Bool} {ctx ctxOld : Int}
    (hclosed : ∀ lm above popped below kept msgs, lm.stack ctx = popped ++ below → (∀ u ∈ above, u ∈ popped) →
      kept.Sublist below → I lm → I (lm.closed ts ctx ctxOld above popped below kept msgs))
    (h : Finished lm l ts side rr ctx ctxOld found lm') (hI : I lm) : I lm' := by
  cases h with
  | found above t below msgs split above_ne label =>
    refine hclosed lm above (above ++ [t]) below _ msgs (by simpa using split) (by simp +contextual) ?_ hI
    split
    · exact List.filter_sublist
    · exact List.Sublist.refl _
  | missing msgs none =>
    exact hclosed lm _ _ [] [] msgs (by simp) (fun _ hu => hu) (List.Sublist.refl _) hI

/-- The rule for transitions: an invariant survives if it survives losing positions of the
lock and messages, taking stacks apart, and the second half of a `P()`. -/
theorem transition_rule {e : LockEvent} {kernelDir : String} {ctx : Int}
    (hlock : ∀ (lm : LockManager) (lk : RWLock) msgs, (∀ p ∈ lk.lastNPos, p ∈ (lm.heap l).lastNPos) → I lm →
      I { lm.setLock l lk with stderr := msgs })
    (hclosed : ∀ lm c above popped below kept msgs, lm.stack c = popped ++ below → (∀ u ∈ above, u ∈ popped) →
      kept.Sublist below → I lm → I (lm.closed e.ts c ctx above popped below kept msgs))
    (hacquire : ∀ lm : LockManager, I lm → I (lm.acquire l (e.pos kernelDir e.op.side) ctx))
    (h : lm.transition l e kernelDir ctx = .ok lm') (hI : I lm) : I lm' := by
  have hflags : I (lm.updateFlags l e.flags) := hlock lm _ lm.stderr (fun _ hp => hp) hI
  have hpos : ∀ {lm₁ : LockManager} {lk : RWLock} {m}, lm₁.heap = (lm.updateFlags l e.flags).heap →
      (∀ p ∈ lk.lastNPos, p ∈ ((lm.updateFlags l e.flags).heap l).lastNPos) → I lm₁ →
      I { lm₁.setLock l lk with stderr := m } := by
    intro lm₁ lk m hheap hlk hI₁
    refine hlock lm₁ lk m ?_ hI₁
    rw [hheap]
    exact hlk
  have htail : ∀ {p : LockPos} {ps : List LockPos}, ((lm.updateFlags l e.flags).heap l).lastNPos = p :: ps →
      ∀ q ∈ ps, q ∈ ((lm.updateFlags l e.flags).heap l).lastNPos := by
    intro p ps htop q hq
    rw [htop]
    exact List.mem_cons_of_mem _ hq
  obtain ⟨-, ⟨-, lm₁, hp, rfl⟩ | ⟨-, hr⟩⟩ := transition_ok h
  · apply hacquire
    generalize e.op.side = side at hp
    cases hp with
    | plain side noFlush oneSide again => exact hflags
    | flushed side lm₂ msgs zero pos fin =>
      exact hpos fin.heap_eq (by simp [RWLock.drain]) (fin.rule (fun lm => hclosed lm ctx) hflags)
    | unflushed side lm₂ zero pos fin => exact fin.rule (fun lm => hclosed lm ctx) hflags
    | reclosed lm₂ p ps pos zero once fin top =>
      exact hpos (m := lm₂.stderr) fin.heap_eq (htail top) (fin.rule (fun lm => hclosed lm ctx) hflags)
    | unclosed lm₂ pos zero once fin => exact fin.rule (fun lm => hclosed lm ctx) hflags
  · cases hr with
    | closed lm₂ p ps msgs top fin =>
      refine hpos fin.heap_eq ?_ (fin.rule (fun lm => hclosed lm _) hflags)
      rw [RWLock.lastNPos_uncount]
      exact htail top
    | unclosed lm₂ msgs some fin =>
      refine hpos fin.heap_eq ?_ (fin.rule (fun lm => hclosed lm _) hflags)
      rw [RWLock.lastNPos_uncount]
      exact fun p hp => hp
    | empty msgs none =>
      refine hpos rfl ?_ hflags
      rw [RWLock.lastNPos_uncount]
      exact fun p hp => hp

end

end LockManager

/-- The number of rows that are attributed to a transaction. -/
def rowsOf (rows : List AccessRow) (i : Nat) : Nat := rows.countP (fun row => row.txnId = some i)

/-- The counters of the open transactions agree with the rows, and recorded transactions have some. -/
structure Tallied (rows : List AccessRow) (lm : LockManager) : Prop where
  ids : lm.IdsFresh
  used : ∀ row ∈ rows, ∀ i, row.txnId = some i → i < lm.nextTXNID
  counted : ∀ c, ∀ t ∈ lm.stack c, t.memAccessCounter = rowsOf rows t.id
  recorded : ∀ r ∈ lm.txnsOFile, 0 < rowsOf rows r.id

namespace Tallied

open LockManager

variable {rows : List AccessRow} {lm lm' : LockManager}

/-- A new id has no rows. -/
theorem rowsOf_fresh (h : Tallied rows lm) {i : Nat} (hi : lm.nextTXNID ≤ i) : rowsOf rows i = 0 := by
  rw [rowsOf, List.countP_eq_zero]
  intro row hrow
  simp only [decide_eq_true_eq]
  intro he
  have := h.used row hrow i he
  omega

theorem congr (h : Tallied rows lm) (hs : ∀ c, lm'.stack c = lm.stack c) (hn : lm'.nextTXNID = lm.nextTXNID)
    (ht : lm'.txnsOFile = lm.txnsOFile) (hl : lm'.locksHeldOFile = lm.locksHeldOFile) : Tallied rows lm' where
  ids := h.ids.same hs hn ht hl
  used row hrow i hi := by
    rw [hn]
    exact h.used row hrow i hi
  counted c t htm := by
    rw [hs] at htm
    exact h.counted c t htm
  recorded r hr := by
    rw [ht] at hr
    exact h.recorded r hr

/-- Reopened transactions start counting again; closed ones with a row are recorded. -/
theorem closed (h : Tallied rows lm) {ts : Nat} {ctx ctxOld : Int} {above popped below kept : List TXN} {msgs : List Msg}
    (hs : lm.stack ctx = popped ++ below) (hk : kept.Sublist below) :
    Tallied rows (lm.closed ts ctx ctxOld above popped below kept msgs) where
  ids := h.ids.closed hs hk
  used row hrow i hi := Nat.lt_of_lt_of_le (h.used row hrow i hi) (Nat.le_add_right _ _)
  counted c t ht := by
    rw [stack_closed] at ht
    split at ht
    · rcases List.mem_append.mp ht with ht | ht
      · obtain ⟨hge, -, hzero⟩ := mem_restart ht
        rw [hzero, h.rowsOf_fresh hge]
      · refine h.counted ctx t ?_
        rw [hs]
        exact List.mem_append_right _ (hk.subset ht)
    · exact h.counted c t ht
  recorded r hr := by
    rcases List.mem_append.mp hr with hr | hr
    · exact h.recorded r hr
    · obtain ⟨u, hu, rfl⟩ := List.mem_map.mp hr
      obtain ⟨hu, hpos⟩ := List.mem_filter.mp hu
      have hc := h.counted ctx u (by rw [hs]; exact List.mem_append_left _ hu)
      rw [decide_eq_true_eq, hc] at hpos
      exact hpos

theorem acquire (h : Tallied rows lm) (l : LockPtr) (pos : LockPos) (ctx : Int) :
    Tallied rows (lm.acquire l pos ctx) where
  ids := h.ids.acquire l pos ctx
  used row hrow i hi := Nat.lt_succ_of_lt (h.used row hrow i hi)
  counted c t ht := by
    rw [stack_acquire] at ht
    split at ht
    · rcases List.mem_cons.mp ht with rfl | ht
      · exact (h.rowsOf_fresh (Nat.le_refl _)).symm
      · exact h.counted ctx t ht
    · exact h.counted c t ht
  recorded := h.recorded

theorem transition (h : Tallied rows lm) {l : LockPtr} {e : LockEvent} {kernelDir : String} {ctx : Int}
    (ht : lm.transition l e kernelDir ctx = .ok lm') : Tallied rows lm' := by
  refine transition_rule ?_ ?_ ?_ ht h
  · intro lm lk msgs _ h
    exact h.congr (fun _ => rfl) rfl rfl rfl
  · intro lm c above popped below kept msgs hs _ hk h
    exact h.closed hs hk
  · intro lm h
    exact h.acquire l _ ctx

/-- Only the transaction on top of a context's stack gets the accesses of the context. -/
theorem accessRow_txnId (h : lm.IdsFresh) {cfg : Config} {c : Int} {t : TXN} {below : List TXN}
    (hs : lm.stack c = t :: below) (a : MemAccess) :
    (accessRow cfg lm a).txnId = some t.id ↔ cfg.ctxOf a.ctx = c := by
  constructor
  · intro he
    simp only [accessRow] at he
    by_contra hne
    cases hst : lm.stack (cfg.ctxOf a.ctx) with
    | nil => simp [hst] at he
    | cons u rest =>
      simp only [hst, List.head?_cons, Option.map_some, Option.some.injEq] at he
      exact h.apart _ c hne u (by simp [hst]) t (by simp [hs]) he
  · rintro rfl
    simp [accessRow, hs]

/-- No access goes to a transaction below the top. -/
theorem accessRow_below (h : lm.IdsFresh) {cfg : Config} {c : Int} {t u : TXN} {below : List TXN}
    (hs : lm.stack c = t :: below) (hu : u ∈ below) (a : MemAccess) : (accessRow cfg lm a).txnId ≠ some u.id := by
  intro he
  have hum : u ∈ lm.stack c := by
    rw [hs]
    exact List.mem_cons_of_mem _ hu
  simp only [accessRow] at he
  cases hst : lm.stack (cfg.ctxOf a.ctx) with
  | nil => simp [hst] at he
  | cons v rest =>
    simp only [hst, List.head?_cons, Option.map_some, Option.some.injEq] at he
    by_cases hc : cfg.ctxOf a.ctx = c
    · rw [hc, hs] at hst
      obtain ⟨rfl, -⟩ := List.cons.inj hst
      have hnd := h.nodup c
      rw [hs, List.map_cons, List.nodup_cons] at hnd
      exact hnd.1 (he ▸ List.mem_map_of_mem hu)
    · exact h.apart _ c hc v (by simp [hst]) u hum he

/-- The counters go up by what is written. -/
theorem written (h : Tallied rows lm) {cfg : Config} (pending : List MemAccess)
    (hs : ∀ c, lm'.stack c = bump (pending.countP (fun a => cfg.ctxOf a.ctx = c)) (lm.stack c))
    (he : lm' = { lm with activeTXNs := lm'.activeTXNs }) :
    Tallied (rows ++ pending.map (accessRow cfg lm)) lm' where
  ids := h.ids.congr (fun c => ⟨_, hs c⟩) (by rw [he]) (by rw [he]) (by rw [he])
  used row hrow i hi := by
    rw [he]
    rcases List.mem_append.mp hrow with hrow | hrow
    · exact h.used row hrow i hi
    · obtain ⟨a, -, rfl⟩ := List.mem_map.mp hrow
      simp only [accessRow, Option.map_eq_some_iff] at hi
      obtain ⟨t, ht, rfl⟩ := hi
      exact h.ids.openLt _ t (List.mem_of_mem_head? ht)
  counted c t ht := by
    rw [hs] at ht
    rw [rowsOf, List.countP_append, List.countP_map]
    cases hst : lm.stack c with
    | nil =>
      rw [hst] at ht
      simp [bump] at ht
    | cons u below =>
      rw [hst, bump] at ht
      rcases List.mem_cons.mp ht with rfl | ht
      · have hc := h.counted c u (by simp [hst])
        rw [rowsOf] at hc
        simp only [hc]
        congr 1
        apply List.countP_congr
        intro a _
        simp only [Function.comp_apply, decide_eq_true_eq]
        exact (accessRow_txnId h.ids hst a).symm
      · have hc := h.counted c t (by simp [hst, ht])
        have hnone : pending.countP ((fun row => decide (row.txnId = some t.id)) ∘ accessRow cfg lm) = 0 := by
          rw [List.countP_eq_zero]
          intro a _
          simpa using accessRow_below h.ids hst ht a
        rw [hnone]
        exact hc
  recorded r hr := by
    rw [he] at hr
    have := h.recorded r hr
    rw [rowsOf, List.countP_append] at *
    omega

end Tallied

/-- At every point, the counters agree with the file. -/
def CountersExact (σ : State) : Prop :=
  ∀ c, ∀ t ∈ σ.lockManager.stack c, t.memAccessCounter = rowsOf σ.accessOFile t.id

theorem tallied_fold (cfg : Config) {σ : State} (h : Tallied σ.accessOFile σ.lockManager) (pending : List MemAccess) :
    Tallied (pending.foldl (State.writeMemAccess cfg) σ).accessOFile
      (pending.foldl (State.writeMemAccess cfg) σ).lockManager := by
  obtain ⟨hs, hr⟩ := writeMemAccesses_fold cfg σ pending
  rw [hr]
  exact h.written pending hs (kept_writeMemAccesses cfg σ pending).2

theorem tallied_attributed (cfg : Config) {σ : State} (h : Tallied σ.accessOFile σ.lockManager) (e : Event) :
    Tallied (attributed cfg σ e).accessOFile (attributed cfg σ e).lockManager := by
  rcases attributed_eq cfg σ e with ⟨he, -⟩ | ⟨-, pending, -, he⟩
  · rw [he]
    exact h
  · rw [he]
    have hσ : Tallied { σ with ts := e.ts }.accessOFile { σ with ts := e.ts }.lockManager := h
    exact tallied_fold cfg hσ pending

theorem step_tallied {cfg : Config} {σ σ' : State} {e : Event} (h : Tallied σ.accessOFile σ.lockManager)
    (hst : step cfg σ e = .ok σ') : Tallied σ'.accessOFile σ'.lockManager := by
  rcases step_ok hst with ⟨-, rfl⟩ | ⟨-, hst⟩
  · exact h
  · have hat := tallied_attributed cfg h e
    generalize attributed cfg σ e = σ₁ at hst hat
    cases hst with
    | quiet e σ' hq idle unknown =>
      obtain ⟨ms, -, hlm⟩ := hq.lm
      rw [hq.access, hlm]
      exact hat.congr (fun _ => rfl) rfl rfl rfl
    | freed ts base size a rows ha => exact hat.congr (fun _ => rfl) rfl rfl rfl
    | buffered ev a trace next traces ha hin => exact hat
    | acted ev l σ₂ lm hres hr ht =>
      cases hr with
      | known l hl => exact hat.transition ht
      | fresh cls allocID name hl isP hc rows =>
        have hnew : Tallied σ₁.accessOFile
            (σ₁.lockManager.allocated cls ev.address allocID ev.lockType name ev.flags) :=
          hat.congr (fun _ => rfl) rfl rfl rfl
        exact hnew.transition ht

theorem init_tallied (cfg : Config) : Tallied (State.init cfg).accessOFile (State.init cfg).lockManager where
  ids := LockManager.init_idsFresh
  used := by simp [State.init]
  counted c t ht := by simp [State.init, LockManager.init, LockManager.stack, OrdMap.getD_eq] at ht
  recorded := by simp [State.init, LockManager.init]

/-- At every point of every run the counter of an open transaction is the number of rows of
`accesses.csv` with its id, and in the end every transaction in `txns.csv` has such a row. -/
theorem accesses_tallied (cfg : Config) (trace : List Event) :
    Throughout (step cfg) CountersExact trace (.init cfg) ∧
      ∀ σ, convert cfg trace = .ok σ → ∀ r ∈ σ.lockManager.txnsOFile, ∃ row ∈ σ.accessOFile, row.txnId = some r.id := by
  have hstep : ∀ σ e σ', Tallied σ.accessOFile σ.lockManager → True → step cfg σ e = .ok σ' →
      Tallied σ'.accessOFile σ'.lockManager := fun σ e σ' h _ hst => step_tallied h hst
  have hall : Along (step cfg) (fun _ _ => True) trace (.init cfg) := fun _ _ _ _ _ _ => trivial
  constructor
  · intro pre post he σ hσ
    have h := throughout_of_invariant (I := fun σ => Tallied σ.accessOFile σ.lockManager) hstep hall
      (init_tallied cfg) pre post he σ hσ
    exact h.counted
  · intro σ h r hr
    obtain ⟨σ₁, hrun, hfin⟩ := bind_ok.mp h
    have h₁ := run_invariant (I := fun σ => Tallied σ.accessOFile σ.lockManager) hstep hall (init_tallied cfg) hrun
    obtain ⟨lm, hlm, hfin⟩ := bind_ok.mp hfin
    cases hfin
    have h₂ : Tallied (writeMemAccesses cfg 'v' 0 { σ₁ with allocOFile := σ₁.allocOFile ++ openAllocRows σ₁ }).accessOFile
        (writeMemAccesses cfg 'v' 0 { σ₁ with allocOFile := σ₁.allocOFile ++ openAllocRows σ₁ }).lockManager := by
      have hσ : Tallied { σ₁ with allocOFile := σ₁.allocOFile ++ openAllocRows σ₁ }.accessOFile
          { σ₁ with allocOFile := σ₁.allocOFile ++ openAllocRows σ₁ }.lockManager := h₁
      exact tallied_fold cfg hσ _
    have hclose := LockManager.closeAllTXNs_rule (I := Tallied _) (fun lm m h => h.congr (fun _ => rfl) rfl rfl rfl)
      (fun lm ts ctx t below msgs hs h => h.closed (by simpa using hs) (List.Sublist.refl _)) hlm h₂
    have hpos := hclose.recorded r hr
    rw [rowsOf, List.countP_pos_iff] at hpos
    obtain ⟨row, hrow, he⟩ := hpos
    exact ⟨row, hrow, by simpa using he⟩

end LockDoc.Convert
