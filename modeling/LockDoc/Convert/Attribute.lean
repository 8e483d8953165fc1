import LockDoc.Convert.WellFormed

/-!
# Attribution of accesses and the final flush

What `writeMemAccesses` writes and counts, and what `closeAllTXNs` records. Accesses
are attributed to the topmost transaction of their context, whose counter goes up;
the final flush closes every stack from the top and restarts nothing.
-/
namespace LockDoc.Convert

open FallibleRun (bind_ok)

/-- Count `k` more accesses for the topmost transaction. -/
def bump (k : Nat) : List TXN → List TXN
  | [] => []
  | t :: below => { t with memAccessCounter := t.memAccessCounter + k } :: below

@[simp] theorem bump_zero (s : List TXN) : bump 0 s = s := by cases s <;> rfl

theorem bump_bump (j k : Nat) (s : List TXN) : bump j (bump k s) = bump (k + j) s := by
  cases s with
  | nil => rfl
  | cons t below => simp [bump, Nat.add_assoc]

@[simp] theorem labels_bump (k : Nat) (s : List TXN) : labels (bump k s) = labels s := by cases s <;> rfl

@[simp] theorem map_id_bump (k : Nat) (s : List TXN) : (bump k s).map TXN.id = s.map TXN.id := by cases s <;> rfl

@[simp] theorem head?_id_bump (k : Nat) (s : List TXN) : (bump k s).head?.map TXN.id = s.head?.map TXN.id := by
  cases s <;> rfl

/-- A split of a stack below its top is not affected by counting. -/
theorem bump_eq_append {k : Nat} {s above below : List TXN} {t : TXN} (h : bump k s = above ++ t :: below) :
    ∃ above' t', s = above' ++ t' :: below ∧ labels above' = labels above ∧ t'.label = t.label := by
  cases s with
  | nil => simp [bump] at h
  | cons u s =>
    cases above with
    | nil =>
      simp only [bump, List.nil_append, List.cons.injEq] at h
      obtain ⟨rfl, rfl⟩ := h
      exact ⟨[], u, rfl, rfl, rfl⟩
    | cons a above =>
      simp only [bump, List.cons_append, List.cons.injEq] at h
      obtain ⟨rfl, rfl⟩ := h
      exact ⟨u :: above, t, rfl, rfl, rfl⟩

/-- The row an access gets: the transaction on top of its context's stack. -/
def accessRow (cfg : Config) (lm : LockManager) (a : MemAccess) : AccessRow :=
  ⟨a, (lm.stack (cfg.ctxOf a.ctx)).head?.map TXN.id⟩

theorem writeMemAccess_stack (cfg : Config) (σ : State) (a : MemAccess) (c : Int) :
    (σ.writeMemAccess cfg a).lockManager.stack c =
      bump (if cfg.ctxOf a.ctx = c then 1 else 0) (σ.lockManager.stack c) := by
  unfold State.writeMemAccess
  by_cases hc : cfg.ctxOf a.ctx = c
  · subst hc
    cases hs : σ.lockManager.stack (cfg.ctxOf a.ctx) with
    | nil => simp [hs, bump]
    | cons t below => simp [LockManager.stack_insert, bump]
  · cases hs : σ.lockManager.stack (cfg.ctxOf a.ctx) with
    | nil => simp [hc]
    | cons t below => simp [LockManager.stack_insert, Ne.symm hc, hc]

theorem writeMemAccess_rows (cfg : Config) (σ : State) (a : MemAccess) :
    (σ.writeMemAccess cfg a).accessOFile = σ.accessOFile ++ [accessRow cfg σ.lockManager a] := by
  unfold State.writeMemAccess accessRow
  cases σ.lockManager.stack (cfg.ctxOf a.ctx) <;> rfl

theorem accessRow_congr {cfg : Config} {lm lm' : LockManager} {a : MemAccess}
    (h : (lm'.stack (cfg.ctxOf a.ctx)).head?.map TXN.id = (lm.stack (cfg.ctxOf a.ctx)).head?.map TXN.id) :
    accessRow cfg lm' a = accessRow cfg lm a := by
  unfold accessRow
  rw [h]

/-- A whole batch: every access counts in its own context, and gets a row there. -/
theorem writeMemAccesses_fold (cfg : Config) (σ : State) (pending : List MemAccess) :
    (∀ c, (pending.foldl (State.writeMemAccess cfg) σ).lockManager.stack c =
      bump (pending.countP (fun a => cfg.ctxOf a.ctx = c)) (σ.lockManager.stack c)) ∧
    (pending.foldl (State.writeMemAccess cfg) σ).accessOFile =
      σ.accessOFile ++ pending.map (accessRow cfg σ.lockManager) := by
  induction pending generalizing σ with
  | nil => exact ⟨fun c => by simp, by simp⟩
  | cons a pending ih =>
    obtain ⟨hs, hr⟩ := ih (σ.writeMemAccess cfg a)
    refine ⟨?_, ?_⟩
    · intro c
      rw [List.foldl_cons, hs, writeMemAccess_stack, bump_bump, List.countP_cons]
      simp [Nat.add_comm]
    · rw [List.foldl_cons, hr, writeMemAccess_rows, List.map_cons, List.append_assoc, List.singleton_append]
      congr 2
      apply List.map_congr_left
      intro b _
      apply accessRow_congr
      rw [writeMemAccess_stack, head?_id_bump]

/-- Writing accesses touches nothing else. -/
theorem writeMemAccess_frame (cfg : Config) (σ : State) (a : MemAccess) :
    σ.writeMemAccess cfg a =
      { σ with
        lockManager := (σ.writeMemAccess cfg a).lockManager
        accessOFile := (σ.writeMemAccess cfg a).accessOFile } := by
  unfold State.writeMemAccess
  split <;> rfl

theorem writeMemAccesses_frame (cfg : Config) (σ : State) (pending : List MemAccess) :
    pending.foldl (State.writeMemAccess cfg) σ =
      { σ with
        lockManager := (pending.foldl (State.writeMemAccess cfg) σ).lockManager
        accessOFile := (pending.foldl (State.writeMemAccess cfg) σ).accessOFile } := by
  induction pending generalizing σ with
  | nil => rfl
  | cons a pending ih =>
    rw [List.foldl_cons, ih, writeMemAccess_frame cfg σ a]

/-- All accesses so far: those in the file, then those in the buffer. -/
def State.accesses (σ : State) : List MemAccess := σ.accessOFile.map AccessRow.access ++ σ.lastMemAccesses

theorem discardLockAccess_sublist (address : Nat) (pending : List MemAccess) :
    (discardLockAccess address pending).Sublist pending := by
  unfold discardLockAccess
  split
  · rename_i w₁ w₀ rest hrev
    split
    · have hp : pending = rest.reverse ++ [w₀, w₁] := by
        rw [← List.reverse_reverse pending, hrev]
        simp
      rw [hp]
      exact List.sublist_append_left _ _
    · exact List.Sublist.refl _
  · exact List.Sublist.refl _

/-- A flush moves accesses from the buffer to the file. -/
theorem flush_sublist (cfg : Config) (σ : State) {pending : List MemAccess} (hp : pending.Sublist σ.lastMemAccesses) :
    (State.accesses { pending.foldl (State.writeMemAccess cfg) σ with lastMemAccesses := [] }).Sublist
      σ.accesses := by
  have hid : AccessRow.access ∘ accessRow cfg σ.lockManager = id := rfl
  simp only [State.accesses, (writeMemAccesses_fold cfg σ pending).2, List.map_append, List.map_map, hid, List.map_id,
    List.append_nil]
  exact List.Sublist.append (List.Sublist.refl _) hp

theorem writeMemAccesses_sublist (cfg : Config) (action : Char) (address : Nat) (σ : State) :
    (writeMemAccesses cfg action address σ).accesses.Sublist σ.accesses := by
  unfold writeMemAccesses
  split
  · exact List.Sublist.refl _
  · refine flush_sublist cfg σ ?_
    split
    · exact discardLockAccess_sublist _ _
    · exact List.Sublist.refl _

/-- Before an event is dispatched, only accesses and the counters of transactions change. -/
theorem attributed_frame (cfg : Config) (σ : State) (e : Event) :
    attributed cfg σ e =
      { σ with
        ts := e.ts
        lockManager := (attributed cfg σ e).lockManager
        accessOFile := (attributed cfg σ e).accessOFile
        lastMemAccesses := (attributed cfg σ e).lastMemAccesses } := by
  unfold attributed writeMemAccesses
  split
  · rfl
  · dsimp only
    rw [writeMemAccesses_frame]

namespace LockManager

/-- Closing the topmost transaction restarts nothing. -/
theorem finishTXN_top {lm lm' : LockManager} {ts : Nat} {ctx : Int} {t : TXN} {below : List TXN} {found : Bool}
    (hs : lm.stack ctx = t :: below) (h : lm.finishTXN t.lock ts t.subLock false ctx ctx = .ok (found, lm')) :
    ∃ msgs, lm' = lm.closed ts ctx ctx [] [t] below below msgs := by
  cases finishTXN_finished h with
  | found above u rest msgs split above_ne label =>
    cases above with
    | nil =>
      rw [hs, List.nil_append, List.cons.injEq] at split
      obtain ⟨rfl, rfl⟩ := split
      exact ⟨msgs, rfl⟩
    | cons a above =>
      rw [hs, List.cons_append, List.cons.injEq] at split
      obtain ⟨rfl, -⟩ := split
      exact absurd rfl (above_ne t (by simp))
  | missing msgs none => exact absurd rfl (none t (by simp [hs]))

/-- One round of the loop over the stack of a context. -/
theorem closeCtx_cases {ts : Nat} {ctx : Int} {fuel : Nat} {lm lm' : LockManager}
    (h : closeCtx ts ctx fuel lm = .ok lm') :
    (lm.stack ctx = [] ∧ lm' = lm) ∨
      ∃ rest t below msgs, fuel = rest + 1 ∧ lm.stack ctx = t :: below ∧
        closeCtx ts ctx rest
          ((lm.log (.stillActive ctx (below.length + 1))).closed ts ctx ctx [] [t] below below msgs) = .ok lm' := by
  cases hs : lm.stack ctx with
  | nil =>
    refine .inl ⟨rfl, ?_⟩
    unfold closeCtx at h
    simp only [hs] at h
    cases fuel <;> exact (Except.ok.inj h).symm
  | cons t below =>
    unfold closeCtx at h
    cases fuel with
    | zero => simp [hs] at h
    | succ rest =>
      simp only [hs] at h
      obtain ⟨⟨found, lm₁⟩, h₁, h⟩ := bind_ok.mp h
      have hs' : (lm.log (.stillActive ctx (below.length + 1))).stack ctx = t :: below := hs
      obtain ⟨msgs, rfl⟩ := finishTXN_top hs' h₁
      exact .inr ⟨rest, t, below, msgs, rfl, rfl, h⟩

/-- The rule for the final flush: what messages and the closing of a topmost transaction keep, it keeps. -/
theorem closeAllTXNs_rule {I : LockManager → Prop} (hlog : ∀ lm m, I lm → I (lm.log m))
    (hclose : ∀ lm ts ctx t below msgs, lm.stack ctx = t :: below → I lm →
      I (lm.closed ts ctx ctx [] [t] below below msgs))
    {lm lm' : LockManager} {ts : Nat} (h : lm.closeAllTXNs ts = .ok lm') (hI : I lm) : I lm' := by
  have hctx : ∀ ctx fuel lm lm', closeCtx ts ctx fuel lm = .ok lm' → I lm → I lm' := by
    intro ctx fuel
    induction fuel with
    | zero =>
      intro lm lm' h hI
      obtain ⟨-, rfl⟩ | ⟨_, _, _, _, hf, -⟩ := closeCtx_cases h
      · exact hI
      · cases hf
    | succ fuel ih =>
      intro lm lm' h hI
      obtain ⟨-, rfl⟩ | ⟨rest, t, below, msgs, hf, hs, h⟩ := closeCtx_cases h
      · exact hI
      · cases hf
        exact ih _ _ h (hclose _ ts ctx t below msgs hs (hlog lm _ hI))
  unfold closeAllTXNs at h
  generalize lm.activeTXNs.keys = cs at h
  induction cs generalizing lm with
  | nil =>
    cases h
    exact hI
  | cons c cs ih =>
    rw [List.foldlM_cons] at h
    obtain ⟨lm₁, h₁, h⟩ := bind_ok.mp h
    exact ih (hctx c _ lm lm₁ h₁ hI) h

/-- The state of the stacks and rows after the contexts `cs` were closed. -/
structure ClosedAll (ts : Nat) (cs : List Int) (lm lm' : LockManager) : Prop where
  heap : lm'.heap = lm.heap
  stack : ∀ c, lm'.stack c = if c ∈ cs then [] else lm.stack c
  txns : lm'.txnsOFile = lm.txnsOFile ++ cs.flatMap (fun c => txnRows ts c (lm.stack c))
  locks : lm'.locksHeldOFile = lm.locksHeldOFile ++ cs.flatMap (fun c => closedHeldRows lm.heap (lm.stack c) [])

theorem closeCtx_ok {ts : Nat} {ctx : Int} {fuel : Nat} {lm lm' : LockManager}
    (h : closeCtx ts ctx fuel lm = .ok lm') : ClosedAll ts [ctx] lm lm' := by
  have hempty : ∀ lm : LockManager, lm.stack ctx = [] → ClosedAll ts [ctx] lm lm := by
    intro lm hs
    refine ⟨rfl, ?_, ?_, ?_⟩
    · intro c
      by_cases hc : c = ctx <;> simp [hc, hs]
    · simp [hs, txnRows]
    · simp [hs, closedHeldRows]
  induction fuel generalizing lm with
  | zero =>
    obtain ⟨hs, rfl⟩ | ⟨_, _, _, _, hf, -⟩ := closeCtx_cases h
    · exact hempty _ hs
    · cases hf
  | succ fuel ih =>
    obtain ⟨hs, rfl⟩ | ⟨rest, t, below, msgs, hf, hs, h⟩ := closeCtx_cases h
    · exact hempty _ hs
    · cases hf
      have hc := ih h
      have hst : ∀ c, ((lm.log (.stillActive ctx (below.length + 1))).closed ts ctx ctx [] [t] below below msgs).stack c =
          if c = ctx then below else lm.stack c := by
        intro c
        rw [stack_closed]
        rfl
      refine ⟨hc.heap, ?_, ?_, ?_⟩
      · intro c
        rw [hc.stack, hst]
        by_cases hcc : c = ctx <;> simp [hcc]
      · rw [hc.txns]
        simp only [List.flatMap_cons, List.flatMap_nil, List.append_nil, hst, if_true, hs]
        rw [txnRows_cons ts ctx t below]
        simp [closed, log]
      · rw [hc.locks]
        simp only [List.flatMap_cons, List.flatMap_nil, List.append_nil, hst, if_true, hs]
        rw [closedHeldRows_cons lm.heap t below []]
        simp [closed, log]

theorem closeFold_ok {ts : Nat} {cs : List Int} {lm lm' : LockManager} (hd : cs.Nodup)
    (h : cs.foldlM (fun lm ctx => closeCtx ts ctx (lm.stack ctx).length lm) lm = .ok lm') :
    ClosedAll ts cs lm lm' := by
  induction cs generalizing lm with
  | nil =>
    cases h
    exact ⟨rfl, by simp, by simp, by simp⟩
  | cons c cs ih =>
    rw [List.foldlM_cons] at h
    obtain ⟨lm₁, h₁, h⟩ := bind_ok.mp h
    have hc := closeCtx_ok h₁
    have hrest := ih (List.nodup_cons.mp hd).2 h
    have hsame : ∀ d ∈ cs, lm₁.stack d = lm.stack d := by
      intro d hdm
      have hne : d ≠ c := by
        rintro rfl
        exact (List.nodup_cons.mp hd).1 hdm
      rw [hc.stack]
      simp [hne]
    refine ⟨hrest.heap.trans hc.heap, ?_, ?_, ?_⟩
    · intro d
      rw [hrest.stack, hc.stack]
      by_cases h₁ : d ∈ cs <;> by_cases h₂ : d = c <;> simp [h₁, h₂]
    · rw [hrest.txns, hc.txns]
      simp only [List.flatMap_cons, List.flatMap_nil, List.append_nil, List.append_assoc]
      congr 2
      exact List.flatMap_congr (fun d hdm => by rw [hsame d hdm])
    · rw [hrest.locks, hc.locks, hc.heap]
      simp only [List.flatMap_cons, List.flatMap_nil, List.append_nil, List.append_assoc]
      congr 2
      exact List.flatMap_congr (fun d hdm => by rw [hsame d hdm])

theorem stack_of_not_mem_keys {lm : LockManager} {c : Int} (h : c ∉ lm.activeTXNs.keys) : lm.stack c = [] := by
  rw [Std.ExtTreeMap.mem_keys] at h
  rw [stack, Std.ExtTreeMap.getD_eq_fallback h]

theorem nodup_keys (lm : LockManager) : lm.activeTXNs.keys.Nodup := by
  refine lm.activeTXNs.distinct_keys.imp ?_
  rintro a b hab rfl
  exact hab Std.ReflOrd.compare_self

/-- The final flush records every open transaction and leaves no stack behind. -/
theorem closeAllTXNs_ok {lm lm' : LockManager} {ts : Nat} (h : lm.closeAllTXNs ts = .ok lm') :
    ClosedAll ts lm.activeTXNs.keys lm lm' := closeFold_ok lm.nodup_keys h

end LockManager

end LockDoc.Convert
