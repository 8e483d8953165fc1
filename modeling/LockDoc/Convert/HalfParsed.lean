import LockDoc.Lib.Worklist
import LockDoc.Convert.Allocation
import LockDoc.Convert.Columns
import LockDoc.Convert.Frame
import LockDoc.Convert.References

/-!
# Lines that fail to parse

A conversion that throws is reported, and the event that the variables amount to at that
moment is dispatched all the same. Such a line has no effect exactly if the event is one
that `convert` ignores.
-/
namespace LockDoc.Convert

open FallibleRun
open Worklist (okAnd okAnd_iff)

/-- An entry of a stack without the count of its accesses. -/
def TXN.uncounted (t : TXN) : TXN := { t with memAccessCounter := 0 }

/-- The registered locks, the stacks, the ids and the rows are the same. Accesses that were
pending may have been counted. -/
structure LockManager.Untouched (lm lm' : LockManager) : Prop where
  locks : lm'.locks = lm.locks
  lock : ∀ (x : Nat) (l : LockPtr), lm.locks[x]? = some l → lm'.heap l = lm.heap l
  entries : ∀ c, (lm'.stack c).map TXN.uncounted = (lm.stack c).map TXN.uncounted
  nextTXNID : lm'.nextTXNID = lm.nextTXNID
  nextLockID : lm'.nextLockID = lm.nextLockID
  txnsOFile : lm'.txnsOFile = lm.txnsOFile
  locksHeldOFile : lm'.locksHeldOFile = lm.locksHeldOFile

/-- Nothing has happened but that pending accesses were written. -/
structure Unaffected (σ σ' : State) : Prop where
  allocs : σ'.allocs = σ.allocs
  lm : σ.lockManager.Untouched σ'.lockManager
  nextAccess : σ'.curAccessID = σ.curAccessID
  nextStacktrace : σ'.curStacktraceID = σ.curStacktraceID
  stacktraces : σ'.stacktraces = σ.stacktraces
  locksOFile : σ'.locksOFile = σ.locksOFile
  accesses : ∃ rows, σ'.accessOFile = σ.accessOFile ++ rows ∧ (rows.map AccessRow.access).Sublist σ.lastMemAccesses

/-- The line is processed and has no effect. -/
def NoEffect (cfg : Config) (delimiter : Char) (s : Vars × State) (inputLine : String) : Prop :=
  ∃ s', processLine cfg delimiter s inputLine = .ok s' ∧ Unaffected s.2 s'.2

/-- A `V()` that only prints: it has the flags of the lock, its side is not counted, and the
lock has no position, or else there is no transaction to close or to renew. -/
structure LockManager.IdleV (lm : LockManager) (l : LockPtr) (ev : LockEvent) : Prop where
  isV : ev.op.isP = false
  side : (lm.heap l).cls.has ev.op.side = true
  flags : ev.flags = (lm.heap l).flags
  count : (lm.heap l).count ev.op.side = 0
  empty : (lm.heap l).lastNPos = [] ∨
    (lm.stack ev.ctx = [] ∧ ∀ c, (l, ev.op.side) ∉ labels (lm.stack c))

/-- The events that have no effect in a state. -/
inductive Ignored (cfg : Config) (σ : State) : Event → Prop
  | skipped (e : Event) (h : cfg.skips e = true) : Ignored cfg σ e
  | alloc (ts base size : Nat) (typeStr : String) (h : Rejected cfg σ (.alloc ts base size typeStr)) :
      Ignored cfg σ (.alloc ts base size typeStr)
  | free (ts base size : Nat) (h : σ.activeAllocs[base]? = none) : Ignored cfg σ (.free ts base size)
  | access (e : AccessEvent) (h : σ.activeAllocs[e.baseAddress]? = none) : Ignored cfg σ (.access e)
  | unknownLock (ev : LockEvent) (h : σ.lockManager.locks[ev.address]? = none)
      (hv : ev.op.isP = false ∨ categorize cfg σ ev.address ev.lockMember = none) : Ignored cfg σ (.lockOp ev)
  | idle (ev : LockEvent) (l : LockPtr) (h : σ.lockManager.locks[ev.address]? = some l)
      (hv : σ.lockManager.IdleV l ev) : Ignored cfg σ (.lockOp ev)
  | other (ts : Nat) (c : Char) : Ignored cfg σ (.other ts c)

theorem map_uncounted_bump (k : Nat) (s : List TXN) : (bump k s).map TXN.uncounted = s.map TXN.uncounted := by
  cases s <;> rfl

/-- Entries that agree up to their counts have the same labels. -/
theorem labels_eq_of_uncounted {s u : List TXN} (h : s.map TXN.uncounted = u.map TXN.uncounted) :
    labels s = labels u := by
  have hmap := congrArg (List.map TXN.label) h
  rw [List.map_map, List.map_map] at hmap
  exact hmap

/-- What is done before an event is dispatched has no effect by itself. -/
theorem attributed_unaffected (cfg : Config) (σ : State) (e : Event) : Unaffected σ (attributed cfg σ e) := by
  have hframe := attributed_frame cfg σ e
  have hlm := (kept_attributed cfg σ e).2
  refine ⟨by rw [hframe]; rfl, ⟨?_, ?_, ?_, ?_, ?_, ?_, ?_⟩, by rw [hframe], by rw [hframe], by rw [hframe],
    by rw [hframe], ?_⟩
  · rw [hlm]
  · intro x l _
    rw [hlm]
  · intro c
    obtain ⟨k, hk⟩ := attributed_stack cfg σ e c
    rw [hk, map_uncounted_bump]
  · rw [hlm]
  · rw [hlm]
  · rw [hlm]
  · rw [hlm]
  · rcases attributed_eq cfg σ e with ⟨h, -⟩ | ⟨-, pending, hp, h⟩
    · exact ⟨[], by rw [h]; simp, by simp⟩
    · refine ⟨_, by rw [h]; exact (writeMemAccesses_fold cfg { σ with ts := e.ts } pending).2, ?_⟩
      have hsub : pending.Sublist σ.lastMemAccesses := by
        rw [hp]
        split
        · exact discardLockAccess_sublist _ _
        · exact List.Sublist.refl _
      simpa [Function.comp_def, accessRow] using hsub

/-- A handler that only prints. -/
structure Printed (σ σ' : State) : Prop where
  allocs : σ'.allocs = σ.allocs
  lm : σ.lockManager.Untouched σ'.lockManager
  nextAccess : σ'.curAccessID = σ.curAccessID
  nextStacktrace : σ'.curStacktraceID = σ.curStacktraceID
  stacktraces : σ'.stacktraces = σ.stacktraces
  locksOFile : σ'.locksOFile = σ.locksOFile
  accessOFile : σ'.accessOFile = σ.accessOFile

theorem LockManager.Untouched.refl (lm : LockManager) : lm.Untouched lm :=
  ⟨rfl, fun _ _ _ => rfl, fun _ => rfl, rfl, rfl, rfl, rfl⟩

theorem LockManager.Untouched.trans {lm₁ lm₂ lm₃ : LockManager} (h : lm₁.Untouched lm₂) (h' : lm₂.Untouched lm₃) :
    lm₁.Untouched lm₃ where
  locks := h'.locks.trans h.locks
  lock x l hl := (h'.lock x l (h.locks ▸ hl)).trans (h.lock x l hl)
  entries c := (h'.entries c).trans (h.entries c)
  nextTXNID := h'.nextTXNID.trans h.nextTXNID
  nextLockID := h'.nextLockID.trans h.nextLockID
  txnsOFile := h'.txnsOFile.trans h.txnsOFile
  locksHeldOFile := h'.locksHeldOFile.trans h.locksHeldOFile

theorem LockManager.Untouched.symm {lm lm' : LockManager} (h : lm.Untouched lm') : lm'.Untouched lm where
  locks := h.locks.symm
  lock x l hl := (h.lock x l (h.locks ▸ hl)).symm
  entries c := (h.entries c).symm
  nextTXNID := h.nextTXNID.symm
  nextLockID := h.nextLockID.symm
  txnsOFile := h.txnsOFile.symm
  locksHeldOFile := h.locksHeldOFile.symm

theorem LockManager.untouched_log (lm : LockManager) (m : Msg) : lm.Untouched (lm.log m) :=
  ⟨rfl, fun _ _ _ => rfl, fun _ => rfl, rfl, rfl, rfl, rfl⟩

theorem Unaffected.printed {σ τ σ' : State} (h : Unaffected σ τ) (hp : Printed τ σ') : Unaffected σ σ' where
  allocs := hp.allocs.trans h.allocs
  lm := h.lm.trans hp.lm
  nextAccess := hp.nextAccess.trans h.nextAccess
  nextStacktrace := hp.nextStacktrace.trans h.nextStacktrace
  stacktraces := hp.stacktraces.trans h.stacktraces
  locksOFile := hp.locksOFile.trans h.locksOFile
  accesses := by
    rw [hp.accessOFile]
    exact h.accesses

theorem printed_log (σ : State) (m : Msg) : Printed σ (σ.log m) :=
  ⟨rfl, σ.lockManager.untouched_log m, rfl, rfl, rfl, rfl, rfl⟩

/-- Whether an event is ignored does not depend on accesses that are pending. -/
theorem Ignored.congr {cfg : Config} {σ τ : State} {e : Event} (ha : τ.allocs = σ.allocs)
    (hu : σ.lockManager.Untouched τ.lockManager) (hi : Ignored cfg σ e) : Ignored cfg τ e := by
  have hact : τ.activeAllocs = σ.activeAllocs := congrArg AllocState.activeAllocs ha
  have hsub : τ.subclasses = σ.subclasses := congrArg AllocState.subclasses ha
  cases hi with
  | skipped _ hs => exact .skipped e hs
  | alloc ts base size typeStr hr =>
    refine .alloc ts base size typeStr ?_
    unfold Rejected State.hasSubclass at hr ⊢
    rwa [hact, hsub]
  | free ts base size hf => exact .free ts base size (by rw [hact]; exact hf)
  | access ev hf => exact .access ev (by rw [hact]; exact hf)
  | unknownLock ev hl hv =>
    refine .unknownLock ev (by rw [hu.locks]; exact hl) (hv.imp_right fun hc => ?_)
    unfold categorize at hc ⊢
    rwa [hact]
  | idle ev l hl hv =>
    have hlk := hu.lock ev.address l hl
    refine .idle ev l (by rw [hu.locks]; exact hl) ⟨hv.isV, by rw [hlk]; exact hv.side, by rw [hlk]; exact hv.flags,
      by rw [hlk]; exact hv.count, ?_⟩
    rw [hlk]
    refine hv.empty.imp_right fun ⟨hnil, hno⟩ => ⟨?_, fun c => ?_⟩
    · have := hu.entries ev.ctx
      rw [hnil, List.map_nil, List.map_eq_nil_iff] at this
      exact this
    · rw [labels_eq_of_uncounted (hu.entries c)]
      exact hno c
  | other ts c => exact .other ts c

namespace LockManager

/-- A `V()` of a sub lock that is on no stack works on the context that issues it. -/
theorem releaseCtx_of_none {lm : LockManager} {l : LockPtr} {side : SubLock} (ctx : Int)
    (h : ∀ c, (l, side) ∉ labels (lm.stack c)) : lm.releaseCtx l side ctx = ctx := by
  have hfind : lm.findTXN l side ctx = ctx := by
    unfold findTXN
    cases hf : lm.activeTXNs.toList.find? (fun kv => kv.2.any (fun t => t.lock = l && t.subLock = side)) with
    | none => rfl
    | some kv =>
      obtain ⟨hk, hp, -⟩ := OrdMap.find?_eq_some hf
      obtain ⟨t, ht, hl⟩ := List.any_eq_true.mp hp
      refine absurd (mem_labels.mpr ⟨t, ?_, by simpa [TXN.label] using hl⟩) (h kv.1)
      rw [stack, OrdMap.getD_eq, hk]
      exact ht
  unfold releaseCtx
  rw [hfind, ite_self]

theorem stack_releaseCtx_eq_nil {lm : LockManager} {l : LockPtr} {side : SubLock} {ctx : Int} :
    lm.stack (lm.releaseCtx l side ctx) = [] ↔ lm.stack ctx = [] ∧ ∀ c, (l, side) ∉ labels (lm.stack c) := by
  constructor
  · intro h
    have hno : ∀ c, (l, side) ∉ labels (lm.stack c) := by
      intro c hm
      have := releaseCtx_mem ctx hm
      rw [h] at this
      exact absurd this (by simp)
    rw [releaseCtx_of_none ctx hno] at h
    exact ⟨h, hno⟩
  · rintro ⟨h, hno⟩
    rw [releaseCtx_of_none ctx hno, h]

theorem updateFlags_self {lm : LockManager} {l : LockPtr} {flags : Nat} (h : flags = (lm.heap l).flags) :
    lm.updateFlags l flags = lm := by
  unfold updateFlags setLock RWLock.updateFlags
  rw [h, Function.update_eq_self]

/-- A `V()` is the same for every class that has the side. -/
theorem transition_release {lm : LockManager} {l : LockPtr} {ev : LockEvent} {kernelDir : String} {ctx : Int}
    (hv : ev.op.isP = false) (hs : (lm.heap l).cls.has ev.op.side = true) :
    lm.transition l ev kernelDir ctx = (lm.updateFlags l ev.flags).release l ev.op.side ev.ts ctx := by
  unfold transition
  cases hc : (lm.heap l).cls <;> cases hop : ev.op <;>
    simp_all [LockOp.isP, LockOp.side, LockClass.has, writeTransition, readTransition]

/-- Releasing with nothing to close only prints. -/
theorem IdleV.transition {lm : LockManager} {l : LockPtr} {ev : LockEvent} {kernelDir : String} (h : lm.IdleV l ev) :
    ∃ lm', lm.transition l ev kernelDir ev.ctx = .ok lm' ∧ lm.Untouched lm' := by
  have hs := h.side
  rw [transition_release h.isV hs, updateFlags_self h.flags]
  unfold release
  by_cases hpos : (lm.heap l).lastNPos = []
  · refine ⟨(lm.log .noLastPos).log .alreadyReleased, ?_, (untouched_log lm _).trans (untouched_log _ _)⟩
    rw [if_neg (by simpa using hpos), printError_of_has hs]
    change (if (lm.heap l).count ev.op.side = 0 then _ else _) = _
    rw [if_pos h.count]
    exact printError_of_has hs
  · obtain ⟨hnil, hno⟩ := h.empty.resolve_left hpos
    have hactive : lm.hasActiveTXN ev.ctx = false := by simp [hasActiveTXN, hnil]
    have hrel : lm.releaseTXN l ev.op.side ev.ts ev.ctx =
        .ok (((lm.log .noRunningTXN).log .noMatchingTXN).setStack ev.ctx []) := by
      unfold releaseTXN
      have hloop : (lm.log .noRunningTXN).stack ev.ctx = [] := hnil
      simp only [releaseCtx_of_none ev.ctx hno, hactive, Bool.not_false, and_self, if_true, printError_of_has hs,
        finishTXN, bind, Except.bind, hloop, finishLoop, Bool.false_eq_true, if_false]
      rw [printError_of_has (by exact hs)]
      rfl
    refine ⟨(((lm.log .noRunningTXN).log .noMatchingTXN).setStack ev.ctx []).log .alreadyReleased, ?_, ?_⟩
    · rw [if_pos (by simpa using hpos), hrel]
      change (if (lm.heap l).count ev.op.side = 0 then _ else _) = _
      rw [if_pos h.count]
      exact printError_of_has hs
    · refine ⟨rfl, fun _ _ _ => rfl, fun c => ?_, rfl, rfl, rfl, rfl⟩
      change ((lm.activeTXNs.insert ev.ctx []).getD c []).map _ = _
      rw [OrdMap.getD_insert_eq]
      split
      · rename_i hc
        rw [hc, hnil]
      · rfl

/-- A `V()` that leaves its lock, the stacks and the ids alone had nothing to close. -/
theorem Released.idleV {lm lm' : LockManager} {l : LockPtr} {ev : LockEvent} {x : Nat}
    (hr : Released (lm.updateFlags l ev.flags) l ev.ts ev.ctx ev.op.side lm') (hl : lm.locks[x]? = some l)
    (hu : lm.Untouched lm') (hv : ev.op.isP = false) (hs : (lm.heap l).cls.has ev.op.side = true) :
    lm.IdleV l ev := by
  have hlock : lm'.heap l = lm.heap l := hu.lock x l hl
  have huncount : ∀ lk : RWLock, (lk.uncount ev.op.side).flags = lk.flags := by
    intro lk
    unfold RWLock.uncount
    split
    · rfl
    · cases ev.op.side <;> rfl
  have hcount : ∀ lk : RWLock, lk.uncount ev.op.side = lk → lk.count ev.op.side = 0 := by
    intro lk he
    by_contra hne
    have hc := congrArg (fun k : RWLock => k.count ev.op.side) he
    simp only [RWLock.uncount, hne, if_false, RWLock.count_setCount] at hc
    omega
  have hset : (lm.updateFlags l ev.flags).heap l = { lm.heap l with flags := ev.flags } := by
    simp [updateFlags, setLock, RWLock.updateFlags]
  cases hr with
  | closed lm₁ p ps msgs top fin =>
    -- the position that is popped would be missing
    exfalso
    have hpos := congrArg RWLock.lastNPos hlock
    simp only [setLock, Function.update_self, RWLock.lastNPos_uncount] at hpos
    rw [hset] at top
    simp only at top
    rw [← hpos] at top
    exact absurd (congrArg List.length top) (by simp)
  | unclosed lm₁ msgs some fin =>
    simp only [setLock, Function.update_self] at hlock
    have hflags : ev.flags = (lm.heap l).flags := by
      rw [← hlock, huncount, hset]
    rw [updateFlags_self hflags] at fin hlock
    refine ⟨hv, hs, hflags, hcount _ hlock, .inr (stack_releaseCtx_eq_nil.mp ?_)⟩
    have hnext : lm₁.nextTXNID = lm.nextTXNID := hu.nextTXNID
    cases fin with
    | missing _ none =>
      simp only [LockManager.closed, Nat.add_eq_left, List.length_eq_zero_iff] at hnext
      exact hnext
  | empty msgs none =>
    simp only [setLock, Function.update_self] at hlock
    have hflags : ev.flags = (lm.heap l).flags := by
      rw [← hlock, huncount, hset]
    rw [updateFlags_self hflags] at none hlock
    exact ⟨hv, hs, hflags, hcount _ hlock, .inl none⟩

/-- Finishing transactions uses up ids and gives none back. -/
theorem Finished.le_nextTXNID {lm lm' : LockManager} {l : LockPtr} {ts : Nat} {side : SubLock} {rr found : Bool}
    {ctx ctxOld : Int} (h : Finished lm l ts side rr ctx ctxOld found lm') : lm.nextTXNID ≤ lm'.nextTXNID := by
  cases h <;> exact Nat.le_add_right _ _

/-- A `P()` opens a transaction under a new id. -/
theorem Prepared.acquire_lt {lm lm₁ : LockManager} {l : LockPtr} {ts : Nat} {ctx : Int} {side : SubLock}
    (h : Prepared lm l ts ctx side lm₁) (pos : LockPos) :
    lm.nextTXNID < (lm₁.acquire l pos ctx).nextTXNID := by
  have hle : lm.nextTXNID ≤ lm₁.nextTXNID := by
    obtain ⟨lm₂, rfl | ⟨_, _, _, fin⟩, ht⟩ := h.touched
    · exact ht.nextTXNID.ge
    · exact fin.le_nextTXNID.trans ht.nextTXNID.ge
  exact Nat.lt_succ_of_le hle

/-- A transition of a registered lock that leaves everything alone is an idle `V()`. -/
theorem transition_idleV {lm lm' : LockManager} {l : LockPtr} {ev : LockEvent} {x : Nat} {kernelDir : String}
    (hl : lm.locks[x]? = some l) (ht : lm.transition l ev kernelDir ev.ctx = .ok lm') (hu : lm.Untouched lm') :
    lm.IdleV l ev := by
  obtain ⟨hs, ⟨-, lm₁, hp, rfl⟩ | ⟨hv, hr⟩⟩ := transition_ok ht
  · have := hp.acquire_lt (ev.pos kernelDir ev.op.side)
    rw [hu.nextTXNID] at this
    exact absurd this (Nat.lt_irrefl _)
  · exact hr.idleV hl hu hv hs

theorem lt_nextLockID_allocated (lm : LockManager) (cls : LockClass) (address allocID : Nat) (lockType name : String)
    (flags : Nat) : lm.nextLockID < (lm.allocated cls address allocID lockType name flags).nextLockID := by
  cases cls <;> simp [allocated, RWLock.initIDs]

end LockManager

theorem resolveLock_ignored {cfg : Config} {σ σ' : State} {ev : LockEvent}
    (h : resolveLock cfg σ ev = .ok (none, σ')) :
    ev.op.isP = false ∨ categorize cfg σ ev.address ev.lockMember = none := by
  unfold resolveLock at h
  split at h
  · cases h
  · split at h
    · rename_i hc
      exact .inr hc
    · split at h
      · rename_i hv
        rcases hv with hv | hv <;> exact .inl (by rw [hv]; rfl)
      · obtain ⟨⟨k, lm⟩, -, h⟩ := bind_ok.mp h
        cases h

/-- An event that is dispatched and leaves no trace is an ignored one. -/
theorem ignored_of_dispatch {cfg : Config} {σ σ' : State} {e : Event}
    (h : dispatch { cfg with ctxTracing := true } σ e = .ok σ') (ha : σ'.allocs = σ.allocs)
    (hlm : σ.lockManager.Untouched σ'.lockManager) (hn : σ'.curAccessID = σ.curAccessID) : Ignored cfg σ e := by
  cases e with
  | alloc ts base size typeStr =>
    have hacc := dispatch_accounted h
    generalize σ'.allocs = v at hacc ha
    cases hacc with
    | rejected _ hr => exact .alloc ts base size typeStr hr
    | admitted _ _ _ _ i subclasses next hfree hc =>
      have hid := congrArg AllocState.curAllocID ha
      exact absurd hid (Nat.succ_ne_self _)
  | free ts base size =>
    have hacc := dispatch_accounted h
    generalize σ'.allocs = v at hacc ha
    cases hacc with
    | rejected _ hr => exact .free ts base size hr
    | freed _ _ _ a hb =>
      have hmap : σ.activeAllocs.erase base = σ.activeAllocs := congrArg AllocState.activeAllocs ha
      rw [← hmap, OrdMap.getElem?_erase_eq, if_pos rfl] at hb
      cases hb
  | access ev =>
    cases dispatch_ok h with
    | quiet _ _ _ _ unknown => exact .access ev (unknown ev rfl)
    | buffered _ a trace next traces hb hin => exact absurd hn (Nat.succ_ne_self _)
  | lockOp ev =>
    cases dispatch_ok h with
    | quiet _ _ _ idle _ =>
      obtain ⟨hl, σ₁, hr⟩ := idle ev rfl
      exact .unknownLock ev hl (resolveLock_ignored hr)
    | acted _ l σ₁ lm _ hr ht =>
      cases hr with
      | known _ hl => exact .idle ev l hl (LockManager.transition_idleV hl ht hlm)
      | fresh cls id name hl isP hc rows =>
        have hlt := σ.lockManager.lt_nextLockID_allocated cls ev.address id ev.lockType name ev.flags
        have hid : lm.nextLockID = _ := (LockManager.transition_framed ht).nextLockID
        have hsame : lm.nextLockID = σ.lockManager.nextLockID := hlm.nextLockID
        rw [← hid, hsame] at hlt
        exact absurd hlt (Nat.lt_irrefl _)
  | other ts c => exact .other ts c

/-- An ignored event is dispatched to the end, and only prints. -/
theorem dispatch_of_ignored {cfg : Config} {σ : State} {e : Event} (hs : cfg.skips e = false)
    (hi : Ignored cfg σ e) :
    ∃ σ', dispatch { cfg with ctxTracing := true } σ e = .ok σ' ∧ Printed σ σ' := by
  cases hi with
  | skipped _ h => exact absurd h (by simp [hs])
  | alloc ts base size typeStr hr =>
    by_cases hocc : σ.activeAllocs.contains base
    · exact ⟨_, if_pos hocc, printed_log σ _⟩
    · have hun : ¬(σ.hasSubclass typeStr ∨ cfg.knows typeStr) := by
        refine hr.resolve_left fun hne => hocc ?_
        rw [Std.ExtTreeMap.contains_eq_isSome_getElem?, Option.isSome_iff_ne_none]
        exact hne
      have hfind : findSubclass { cfg with ctxTracing := true } σ typeStr =
          .ok (none, σ.log (.unknownDatatype typeStr)) := by
        unfold findSubclass
        simp only
        split
        · rename_i i hsub
          exact absurd (.inl (hasSubclass_iff.mpr ⟨i, hsub⟩)) hun
        · split
          · rfl
          · rename_i d hty
            exact absurd (.inr (knows_iff.mpr ⟨d, hty⟩)) hun
      refine ⟨_, ?_, printed_log σ (.unknownDatatype typeStr)⟩
      simp only [dispatch, handleAlloc, if_neg hocc, hfind]
      rfl
  | free ts base size hf =>
    refine ⟨_, ?_, printed_log σ .noActiveAllocationForFree⟩
    simp only [dispatch, handleFree, hf]
  | access ev hf =>
    refine ⟨_, ?_, printed_log σ .noActiveAllocation⟩
    simp only [dispatch, handleAccess, hf]
  | unknownLock ev hl hv =>
    have hr : ∃ σ', resolveLock { cfg with ctxTracing := true } σ ev = .ok (none, σ') ∧ Printed σ σ' := by
      simp only [resolveLock, LockManager.findLock, hl]
      cases hc : categorize { cfg with ctxTracing := true } σ ev.address ev.lockMember with
      | none => exact ⟨σ, rfl, ⟨rfl, .refl _, rfl, rfl, rfl, rfl, rfl⟩⟩
      | some p =>
        have hc : categorize cfg σ ev.address ev.lockMember = some p := hc
        have hV : ev.op = .vRead ∨ ev.op = .vWrite := by
          have hv := hv.resolve_right (by simp [hc])
          cases hop : ev.op <;> simp_all [LockOp.isP]
        exact ⟨_, if_pos hV, printed_log σ _⟩
    obtain ⟨σ', hr, hp⟩ := hr
    refine ⟨σ', ?_, hp⟩
    simp only [dispatch, handlePV, hr]
    rfl
  | idle ev l hl hv =>
    obtain ⟨lm, ht, hu⟩ := @LockManager.IdleV.transition _ _ _ cfg.kernelBaseDir hv
    refine ⟨{ σ with lockManager := lm }, ?_, ⟨rfl, hu, rfl, rfl, rfl, rfl, rfl⟩⟩
    have hr : resolveLock { cfg with ctxTracing := true } σ ev = .ok (some l, σ) := by
      simp only [resolveLock, LockManager.findLock, hl]
    simp only [dispatch, handlePV, hr, bind, Except.bind, Config.ctxOf, if_true, ht]
  | other ts c => exact ⟨_, rfl, printed_log σ _⟩

/-- The second half of the loop has no effect exactly on ignored events. -/
theorem dispatchLine_unaffected_iff {cfg : Config} {σ : State} {e : Event} :
    (∃ σ', dispatchLine cfg σ e = .ok σ' ∧ Unaffected σ σ') ↔ Ignored cfg σ e := by
  unfold dispatchLine
  cases hs : cfg.skips e with
  | true =>
    refine iff_of_true ⟨_, rfl, ?_⟩ (.skipped e hs)
    exact ⟨rfl, .refl _, rfl, rfl, rfl, rfl, ⟨[], by simp, by simp⟩⟩
  | false =>
    have hτ := attributed_unaffected cfg σ e
    simp only [Bool.false_eq_true, if_false]
    constructor
    · rintro ⟨σ', h, hσ'⟩
      have hi := ignored_of_dispatch h (hσ'.allocs.trans hτ.allocs.symm) (hτ.lm.symm.trans hσ'.lm)
        (hσ'.nextAccess.trans hτ.nextAccess.symm)
      exact hi.congr hτ.allocs.symm hτ.lm.symm
    · intro hi
      obtain ⟨σ', h, hp⟩ := dispatch_of_ignored hs (hi.congr hτ.allocs hτ.lm)
      exact ⟨σ', h, hτ.printed hp⟩

/-- One of the conversions of the line throws, and leaves the variables `w`. -/
structure FailsToParse (cfg : Config) (delimiter : Char) (v : Vars) (inputLine : String) (ts : Nat) (w : Vars) : Prop where
  ts : stoull 10 (column (columns delimiter inputLine) 0) = .ok ts
  length : (columns delimiter inputLine).length = 14
  thrown : ∃ t, (parseColumns cfg.ctxTracing (columns delimiter inputLine)).result v.fresh = (.error (.thrown t), w)

/-- A line that fails to parse has no effect exactly if the event it is half of is ignored. -/
theorem failed_line_noEffect_iff {cfg : Config} {delimiter : Char} {v w : Vars} {σ : State} {inputLine : String}
    {ts : Nat} (h : FailsToParse cfg delimiter v inputLine ts w) :
    NoEffect cfg delimiter (v, σ) inputLine ↔ Ignored cfg σ (w.event ts) := by
  obtain ⟨t, ht⟩ := h.thrown
  rw [← dispatchLine_unaffected_iff]
  unfold NoEffect processLine
  simp only [h.ts, h.length, ht, ne_eq, not_true_eq_false, if_false, Except.error.injEq, reduceCtorEq]
  cases hd : dispatchLine cfg σ (w.event ts) with
  | error a => simp
  | ok σ' => simp

/-- An allocation or `free` line that fails to parse has the default size. -/
theorem FailsToParse.size {cfg : Config} {delimiter : Char} {v w : Vars} {inputLine : String} {ts : Nat} {action : Char}
    (h : FailsToParse cfg delimiter v inputLine ts w)
    (hc : firstChar (column (columns delimiter inputLine) 1) = .ok action) (ha : action = 'a' ∨ action = 'f') :
    w.size = 4711 := by
  obtain ⟨t, ht⟩ := h.thrown
  rw [parseColumns_of_action hc, if_pos ha] at ht
  exact parseAlloc_size _ _ _ _ ht

/-- A lock operation that fails to parse is the operation of an earlier line. -/
theorem FailsToParse.lockOP {cfg : Config} {delimiter : Char} {v w : Vars} {inputLine : String} {ts : Nat}
    (h : FailsToParse cfg delimiter v inputLine ts w)
    (hc : firstChar (column (columns delimiter inputLine) 1) = .ok 'l') : w.lockOP = v.lockOP := by
  obtain ⟨t, ht⟩ := h.thrown
  rw [parseColumns_of_action hc, if_neg (show ¬('l' = 'a' ∨ 'l' = 'f') by decide), if_pos rfl] at ht
  have hkeep := parseLockOp_lockOP _ _ _ _ _ ht
  exact hkeep

/-- A `free` line whose address cannot be read. -/
def badAddress : String := "1;f;0;x;64;0;inode;;;0;0;;0;0"

/-- No allocation is active, so the line has no effect. -/
theorem badAddress_noEffect : NoEffect (.trackAll true) ';' (.init, .init (.trackAll true)) badAddress := by
  have hfree : Ignored (.trackAll true) (.init (.trackAll true)) (.free 1 0x4711 4711) :=
    .free 1 0x4711 4711 (by decide +kernel)
  exact (failed_line_noEffect_iff (w := { Vars.init.fresh with action := 'f', typeStr := "inode" })
    ⟨by decide +kernel, by decide +kernel, .invalidArgument, by decide +kernel⟩).mpr hfree

/-- An allocation line whose size cannot be read, as the first line of a trace. -/
def badSize : String := "1;a;0;1000;x;0;inode;;;0;0;;0;0"

/-- An allocation of the default size is made. -/
theorem badSize_allocates :
    readTrace (.trackAll true) ';' [] = .ok (.init, .init (.trackAll true)) ∧
      (∃ ts w, FailsToParse (.trackAll true) ';' .init badSize ts w) ∧
      ¬NoEffect (.trackAll true) ';' (.init, .init (.trackAll true)) badSize := by
  refine ⟨rfl, ⟨1, { Vars.init.fresh with action := 'a', typeStr := "inode", baseAddress := 0x1000 },
    ⟨by decide +kernel, by decide +kernel, .invalidArgument, by decide +kernel⟩⟩, ?_⟩
  rintro ⟨s, hs, hu⟩
  have hcheck : okAnd (processLine (.trackAll true) ';' (.init, .init (.trackAll true)) badSize)
      (fun s => decide (s.2.curAllocID = 3)) = true := by decide +kernel
  obtain ⟨s', hs', hid⟩ := okAnd_iff.mp hcheck
  rw [hs, Except.ok.injEq] at hs'
  subst hs'
  have hsame := congrArg AllocState.curAllocID hu.allocs
  have hid : s.2.curAllocID = 3 := of_decide_eq_true hid
  exact absurd (hid.symm.trans hsame) (by decide)

end LockDoc.Convert
