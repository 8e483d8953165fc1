import LockDoc.Convert.Reference

/-!
# The lock manager agrees with the reference

On a legal trace the stacks hold exactly the sub locks of the reference, in the same
order, and the counters and positions count them. A legal `P()` then finds nothing to
recover from, and a legal `V()` always finds the transaction the reference names.
-/
namespace LockDoc.Convert

open FallibleRun

namespace LockManager

structure Agrees (lm : LockManager) (r : Reference) : Prop where
  wellFormed : lm.WellFormed
  ids : lm.IdsFresh
  lockIds : lm.LockIds
  sublocks : ∀ c, labels (lm.stack c) = r.sublocks c
  counts : ∀ l s, (lm.heap l).count s = lm.held (l, s)
  positions : ∀ l, (lm.heap l).lastNPos.length = lm.held (l, .reader) + lm.held (l, .writer)
  oneSide : ∀ l, lm.held (l, .reader) = 0 ∨ lm.held (l, .writer) = 0

theorem Agrees.used {lm : LockManager} {r : Reference} (h : lm.Agrees r) (c : Int) :
    ∀ x ∈ labels (lm.stack c), lm.Used x :=
  fun x hx => ⟨(h.wellFormed.entry c x hx).1, (h.wellFormed.entry c x hx).2⟩

/-- Every entry can be reported when its transaction is recorded. -/
theorem Agrees.reportable {lm : LockManager} {r : Reference} (h : lm.Agrees r) (c : Int) :
    ∀ t ∈ lm.stack c, Reportable lm.heap t := by
  intro t ht
  have hmem : (t.lock, t.subLock) ∈ labels (lm.stack c) := mem_labels.mpr ⟨t, ht, rfl⟩
  have hpos := held_pos_of_mem hmem
  have hfit : (lm.heap t.lock).cls.has t.subLock := (h.wellFormed.entry c _ hmem).2
  refine ⟨?_, ?_, hfit⟩
  · apply (lm.heap t.lock).isHeld_of_count t.subLock hfit
    rw [h.counts]
    omega
  · intro hn
    have hp := h.positions t.lock
    rw [hn, List.length_nil] at hp
    cases hside : t.subLock <;> rw [hside] at hpos <;> omega

theorem Agrees.held_zero {lm : LockManager} {r : Reference} (h : lm.Agrees r) {x : LockPtr × SubLock} :
    r.isHeld x = false ↔ lm.held x = 0 := by
  rw [held_eq_zero, ← Bool.not_eq_true, Reference.isHeld_iff, not_exists]
  simp only [h.sublocks]

/-- Moves that keep counters, positions and labels keep the agreement. -/
theorem Agrees.kept {lm lm' : LockManager} {r : Reference} (h : lm.Agrees r) (hk : Kept lm lm')
    (hw : lm'.WellFormed) (hi : lm'.IdsFresh) (hl : lm'.LockIds) : lm'.Agrees r where
  wellFormed := hw
  ids := hi
  lockIds := hl
  sublocks c := by rw [hk.labels, h.sublocks]
  counts l s := by rw [hk.count, hk.held, h.counts]
  positions l := by rw [hk.pos, hk.held, hk.held, h.positions]
  oneSide l := by rw [hk.held, hk.held]; exact h.oneSide l

theorem init_agrees : LockManager.init.Agrees .init where
  wellFormed := init_wellFormed
  ids := init_idsFresh
  lockIds := init_lockIds
  sublocks c := by simp [init, stack, Reference.init, Reference.sublocks, Reference.heldBy, OrdMap.getD_eq]
  counts l s := by rw [init_held]; cases s <;> rfl
  positions l := by rw [init_held, init_held]; rfl
  oneSide l := .inl (init_held _)

/-- A `V()` works on the stack of the context that the reference names. -/
theorem Agrees.releaseCtx {lm : LockManager} {r : Reference} (h : lm.Agrees r) (l : LockPtr) (side : SubLock)
    (ctx : Int) : lm.releaseCtx l side ctx = r.releaser (l, side) ctx := by
  unfold Reference.releaser
  split
  · rename_i hm
    rw [← h.sublocks] at hm
    exact releaseCtx_self hm
  · rename_i hm
    rw [← h.sublocks] at hm
    have hon : lm.isOnTXNStack ctx l side = false := by
      rw [← Bool.not_eq_true, isOnTXNStack_iff]
      exact hm
    have hkey : (lm.activeTXNs.toList.find?
          (fun kv => kv.2.any (fun t => t.lock = l && t.subLock = side))).map Prod.fst =
        (r.holds.toList.find? (fun kv => kv.2.any (fun h => h.label = (l, side)))).map Prod.fst := by
      refine OrdMap.find?_key_congr (p := fun s : List TXN => s.any (fun t => t.lock = l && t.subLock = side))
        (q := fun hs : List Hold => hs.any (fun h => h.label = (l, side))) (d := []) (by simp)
        (List.any_nil) ?_
      intro c
      change (lm.stack c).any (fun t => t.lock = l && t.subLock = side) =
        (r.heldBy c).any (fun h => h.label = (l, side))
      rw [Bool.eq_iff_iff]
      have hc := h.sublocks c
      rw [show ((lm.stack c).any (fun t => t.lock = l && t.subLock = side) = true) ↔
        (l, side) ∈ labels (lm.stack c) from isOnTXNStack_iff, hc]
      simp [Reference.sublocks]
    simp only [LockManager.releaseCtx, hon, findTXN]
    cases hf : lm.activeTXNs.toList.find? (fun kv => kv.2.any (fun t => t.lock = l && t.subLock = side)) <;>
      cases hg : r.holds.toList.find? (fun kv => kv.2.any (fun h => h.label = (l, side))) <;>
        rw [hf, hg] at hkey <;> simp_all

/-- Opening a transaction follows the reference. -/
theorem Agrees.acquire {lm : LockManager} {r : Reference} (h : lm.Agrees r) {l : LockPtr} {e : LockEvent}
    {kernelDir : String} {ctx : Int} (hl : l < lm.objects) (hs : (lm.heap l).cls.has e.op.side)
    (ho : lm.held (l, e.op.side.other) = 0) :
    (lm.acquire l (e.pos kernelDir e.op.side) ctx).Agrees (r.acquire l e ctx) := by
  have hfr := acquire_framed lm l (e.pos kernelDir e.op.side) ctx
  have hheap : (lm.acquire l (e.pos kernelDir e.op.side) ctx).heap l =
      (lm.heap l).push (e.pos kernelDir e.op.side) := by
    simp [LockManager.acquire, startTXN, setStack]
  have hheld := fun x => held_acquire lm l (e.pos kernelDir e.op.side) ctx x
  have hside : (e.pos kernelDir e.op.side).subLock = e.op.side := rfl
  have hother : ∀ {k : LockPtr} (s : SubLock), k ≠ l →
      (lm.acquire l (e.pos kernelDir e.op.side) ctx).held (k, s) = lm.held (k, s) := by
    intro k s hk
    rw [hheld, if_neg (by simp [hk])]
    rfl
  have hown : ∀ s, (lm.acquire l (e.pos kernelDir e.op.side) ctx).held (l, s) =
      lm.held (l, s) + if s = e.op.side then 1 else 0 := by
    intro s
    rw [hheld, hside]
    simp
  refine ⟨?_, h.ids.acquire l _ ctx, hfr.lockIds h.lockIds, ?_, ?_, ?_, ?_⟩
  · refine ⟨?_, ?_, ?_⟩
    · intro k hk
      rw [hfr.objects] at hk
      rw [hfr.heap k (Nat.ne_of_gt (Nat.lt_of_lt_of_le hl hk))]
      exact h.wellFormed.fresh k hk
    · intro c x hx
      have hx' : x ∈ labels (lm.stack c) ∨ x = (l, e.op.side) := by
        rw [stack_acquire] at hx
        split at hx
        · subst c
          rcases List.mem_cons.mp hx with hx | hx
          · exact .inr hx
          · exact .inl hx
        · exact .inl hx
      refine ⟨?_, ?_⟩
      · rw [hfr.objects]
        rcases hx' with hx' | rfl
        · exact (h.wellFormed.entry c x hx').1
        · exact hl
      · rcases hx' with hx' | rfl
        · exact ((hfr.used x).mpr ⟨(h.wellFormed.entry c x hx').1, (h.wellFormed.entry c x hx').2⟩).has
        · rw [hfr.cls]
          exact hs
    · rw [hfr.locks, hfr.objects]
      exact h.wellFormed.registered
  · intro c
    rw [stack_acquire, Reference.sublocks_acquire]
    split
    · subst c
      rw [labels_cons, h.sublocks]
      rfl
    · exact h.sublocks c
  · intro k s
    by_cases hk : k = l
    · subst hk
      rw [hheap, hown, RWLock.push, hside]
      have hc := h.counts k
      cases s <;> cases hop : e.op.side <;> simp [RWLock.count, RWLock.setCount, ← hc]
    · rw [hfr.heap k hk, hother s hk, h.counts]
  · intro k
    by_cases hk : k = l
    · subst hk
      rw [hheap, hown, hown, RWLock.push, List.length_cons, h.positions]
      cases e.op.side <;> simp <;> omega
    · rw [hfr.heap k hk, hother _ hk, hother _ hk, h.positions]
  · intro k
    by_cases hk : k = l
    · subst hk
      rw [hown, hown]
      cases hop : e.op.side with
      | reader =>
        rw [hop] at ho
        exact .inr (by simpa [SubLock.other] using ho)
      | writer =>
        rw [hop] at ho
        exact .inl (by simpa [SubLock.other] using ho)
    · rw [hother _ hk, hother _ hk]
      exact h.oneSide k

/-- Closing the transaction that the reference names follows the reference. -/
theorem Agrees.released {lm lm' : LockManager} {r : Reference} (h : lm.Agrees r) {l : LockPtr} {ts : Nat} {ctx : Int}
    {side : SubLock} (hl : l < lm.objects) (hx : r.isHeld (l, side)) (hr : Released lm l ts ctx side lm') :
    lm'.Agrees (r.release (l, side) ctx) ∧ ∀ i H, lm.Backed i H → lm'.Backed i H := by
  have hfr := hr.framed
  obtain ⟨c, hc⟩ := Reference.isHeld_iff.mp hx
  rw [← h.sublocks] at hc
  have hpos := held_pos_of_mem hc
  cases hr with
  | closed lm₁ p ps msgs top fin =>
    have hheld : ∀ x, lm₁.held x + (if x = (l, side) then 1 else 0) = lm.held x := fin.held_closed
    have hother : ∀ {k : LockPtr} (s : SubLock), k ≠ l → lm₁.held (k, s) = lm.held (k, s) := by
      intro k s hk
      have := hheld (k, s)
      rw [if_neg (by simp [hk])] at this
      exact this
    have hstack : ∀ d, labels (lm₁.stack d) = (r.release (l, side) ctx).sublocks d := by
      intro d
      rw [Reference.sublocks_release, ← h.releaseCtx]
      split
      · subst d
        rw [fin.labels_closed, h.sublocks]
      · rename_i hd
        rw [fin.stack_other hd, h.sublocks]
    have hsub : ∀ d, ∀ x ∈ labels (lm₁.stack d), x ∈ labels (lm.stack d) := by
      intro d x hx
      by_cases hd : d = lm.releaseCtx l side ctx
      · rw [hd] at hx ⊢
        exact fin.labels_sublist.subset hx
      · rwa [fin.stack_other hd] at hx
    refine ⟨⟨?_, ?_, hfr.lockIds h.lockIds, hstack, ?_, ?_, ?_⟩, ?_⟩
    · refine ⟨?_, ?_, ?_⟩
      · intro k hk
        rw [hfr.objects] at hk
        rw [hfr.heap k (Nat.ne_of_gt (Nat.lt_of_lt_of_le hl hk))]
        exact h.wellFormed.fresh k hk
      · intro d x hx
        have hold := h.used d x (hsub d x hx)
        have hnew := (hfr.used x).mpr hold
        exact ⟨hnew.allocated, hnew.has⟩
      · rw [hfr.locks, hfr.objects]
        exact h.wellFormed.registered
    · exact (fin.idsFresh h.ids).same (fun _ => rfl) rfl rfl rfl
    · intro k s
      change _ = (lm₁.held (k, s) : Int)
      by_cases hk : k = l
      · subst hk
        have hh := hheld (k, s)
        have hc' := h.counts k s
        simp only [heap_setLock, if_true]
        by_cases hss : s = side
        · subst hss
          have hcnt : RWLock.count { lm.heap k with lastNPos := ps } s = (lm.heap k).count s := by
            cases s <;> rfl
          rw [RWLock.count_uncount, hcnt, hc', if_neg (by omega)]
          simp only [if_true] at hh
          omega
        · have hso : s = side.other := by cases s <;> cases side <;> simp_all [SubLock.other]
          have hcnt : RWLock.count { lm.heap k with lastNPos := ps } s = (lm.heap k).count s := by
            cases s <;> rfl
          rw [if_neg (by simp [hss])] at hh
          rw [hso, RWLock.count_uncount_other, ← hso, hcnt, hc']
          omega
      · rw [hfr.heap k hk, hother s hk, h.counts]
    · intro k
      change _ = lm₁.held (k, .reader) + lm₁.held (k, .writer)
      by_cases hk : k = l
      · subst hk
        have hR := hheld (k, .reader)
        have hW := hheld (k, .writer)
        have hp := h.positions k
        rw [top, List.length_cons] at hp
        simp only [heap_setLock, if_true, RWLock.lastNPos_uncount]
        cases side <;> simp only [if_true, reduceCtorEq, Prod.mk.injEq, and_false, if_false] at hR hW <;> omega
      · rw [hfr.heap k hk, hother _ hk, hother _ hk, h.positions]
    · intro k
      change lm₁.held (k, .reader) = 0 ∨ lm₁.held (k, .writer) = 0
      have hR := fin.held_le (k, .reader)
      have hW := fin.held_le (k, .writer)
      have := h.oneSide k
      omega
    · intro i H hb
      have hb₁ := fin.backed h.ids h.lockIds (h.reportable _) (h.used _) hb
      refine Backed.same ?_ ?_ ?_ ?_ hb₁
      · exact fun _ => rfl
      · rfl
      · rfl
      intro x hx
      have hx₀ : lm.Used x := (fin.framed (k := l).used x).mp hx
      exact ⟨(hfr.used x).mpr hx₀, (hfr.lockId x).trans (fin.framed (k := l).lockId x).symm⟩
  | unclosed lm₁ msgs some fin => exact absurd (releaseCtx_mem ctx hc) fin.not_mem_of_missing
  | empty msgs none =>
    have hp := h.positions l
    rw [none, List.length_nil] at hp
    cases side <;> omega

theorem Agrees.updateFlags {lm : LockManager} {r : Reference} (h : lm.Agrees r) (l : LockPtr) (flags : Nat) :
    (lm.updateFlags l flags).Agrees r := by
  have hk := kept_updateFlags lm l flags
  refine h.kept hk (hk.wellFormed h.wellFormed ?_) (h.ids.same (fun _ => rfl) rfl rfl rfl)
    ((updateFlags_framed lm l flags).lockIds h.lockIds)
  exact h.wellFormed.registered

/-- What the counters of a lock say at a legal `P()`: the other side is free, and the write
side is counted only if the operation is recursive. -/
theorem Agrees.legal_counts {cfg : Config} {lm : LockManager} {r : Reference} (h : lm.Agrees r) {l : LockPtr}
    {e : LockEvent} (hP : e.op.isP = true) (hleg : legalOp cfg r l e = true) :
    lm.held (l, e.op.side.other) = 0 ∧
      (e.op = .pWrite → lm.held (l, .writer) = 0 ∨ isRecursive e.flags = true) := by
  unfold legalOp at hleg
  cases hop : e.op with
  | pRead =>
    simp only [hop, Bool.not_eq_true'] at hleg
    exact ⟨h.held_zero.mp hleg, by simp⟩
  | pWrite =>
    simp only [hop, Bool.or_eq_true, Bool.and_eq_true, Bool.not_eq_true', decide_eq_true_eq] at hleg
    rcases hleg with ⟨hR, hW⟩ | ⟨⟨hrec, hmem⟩, -⟩
    · exact ⟨h.held_zero.mp hR, fun _ => .inl (h.held_zero.mp hW)⟩
    · refine ⟨?_, fun _ => .inr hrec⟩
      rw [← h.sublocks] at hmem
      have := held_pos_of_mem hmem
      have := h.oneSide l
      change lm.held (l, .reader) = 0
      omega
  | vRead => simp [hop, LockOp.isP] at hP
  | vWrite => simp [hop, LockOp.isP] at hP

/-- A legal `P()` has nothing to recover from. -/
theorem Agrees.prepared {cfg : Config} {lm lm₁ : LockManager} {r : Reference} (h : lm.Agrees r) {l : LockPtr}
    {e : LockEvent} {ts : Nat} {ctx : Int} (hP : e.op.isP = true) (hleg : legalOp cfg r l e = true)
    (hf : (lm.heap l).flags = e.flags) (hp : Prepared lm l ts ctx e.op.side lm₁) : lm₁ = lm := by
  obtain ⟨hother, hw⟩ := h.legal_counts hP hleg
  have hco := h.counts l e.op.side.other
  have hcw : (lm.heap l).writerCount = lm.held (l, .writer) := h.counts l .writer
  generalize hs : e.op.side = side at hp hother hco
  cases hp with
  | plain => rfl
  | flushed _ lm₂ msgs zero pos fin => omega
  | unflushed _ _ zero pos fin => omega
  | reclosed lm₂ p ps pos zero once fin top =>
    have hop : e.op = .pWrite := by cases hop : e.op <;> simp_all [LockOp.side, LockOp.isP]
    rcases hw hop with hw | hw
    · omega
    · rw [hf, hw] at once
      cases once
  | unclosed _ pos zero once fin =>
    have hop : e.op = .pWrite := by cases hop : e.op <;> simp_all [LockOp.side, LockOp.isP]
    rcases hw hop with hw | hw
    · omega
    · rw [hf, hw] at once
      cases once

theorem legal_release {cfg : Config} {r : Reference} {l : LockPtr} {e : LockEvent} (hV : e.op.isP = false)
    (hleg : legalOp cfg r l e = true) : r.isHeld (l, e.op.side) = true := by
  unfold legalOp at hleg
  cases hop : e.op <;> simp_all [LockOp.isP, LockOp.side]

/-- A legal transition follows the reference and loses no access. -/
theorem Agrees.transition {cfg : Config} {lm lm' : LockManager} {r : Reference} (h : lm.Agrees r) {l : LockPtr}
    {e : LockEvent} {kernelDir : String} {ctx : Int} (hl : l < lm.objects) (hleg : legalOp cfg r l e = true)
    (ht : lm.transition l e kernelDir ctx = .ok lm') :
    lm'.Agrees (if e.op.isP then r.acquire l e ctx else r.release (l, e.op.side) ctx) ∧
      ∀ i H, lm.Backed i H → lm'.Backed i H := by
  have hfr := updateFlags_framed lm l e.flags
  have h₀ := h.updateFlags l e.flags
  have hb₀ : ∀ i H, lm.Backed i H → (lm.updateFlags l e.flags).Backed i H := by
    intro i H hb
    refine Backed.same ?_ ?_ ?_ ?_ hb
    · exact fun _ => rfl
    · rfl
    · rfl
    · exact fun x hx => ⟨(hfr.used x).mpr hx, hfr.lockId x⟩
  have hflags : ((lm.updateFlags l e.flags).heap l).flags = e.flags := by
    simp [LockManager.updateFlags, RWLock.updateFlags]
  obtain ⟨hhas, ⟨hP, lm₁, hp, rfl⟩ | ⟨hV, hrel⟩⟩ := transition_ok ht
  · have he := h₀.prepared hP hleg hflags hp
    subst he
    rw [if_pos hP]
    refine ⟨h₀.acquire hl ?_ (h₀.legal_counts hP hleg).1, fun i H hb => acquire_backed (hb₀ i H hb)⟩
    rw [hfr.cls]
    exact hhas
  · rw [if_neg (by simp [hV])]
    obtain ⟨ha, hb⟩ := h₀.released hl (legal_release hV hleg) hrel
    exact ⟨ha, fun i H hbk => hb i H (hb₀ i H hbk)⟩

/-- A legal transition does not abort. -/
theorem Agrees.transition_total {cfg : Config} {lm : LockManager} {r : Reference} (h : lm.Agrees r) {l : LockPtr}
    {e : LockEvent} (kernelDir : String) (ctx : Int) (hs : (lm.heap l).cls.has e.op.side)
    (hleg : legalOp cfg r l e = true) : ∃ lm', lm.transition l e kernelDir ctx = .ok lm' := by
  have h₀ := h.updateFlags l e.flags
  have hflags : ((lm.updateFlags l e.flags).heap l).flags = e.flags := by
    simp [LockManager.updateFlags, RWLock.updateFlags]
  have hs₀ : ((lm.updateFlags l e.flags).heap l).cls.has e.op.side := by
    rw [(updateFlags_framed lm l e.flags).cls]
    exact hs
  have hR : ((lm.updateFlags l e.flags).heap l).readerCount = (lm.updateFlags l e.flags).held (l, .reader) :=
    h₀.counts l .reader
  have hW : ((lm.updateFlags l e.flags).heap l).writerCount = (lm.updateFlags l e.flags).held (l, .writer) :=
    h₀.counts l .writer
  have hone := h₀.oneSide l
  have read : e.op.side = .reader → ∃ lm', lm.readTransition l e kernelDir ctx = .ok lm' := by
    intro hside
    unfold readTransition
    cases hop : e.op with
    | pRead =>
      have hz := (h₀.legal_counts (by simp [hop, LockOp.isP]) hleg).1
      simp only [hop, LockOp.side, SubLock.other] at hz
      have hprep : (lm.updateFlags l e.flags).prepareRead l e.ts ctx = .ok (lm.updateFlags l e.flags) := by
        unfold prepareRead
        dsimp only
        split
        · rfl
        · rw [if_neg (by omega), if_neg (by omega)]
      simp only [hprep, bind, Except.bind]
      exact ⟨_, rfl⟩
    | vRead =>
      rw [hside] at hs₀
      exact release_total h₀.wellFormed e.ts ctx hs₀
    | pWrite => simp [hop, LockOp.side] at hside
    | vWrite => simp [hop, LockOp.side] at hside
  have write : e.op.side = .writer → ∃ lm', lm.writeTransition l e kernelDir ctx = .ok lm' := by
    intro hside
    unfold writeTransition
    cases hop : e.op with
    | pWrite =>
      obtain ⟨hz, hw⟩ := h₀.legal_counts (by simp [hop, LockOp.isP]) hleg
      simp only [hop, LockOp.side, SubLock.other] at hz
      have hprep : (lm.updateFlags l e.flags).prepareWrite l e.ts ctx = .ok (lm.updateFlags l e.flags) := by
        unfold prepareWrite
        dsimp only
        rw [if_neg (by omega)]
        split
        · rcases hw hop with hw | hw
          · omega
          · rw [hflags, if_pos hw]
        · rw [if_neg (by omega)]
      simp only [hprep, bind, Except.bind]
      exact ⟨_, rfl⟩
    | vWrite =>
      rw [hside] at hs₀
      exact release_total h₀.wellFormed e.ts ctx hs₀
    | pRead => simp [hop, LockOp.side] at hside
    | vRead => simp [hop, LockOp.side] at hside
  unfold LockManager.transition
  cases hc : (lm.heap l).cls with
  | rwLock =>
    cases hop : e.op with
    | pRead => exact read (by simp [hop, LockOp.side])
    | vRead => exact read (by simp [hop, LockOp.side])
    | pWrite => exact write (by simp [hop, LockOp.side])
    | vWrite => exact write (by simp [hop, LockOp.side])
  | rLock =>
    rw [hc] at hs
    exact read (by simpa [LockClass.has] using hs)
  | wLock =>
    rw [hc] at hs
    exact write (by simpa [LockClass.has] using hs)

end LockManager

end LockDoc.Convert
