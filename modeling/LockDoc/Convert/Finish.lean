import LockDoc.Lib.Run
import LockDoc.Convert.LockManager

/-!
# What `finishTXN` does

One description of everything `finishTXN` can do to the lock manager. The stack of
the context splits at the topmost transaction of the sub lock; what is above comes
back under fresh ids, what is below stays, and the closed transactions that saw an
access are recorded together with the locks below them. All later results about
stacks, ids and output rows use this description and not the loops.
-/
namespace LockDoc.Convert

open FallibleRun (bind_ok)

/-- The sub locks of a stack, top first. -/
def labels (s : List TXN) : List (LockPtr × SubLock) := s.map TXN.label

@[simp] theorem labels_nil : labels [] = [] := rfl
@[simp] theorem labels_cons (t : TXN) (s : List TXN) : labels (t :: s) = t.label :: labels s := rfl
@[simp] theorem labels_append (s u : List TXN) : labels (s ++ u) = labels s ++ labels u :=
  List.map_append

theorem mem_labels {s : List TXN} {x : LockPtr × SubLock} : x ∈ labels s ↔ ∃ t ∈ s, t.label = x :=
  List.mem_map

/-- Transactions reopened with consecutive fresh ids, the topmost one first. -/
def restart (ts : Nat) (ctx : Int) : Nat → List TXN → List TXN
  | _, [] => []
  | n, t :: s => { t with id := n, startTs := ts, memAccessCounter := 0, startCtx := ctx } :: restart ts ctx (n + 1) s

@[simp] theorem labels_restart (ts : Nat) (ctx : Int) (n : Nat) (s : List TXN) :
    labels (restart ts ctx n s) = labels s := by
  induction s generalizing n with
  | nil => rfl
  | cons t s ih => simp only [restart, labels_cons, ih]; rfl

@[simp] theorem length_restart (ts : Nat) (ctx : Int) (n : Nat) (s : List TXN) :
    (restart ts ctx n s).length = s.length := by
  induction s generalizing n with
  | nil => rfl
  | cons t s ih => simp [restart, ih]

/-- A reopened transaction has an id from the fresh range and no access. -/
theorem mem_restart {ts : Nat} {ctx : Int} {n : Nat} {s : List TXN} {t : TXN}
    (h : t ∈ restart ts ctx n s) : n ≤ t.id ∧ t.id < n + s.length ∧ t.memAccessCounter = 0 := by
  induction s generalizing n with
  | nil => simp [restart] at h
  | cons u s ih =>
    rcases List.mem_cons.mp h with h | h
    · subst h
      simp
    · have := ih h
      simp only [List.length_cons]
      omega

theorem startTs_restart {ts : Nat} {ctx : Int} {n : Nat} {s : List TXN} {t : TXN} (h : t ∈ restart ts ctx n s) :
    t.startTs = ts := by
  induction s generalizing n with
  | nil => simp [restart] at h
  | cons u s ih =>
    rcases List.mem_cons.mp h with rfl | h
    · rfl
    · exact ih h

theorem nodup_restart (ts : Nat) (ctx : Int) (n : Nat) (s : List TXN) :
    ((restart ts ctx n s).map TXN.id).Nodup := by
  induction s generalizing n with
  | nil => simp [restart]
  | cons u s ih =>
    simp only [restart, List.map_cons, List.nodup_cons, List.mem_map, not_exists, not_and]
    refine ⟨?_, ih (n + 1)⟩
    intro t ht he
    have := (mem_restart ht).1
    omega

/-- What the `removeReader` sweep keeps. -/
def sweep (l : LockPtr) (s : List TXN) : List TXN := s.filter (fun t => t.label ≠ (l, .reader))

/-- The rows of `txns.csv` for closed transactions: empty ones are skipped. -/
def txnRows (ts : Nat) (ctxOld : Int) (closed : List TXN) : List TxnRow :=
  (closed.filter (fun t => 0 < t.memAccessCounter)).map (fun t => ⟨t.id, t.startTs, t.startCtx, ts, ctxOld⟩)

/-- The rows `noteHeld` appends for a stack given bottom first. -/
def heldRows (heap : LockPtr → RWLock) (tid : Nat) : List TXN → List Nat → List LockHeldRow
  | [], _ => []
  | t :: rest, seen =>
    if (heap t.lock).isHeld then
      match (heap t.lock).lastNPos with
      | [] => heldRows heap tid rest seen
      | pos :: _ =>
        let lockID := (heap t.lock).idOf t.subLock
        if lockID ∈ seen then heldRows heap tid rest seen
        else ⟨tid, lockID, pos.start, pos.lastFile, pos.lastLine⟩ :: heldRows heap tid rest (lockID :: seen)
    else heldRows heap tid rest seen

/-- The rows of `locks_held.csv` for transactions closed from the top of a stack. -/
def closedHeldRows (heap : LockPtr → RWLock) : List TXN → List TXN → List LockHeldRow
  | [], _ => []
  | t :: closed, below =>
    (if 0 < t.memAccessCounter then heldRows heap t.id (t :: (closed ++ below)).reverse [] else []) ++
      closedHeldRows heap closed below

/-- An entry that `noteHeld` can report: its lock is held, knows a position, and
uses the entry's side. -/
structure Reportable (heap : LockPtr → RWLock) (t : TXN) : Prop where
  held : (heap t.lock).isHeld
  pos : (heap t.lock).lastNPos ≠ []
  side : (heap t.lock).cls.has t.subLock

namespace LockManager

theorem printError_ok {lm lm' : LockManager} {l : LockPtr} {side : SubLock} {m : Msg}
    (h : lm.printError l side m = .ok lm') : lm' = lm.log m := by
  obtain ⟨_, _, h⟩ := bind_ok.mp h
  exact (Except.ok.inj h).symm

theorem printError_of_has {lm : LockManager} {l : LockPtr} {side : SubLock} {m : Msg}
    (h : (lm.heap l).cls.has side) : lm.printError l side m = .ok (lm.log m) := by
  simp [printError, RWLock.getID, h, bind, Except.bind]

theorem printError_error {lm : LockManager} {l : LockPtr} {side : SubLock} {m : Msg} {a : Abort}
    (h : lm.printError l side m = .error a) : a = .invalidArgument := by
  by_cases hs : (lm.heap l).cls.has side
  · rw [printError_of_has hs] at h
    cases h
  · simp only [printError, RWLock.getID, hs, bind, Except.bind] at h
    simpa using h.symm

/-- Whatever `noteHeld` does, it appends `heldRows` and messages. -/
theorem noteHeld_ok {tid : Nat} {s : List TXN} {seen : List Nat} {lm lm' : LockManager}
    (h : noteHeld tid s seen lm = .ok lm') :
    ∃ msgs, lm' = { lm with
      locksHeldOFile := lm.locksHeldOFile ++ heldRows lm.heap tid s seen, stderr := msgs } := by
  induction s generalizing seen lm with
  | nil => cases h; exact ⟨lm'.stderr, by simp [heldRows]⟩
  | cons t rest ih =>
    simp only [noteHeld] at h
    by_cases hh : (lm.heap t.lock).isHeld
    · cases hp : (lm.heap t.lock).lastNPos with
      | nil =>
        simp only [hh, if_true, hp] at h
        obtain ⟨lm₁, h₁, h⟩ := bind_ok.mp h
        cases printError_ok h₁
        obtain ⟨msgs, rfl⟩ := ih h
        exact ⟨msgs, by simp [heldRows, hh, hp, log]⟩
      | cons pos ps =>
        simp only [hh, if_true, hp] at h
        obtain ⟨i, hi, h⟩ := bind_ok.mp h
        have hid : i = (lm.heap t.lock).idOf t.subLock := by
          simp only [RWLock.getID] at hi
          split at hi
          · exact (Except.ok.inj hi).symm
          · cases hi
        subst hid
        by_cases hs : (lm.heap t.lock).idOf t.subLock ∈ seen
        · simp only [hs, if_true] at h
          obtain ⟨msgs, rfl⟩ := ih h
          exact ⟨msgs, by simp [heldRows, hh, hp, hs]⟩
        · simp only [hs, if_false] at h
          obtain ⟨msgs, rfl⟩ := ih h
          exact ⟨msgs, by simp [heldRows, hh, hp, hs]⟩
    · simp only [hh] at h
      obtain ⟨lm₁, h₁, h⟩ := bind_ok.mp h
      cases printError_ok h₁
      obtain ⟨msgs, rfl⟩ := ih h
      exact ⟨msgs, by simp [heldRows, hh, log]⟩

/-- On reportable entries `noteHeld` neither throws nor complains. -/
theorem noteHeld_reportable {tid : Nat} {s : List TXN} {seen : List Nat} {lm : LockManager}
    (hs : ∀ t ∈ s, Reportable lm.heap t) :
    noteHeld tid s seen lm =
      .ok { lm with locksHeldOFile := lm.locksHeldOFile ++ heldRows lm.heap tid s seen } := by
  induction s generalizing seen lm with
  | nil => simp [noteHeld, heldRows]
  | cons t rest ih =>
    have ht := hs t (by simp)
    have hrest : ∀ t ∈ rest, Reportable lm.heap t := fun u hu => hs u (by simp [hu])
    obtain ⟨pos, ps, hp⟩ := List.exists_cons_of_ne_nil ht.pos
    simp only [noteHeld, heldRows, ht.held, if_true, hp, RWLock.getID, ht.side]
    by_cases hm : (lm.heap t.lock).idOf t.subLock ∈ seen
    · simpa [hm, bind, Except.bind] using ih hrest
    · have h := @ih ((lm.heap t.lock).idOf t.subLock :: seen) { lm with
        locksHeldOFile := lm.locksHeldOFile ++
          [⟨tid, (lm.heap t.lock).idOf t.subLock, pos.start, pos.lastFile, pos.lastLine⟩] } hrest
      simpa [hm, bind, Except.bind] using h

theorem sweepUp_ok {l : LockPtr} {s s' : List TXN} {lm lm' : LockManager}
    (h : sweepUp l s lm = .ok (s', lm')) : s' = sweep l s ∧ ∃ msgs, lm' = { lm with stderr := msgs } := by
  induction s generalizing s' lm with
  | nil => cases h; exact ⟨rfl, _, rfl⟩
  | cons t up ih =>
    simp only [sweepUp] at h
    by_cases hl : t.lock = l
    · cases hside : t.subLock with
      | reader =>
        simp only [hl, ne_eq, not_true_eq_false, if_false, hside] at h
        obtain ⟨rfl, hm⟩ := ih h
        exact ⟨by simp [sweep, TXN.label, hl, hside], hm⟩
      | writer =>
        simp only [hl, ne_eq, not_true_eq_false, if_false, hside] at h
        cases up with
        | nil => cases h
        | cons u us =>
          obtain ⟨lm₁, h₁, h⟩ := bind_ok.mp h
          cases printError_ok h₁
          obtain ⟨⟨r, lm₂⟩, h₂, h⟩ := bind_ok.mp h
          cases h
          obtain ⟨rfl, msgs, rfl⟩ := ih h₂
          exact ⟨by simp [sweep, TXN.label, hside], msgs, by simp [log]⟩
    · simp only [ne_eq, hl, not_false_eq_true, if_true] at h
      obtain ⟨⟨r, lm₂⟩, h₂, h⟩ := bind_ok.mp h
      cases h
      obtain ⟨rfl, hm⟩ := ih h₂
      exact ⟨by simp [sweep, TXN.label, hl], hm⟩

theorem sweepReaders_ok {l : LockPtr} {s s' : List TXN} {lm lm' : LockManager}
    (h : lm.sweepReaders l s = .ok (s', lm')) :
    s' = sweep l s ∧ ∃ msgs, lm' = { lm with stderr := msgs } := by
  obtain ⟨⟨r, lm₁⟩, h₁, h⟩ := bind_ok.mp h
  cases h
  obtain ⟨rfl, hm⟩ := sweepUp_ok h₁
  exact ⟨by simp [sweep, List.filter_reverse], hm⟩

/-- A recorded transaction leaves one row in `txns.csv` and its rows in `locks_held.csv`. -/
theorem recordTXN_ok {lm lm' : LockManager} {txn : TXN} {below : List TXN} {ts : Nat} {ctxOld : Int}
    (h : lm.recordTXN txn below ts ctxOld = .ok lm') :
    ∃ msgs, lm' = { lm with
      txnsOFile := lm.txnsOFile ++ [⟨txn.id, txn.startTs, txn.startCtx, ts, ctxOld⟩]
      locksHeldOFile := lm.locksHeldOFile ++ heldRows lm.heap txn.id (txn :: below).reverse []
      stderr := msgs } :=
  noteHeld_ok h

/-- The manager after a stack was taken apart: `popped` was closed, of which `above`
comes back, `below` was left standing and `kept` is what remains of it. -/
def closed (lm : LockManager) (ts : Nat) (ctx ctxOld : Int) (above popped below kept : List TXN)
    (msgs : List Msg) : LockManager :=
  { lm with
    activeTXNs := lm.activeTXNs.insert ctx (restart ts ctx lm.nextTXNID above ++ kept)
    nextTXNID := lm.nextTXNID + above.length
    txnsOFile := lm.txnsOFile ++ txnRows ts ctxOld popped
    locksHeldOFile := lm.locksHeldOFile ++ closedHeldRows lm.heap popped below
    stderr := msgs }

/-- The closing of one transaction, whether or not it is recorded. -/
theorem close_ok {lm lm' : LockManager} {txn : TXN} {below : List TXN} {ts : Nat} {ctxOld : Int}
    (h : (if 0 < txn.memAccessCounter then lm.recordTXN txn below ts ctxOld else .ok lm) = .ok lm') :
    ∃ msgs, lm' = { lm with
      txnsOFile := lm.txnsOFile ++ txnRows ts ctxOld [txn]
      locksHeldOFile := lm.locksHeldOFile ++ closedHeldRows lm.heap [txn] below
      stderr := msgs } := by
  by_cases hc : 0 < txn.memAccessCounter
  · simp only [hc, if_true] at h
    obtain ⟨msgs, rfl⟩ := recordTXN_ok h
    exact ⟨msgs, by simp [txnRows, closedHeldRows, hc]⟩
  · simp only [hc, if_false] at h
    cases h
    exact ⟨lm.stderr, by simp [txnRows, closedHeldRows, hc]⟩

theorem txnRows_cons (ts : Nat) (ctxOld : Int) (t : TXN) (s : List TXN) :
    txnRows ts ctxOld (t :: s) = txnRows ts ctxOld [t] ++ txnRows ts ctxOld s := by
  simp only [txnRows, ← List.map_append, ← List.filter_append, List.singleton_append]

/-- The rows of the topmost transaction see everything below it. -/
theorem closedHeldRows_cons (heap : LockPtr → RWLock) (t : TXN) (s below : List TXN) :
    closedHeldRows heap (t :: s) below = closedHeldRows heap [t] (s ++ below) ++ closedHeldRows heap s below := by
  simp [closedHeldRows]

/-- The loop finds the topmost transaction of the sub lock, or restarts them all. -/
theorem finishLoop_ok {l : LockPtr} {ts : Nat} {side : SubLock} {rr found : Bool} {ctx ctxOld : Int}
    {s s' : List TXN} {lm lm' : LockManager}
    (h : finishLoop l ts side rr ctx ctxOld s lm = .ok (s', found, lm')) :
    ∃ above popped below kept msgs,
      (∀ u ∈ above, u.label ≠ (l, side)) ∧
      (if found then ∃ t, popped = above ++ [t] ∧ t.label = (l, side) ∧
          kept = if rr then sweep l below else below
        else popped = above ∧ below = [] ∧ kept = []) ∧
      s = popped ++ below ∧ s' = restart ts ctx lm.nextTXNID above ++ kept ∧
      lm' = { lm with
        nextTXNID := lm.nextTXNID + above.length
        txnsOFile := lm.txnsOFile ++ txnRows ts ctxOld popped
        locksHeldOFile := lm.locksHeldOFile ++ closedHeldRows lm.heap popped below
        stderr := msgs } := by
  induction s generalizing s' lm with
  | nil =>
    cases h
    exact ⟨[], [], [], [], lm'.stderr, by simp, by simp, rfl, rfl, by simp [txnRows, closedHeldRows]⟩
  | cons txn rest ih =>
    simp only [finishLoop] at h
    obtain ⟨lm₁, h₁, h⟩ := bind_ok.mp h
    obtain ⟨msgs₁, rfl⟩ := close_ok h₁
    by_cases hm : txn.lock = l ∧ txn.subLock = side
    · have hlabel : txn.label = (l, side) := by simp [TXN.label, hm]
      simp only [hm, and_self, if_true] at h
      obtain ⟨⟨kept, lm₂⟩, h₂, h⟩ := bind_ok.mp h
      cases h
      cases rr with
      | false =>
        cases h₂
        exact ⟨[], [txn], rest, rest, msgs₁, by simp, ⟨txn, by simp [hlabel]⟩, rfl, rfl, by simp⟩
      | true =>
        obtain ⟨rfl, msgs₂, rfl⟩ := sweepReaders_ok h₂
        exact ⟨[], [txn], rest, sweep l rest, msgs₂, by simp, ⟨txn, by simp [hlabel]⟩, rfl, rfl, by simp⟩
    · have hlabel : txn.label ≠ (l, side) := by simpa [TXN.label] using hm
      simp only [hm, if_false] at h
      obtain ⟨lm₂, h₂, h⟩ := bind_ok.mp h
      have h₂' : ∃ msgs, lm₂ = { lm with
          txnsOFile := lm.txnsOFile ++ txnRows ts ctxOld [txn]
          locksHeldOFile := lm.locksHeldOFile ++ closedHeldRows lm.heap [txn] rest
          stderr := msgs } := by
        split at h₂
        · cases printError_ok h₂
          exact ⟨_, rfl⟩
        · cases h₂
          exact ⟨_, rfl⟩
      obtain ⟨msgs₂, rfl⟩ := h₂'
      obtain ⟨⟨s₃, found₃, lm₃⟩, h₃, h⟩ := bind_ok.mp h
      simp only [Except.ok.injEq, Prod.mk.injEq] at h
      obtain ⟨rfl, rfl, rfl⟩ := h
      obtain ⟨above, popped, below, kept, msgs, hab, hf, rfl, rfl, rfl⟩ := ih h₃
      refine ⟨txn :: above, txn :: popped, below, kept, msgs, ?_, ?_, rfl, ?_, ?_⟩
      · intro u hu
        rcases List.mem_cons.mp hu with rfl | hu
        · exact hlabel
        · exact hab u hu
      · cases found₃ with
        | false =>
          obtain ⟨rfl, rfl, rfl⟩ := hf
          exact ⟨rfl, rfl, rfl⟩
        | true =>
          obtain ⟨t, rfl, ht, hk⟩ := hf
          exact ⟨t, rfl, ht, hk⟩
      · simp [restart, restartTXN]
      · rw [txnRows_cons ts ctxOld txn popped, closedHeldRows_cons lm.heap txn popped below]
        simp [Nat.add_assoc, Nat.add_comm 1]

/-- Everything `finishTXN` can do. -/
inductive Finished (lm : LockManager) (l : LockPtr) (ts : Nat) (side : SubLock) (rr : Bool)
    (ctx ctxOld : Int) : Bool → LockManager → Prop
  | found (above : List TXN) (t : TXN) (below : List TXN) (msgs : List Msg)
      (split : lm.stack ctx = above ++ t :: below) (above_ne : ∀ u ∈ above, u.label ≠ (l, side))
      (label : t.label = (l, side)) :
      Finished lm l ts side rr ctx ctxOld true
        (lm.closed ts ctx ctxOld above (above ++ [t]) below (if rr then sweep l below else below) msgs)
  | missing (msgs : List Msg) (none : ∀ u ∈ lm.stack ctx, u.label ≠ (l, side)) :
      Finished lm l ts side rr ctx ctxOld false
        (lm.closed ts ctx ctxOld (lm.stack ctx) (lm.stack ctx) [] [] msgs)

theorem finishTXN_finished {lm lm' : LockManager} {l : LockPtr} {ts : Nat} {side : SubLock}
    {rr found : Bool} {ctx ctxOld : Int}
    (h : lm.finishTXN l ts side rr ctx ctxOld = .ok (found, lm')) :
    Finished lm l ts side rr ctx ctxOld found lm' := by
  obtain ⟨⟨s, found₁, lm₁⟩, h₁, h⟩ := bind_ok.mp h
  obtain ⟨above, popped, below, kept, msgs, hab, hf, hs, rfl, rfl⟩ := finishLoop_ok h₁
  obtain ⟨lm₂, h₂, h⟩ := bind_ok.mp h
  cases h
  cases found with
  | true =>
    obtain ⟨t, rfl, ht, rfl⟩ := hf
    cases h₂
    exact Finished.found above t below msgs (by simpa using hs) hab ht
  | false =>
    obtain ⟨rfl, rfl, rfl⟩ := hf
    cases printError_ok h₂
    rw [List.append_nil] at hs
    subst hs
    exact Finished.missing _ hab

end LockManager

end LockDoc.Convert
