import LockDoc.Convert.WellFormed

/-!
# When a transition aborts

The reasons for which the functions of the lock manager can throw or run into
undefined behaviour. On a well-formed manager a plain `finishTXN` never does.
-/
namespace LockDoc.Convert

open FallibleRun (bind_ok bind_error)

namespace LockManager

/-- `getID` is the only thing that can throw while rows are noted. -/
theorem noteHeld_total {tid : Nat} {s : List TXN} {seen : List Nat} {lm : LockManager}
    (hs : ∀ t ∈ s, (lm.heap t.lock).cls.has t.subLock) : ∃ lm', noteHeld tid s seen lm = .ok lm' := by
  induction s generalizing seen lm with
  | nil => exact ⟨lm, rfl⟩
  | cons t rest ih =>
    have ht := hs t (by simp)
    have hrest : ∀ u ∈ rest, (lm.heap u.lock).cls.has u.subLock := fun u hu => hs u (by simp [hu])
    simp only [noteHeld]
    split
    · split
      · rw [printError_of_has ht]
        exact ih hrest
      · simp only [RWLock.getID, ht, if_true, bind, Except.bind]
        split
        · exact ih hrest
        · exact ih hrest
    · rw [printError_of_has ht]
      exact ih hrest

/-- The entry right below the topmost one of a sub lock. -/
def nextBelow (x : LockPtr × SubLock) : List TXN → Option TXN
  | [] => none
  | t :: below => if t.label = x then below.head? else nextBelow x below

/-- The sweep behind the topmost entry of a sub lock would end on a writer entry of the
lock, and report the entry above it. -/
def SweepsOff (l : LockPtr) (side : SubLock) (s : List TXN) : Prop :=
  (nextBelow (l, side) s).map TXN.label = some (l, .writer)

instance (l : LockPtr) (side : SubLock) (s : List TXN) : Decidable (SweepsOff l side s) :=
  inferInstanceAs (Decidable (_ = _))

/-- The sweep gets through unless the last entry it visits is a writer entry of the lock. -/
theorem sweepUp_total {l : LockPtr} {s : List TXN} {lm : LockManager}
    (hs : ∀ t ∈ s, (lm.heap t.lock).cls.has t.subLock)
    (hlast : s.getLast?.map TXN.label ≠ some (l, .writer)) : ∃ r, sweepUp l s lm = .ok r := by
  induction s generalizing lm with
  | nil => exact ⟨_, rfl⟩
  | cons t up ih =>
    have hup : up ≠ [] → up.getLast?.map TXN.label ≠ some (l, .writer) := by
      intro hne
      rwa [List.getLast?_cons_of_ne_nil hne] at hlast
    have rest : ∀ lm₁ : LockManager, lm₁.heap = lm.heap → ∃ r, sweepUp l up lm₁ = .ok r := by
      intro lm₁ hheap
      by_cases hne : up = []
      · rw [hne]
        exact ⟨_, rfl⟩
      · exact ih (by rw [hheap]; exact fun u hu => hs u (List.mem_cons_of_mem _ hu)) (hup hne)
    obtain ⟨r, hr⟩ := rest lm rfl
    simp only [sweepUp]
    split
    · exact ⟨_, bind_ok.mpr ⟨r, hr, rfl⟩⟩
    · rename_i hl
      split
      · exact ⟨r, hr⟩
      · rename_i hside
        split
        · exact absurd (by simp [TXN.label, not_not.mp hl, hside]) hlast
        · rename_i u us
          have hu := printError_of_has (m := .multipleWriters) (hs u (by simp))
          obtain ⟨r', hr'⟩ := rest (lm.log .multipleWriters) rfl
          exact ⟨_, bind_ok.mpr ⟨_, hu, bind_ok.mpr ⟨r', hr', rfl⟩⟩⟩

theorem sweepUp_endDeref {l : LockPtr} {s : List TXN} {lm : LockManager}
    (hs : ∀ t ∈ s, (lm.heap t.lock).cls.has t.subLock)
    (hlast : s.getLast?.map TXN.label = some (l, .writer)) : sweepUp l s lm = .error .endDeref := by
  induction s generalizing lm with
  | nil => simp at hlast
  | cons t up ih =>
    by_cases hne : up = []
    · subst hne
      obtain ⟨rfl, hside⟩ : t.lock = l ∧ t.subLock = .writer := by simpa [TXN.label] using hlast
      simp [sweepUp, hside]
    · rw [List.getLast?_cons_of_ne_nil hne] at hlast
      have rest : ∀ lm₁ : LockManager, lm₁.heap = lm.heap → sweepUp l up lm₁ = .error .endDeref := by
        intro lm₁ hheap
        exact ih (by rw [hheap]; exact fun u hu => hs u (List.mem_cons_of_mem _ hu)) hlast
      simp only [sweepUp]
      split
      · rw [rest lm rfl]
        rfl
      · split
        · exact rest lm rfl
        · split
          · exact absurd rfl hne
          · rename_i u us
            rw [printError_of_has (hs u (by simp))]
            change (sweepUp l (u :: us) (lm.log .multipleWriters) >>= _) = _
            rw [rest (lm.log .multipleWriters) rfl]
            rfl

/-- Closing one transaction of a stack whose entries fit their locks. -/
theorem close_total {lm : LockManager} {t : TXN} {below : List TXN} (ts : Nat) (ctxOld : Int)
    (hs : ∀ u ∈ t :: below, (lm.heap u.lock).cls.has u.subLock) :
    ∃ lm₁, (if 0 < t.memAccessCounter then lm.recordTXN t below ts ctxOld else .ok lm) = .ok lm₁ ∧
      lm₁.heap = lm.heap := by
  have hclose : ∃ lm₁, (if 0 < t.memAccessCounter then lm.recordTXN t below ts ctxOld else .ok lm) = .ok lm₁ := by
    split
    · exact noteHeld_total (by simpa [or_comm] using hs)
    · exact ⟨lm, rfl⟩
  obtain ⟨lm₁, h₁⟩ := hclose
  refine ⟨lm₁, h₁, ?_⟩
  obtain ⟨msgs, rfl⟩ := close_ok h₁
  rfl

/-- The complaint about an entry of the other side. -/
theorem mismatch_total {lm : LockManager} {t : TXN} (l : LockPtr) (ht : (lm.heap t.lock).cls.has t.subLock) :
    ∃ lm₁, (if t.lock = l then lm.printError t.lock t.subLock .subLockMismatch else .ok lm) = .ok lm₁ ∧
      lm₁.heap = lm.heap := by
  split
  · exact ⟨_, printError_of_has ht, rfl⟩
  · exact ⟨_, rfl, rfl⟩

theorem finishLoop_total {l : LockPtr} {ts : Nat} {side : SubLock} {rr : Bool} {ctx ctxOld : Int} {s : List TXN}
    {lm : LockManager} (hs : ∀ t ∈ s, (lm.heap t.lock).cls.has t.subLock)
    (hrr : rr = true → ¬SweepsOff l side s) : ∃ r, finishLoop l ts side rr ctx ctxOld s lm = .ok r := by
  induction s generalizing lm with
  | nil => exact ⟨_, rfl⟩
  | cons t below ih =>
    obtain ⟨lm₁, h₁, hheap⟩ := close_total ts ctxOld hs
    have hbelow : ∀ u ∈ below, (lm.heap u.lock).cls.has u.subLock := fun u hu => hs u (List.mem_cons_of_mem _ hu)
    simp only [finishLoop, h₁, bind, Except.bind]
    split
    · rename_i hm
      have hlabel : t.label = (l, side) := by simp [TXN.label, hm]
      cases rr with
      | false => exact ⟨_, rfl⟩
      | true =>
        obtain ⟨r, hr⟩ := @sweepUp_total l below.reverse lm₁
          (by rw [hheap]; exact fun u hu => hbelow u (List.mem_reverse.mp hu))
          (by simpa [SweepsOff, nextBelow, hlabel] using hrr rfl)
        simp only [if_true, sweepReaders, hr, bind, Except.bind]
        exact ⟨_, rfl⟩
    · rename_i hm
      have hlabel : t.label ≠ (l, side) := by simpa [TXN.label] using hm
      obtain ⟨lm₂, h₂, hheap₂⟩ := mismatch_total l (by rw [hheap]; exact hs t List.mem_cons_self)
      obtain ⟨r, hr⟩ := @ih { lm₂ with nextTXNID := lm₂.nextTXNID + 1 } (by rw [hheap₂, hheap]; exact hbelow)
        (by simpa [SweepsOff, nextBelow, hlabel] using hrr)
      rw [h₂]
      dsimp only
      rw [hr]
      exact ⟨_, rfl⟩

theorem finishLoop_endDeref {l : LockPtr} {ts : Nat} {side : SubLock} {ctx ctxOld : Int} {s : List TXN}
    {lm : LockManager} (hs : ∀ t ∈ s, (lm.heap t.lock).cls.has t.subLock) (hoff : SweepsOff l side s) :
    finishLoop l ts side true ctx ctxOld s lm = .error .endDeref := by
  induction s generalizing lm with
  | nil => simp [SweepsOff, nextBelow] at hoff
  | cons t below ih =>
    obtain ⟨lm₁, h₁, hheap⟩ := close_total ts ctxOld hs
    have hbelow : ∀ u ∈ below, (lm.heap u.lock).cls.has u.subLock := fun u hu => hs u (List.mem_cons_of_mem _ hu)
    simp only [finishLoop, h₁, bind, Except.bind]
    split
    · rename_i hm
      have hlabel : t.label = (l, side) := by simp [TXN.label, hm]
      have hsweep := @sweepUp_endDeref l below.reverse lm₁
        (by rw [hheap]; exact fun u hu => hbelow u (List.mem_reverse.mp hu))
        (by simpa [SweepsOff, nextBelow, hlabel] using hoff)
      simp [sweepReaders, hsweep, bind, Except.bind]
    · rename_i hm
      have hlabel : t.label ≠ (l, side) := by simpa [TXN.label] using hm
      obtain ⟨lm₂, h₂, hheap₂⟩ := mismatch_total l (by rw [hheap]; exact hs t List.mem_cons_self)
      have hrest := @ih { lm₂ with nextTXNID := lm₂.nextTXNID + 1 } (by rw [hheap₂, hheap]; exact hbelow)
        (by simpa [SweepsOff, nextBelow, hlabel] using hoff)
      rw [h₂]
      dsimp only
      rw [hrest]

/-- On a stack whose entries fit their locks, `finishTXN` completes unless its sweep would
end on a writer entry. -/
theorem finishTXN_completes {lm : LockManager} {l : LockPtr} (ts : Nat) {side : SubLock} {rr : Bool} {ctx : Int}
    (ctxOld : Int) (hs : ∀ t ∈ lm.stack ctx, (lm.heap t.lock).cls.has t.subLock) (hl : (lm.heap l).cls.has side)
    (hrr : rr = true → ¬SweepsOff l side (lm.stack ctx)) :
    ∃ found lm', lm.finishTXN l ts side rr ctx ctxOld = .ok (found, lm') := by
  obtain ⟨⟨s, found, lm₁⟩, h₁⟩ : ∃ r, finishLoop l ts side rr ctx ctxOld (lm.stack ctx) lm = .ok r :=
    finishLoop_total hs hrr
  have hheap : lm₁.heap = lm.heap := by
    obtain ⟨above, popped, below, kept, msgs, -, -, -, -, rfl⟩ := finishLoop_ok h₁
    rfl
  simp only [finishTXN, h₁, bind, Except.bind]
  cases found with
  | true => exact ⟨_, _, rfl⟩
  | false =>
    simp only [Bool.false_eq_true, if_false]
    rw [printError_of_has (by rwa [hheap])]
    exact ⟨_, _, rfl⟩

theorem finishTXN_total {lm : LockManager} {l : LockPtr} (ts : Nat) {side : SubLock} {ctx : Int} (ctxOld : Int)
    (hs : ∀ t ∈ lm.stack ctx, (lm.heap t.lock).cls.has t.subLock) (hl : (lm.heap l).cls.has side) :
    ∃ found lm', lm.finishTXN l ts side false ctx ctxOld = .ok (found, lm') :=
  finishTXN_completes ts ctxOld hs hl (by simp)

theorem finishTXN_endDeref {lm : LockManager} {l : LockPtr} (ts : Nat) {side : SubLock} {ctx : Int} (ctxOld : Int)
    (hs : ∀ t ∈ lm.stack ctx, (lm.heap t.lock).cls.has t.subLock) (hoff : SweepsOff l side (lm.stack ctx)) :
    lm.finishTXN l ts side true ctx ctxOld = .error .endDeref := by
  simp only [finishTXN, finishLoop_endDeref hs hoff, bind, Except.bind]

/-- What `finishTXN` can abort with. -/
theorem noteHeld_error {tid : Nat} {s : List TXN} {seen : List Nat} {lm : LockManager} {a : Abort}
    (h : noteHeld tid s seen lm = .error a) : a = .invalidArgument := by
  induction s generalizing seen lm with
  | nil => cases h
  | cons t rest ih =>
    simp only [noteHeld] at h
    split at h
    · split at h
      · rcases bind_error.mp h with h | ⟨lm₁, -, h⟩
        · exact printError_error h
        · exact ih h
      · rcases bind_error.mp h with h | ⟨i, -, h⟩
        · unfold RWLock.getID at h
          split at h
          · cases h
          · cases h
            rfl
        · split at h
          · exact ih h
          · exact ih h
    · rcases bind_error.mp h with h | ⟨lm₁, -, h⟩
      · exact printError_error h
      · exact ih h

theorem sweepUp_error {l : LockPtr} {s : List TXN} {lm : LockManager} {a : Abort}
    (h : sweepUp l s lm = .error a) : a = .invalidArgument ∨ a = .endDeref := by
  induction s generalizing lm with
  | nil => cases h
  | cons t up ih =>
    simp only [sweepUp] at h
    split at h
    · rcases bind_error.mp h with h | ⟨r, -, h⟩
      · exact ih h
      · cases h
    · split at h
      · exact ih h
      · split at h
        · cases h
          exact .inr rfl
        · rcases bind_error.mp h with h | ⟨lm₁, -, h⟩
          · exact .inl (printError_error h)
          · rcases bind_error.mp h with h | ⟨r, -, h⟩
            · exact ih h
            · cases h

theorem finishLoop_error {l : LockPtr} {ts : Nat} {side : SubLock} {rr : Bool} {ctx ctxOld : Int}
    {s : List TXN} {lm : LockManager} {a : Abort}
    (h : finishLoop l ts side rr ctx ctxOld s lm = .error a) : a = .invalidArgument ∨ a = .endDeref := by
  induction s generalizing lm with
  | nil => cases h
  | cons t below ih =>
    simp only [finishLoop] at h
    rcases bind_error.mp h with h | ⟨lm₁, -, h⟩
    · split at h
      · exact .inl (noteHeld_error h)
      · cases h
    · split at h
      · rcases bind_error.mp h with h | ⟨r, -, h⟩
        · split at h
          · rcases bind_error.mp h with h | ⟨r, -, h⟩
            · exact sweepUp_error h
            · cases h
          · cases h
        · cases h
      · rcases bind_error.mp h with h | ⟨lm₂, -, h⟩
        · split at h
          · exact .inl (printError_error h)
          · cases h
        · rcases bind_error.mp h with h | ⟨r, -, h⟩
          · exact ih h
          · cases h

theorem finishTXN_error {lm : LockManager} {l : LockPtr} {ts : Nat} {side : SubLock} {rr : Bool}
    {ctx ctxOld : Int} {a : Abort} (h : lm.finishTXN l ts side rr ctx ctxOld = .error a) :
    a = .invalidArgument ∨ a = .endDeref := by
  rcases bind_error.mp h with h | ⟨r, -, h⟩
  · exact finishLoop_error h
  · rcases bind_error.mp h with h | ⟨lm₁, -, h⟩
    · split at h
      · cases h
      · exact .inl (printError_error h)
    · cases h

theorem flushSide_error {lm : LockManager} {l : LockPtr} {side : SubLock} {ts : Nat} {ctx : Int} {a : Abort}
    (h : lm.flushSide l side ts ctx = .error a) : a = .invalidArgument ∨ a = .endDeref := by
  rcases bind_error.mp h with h | ⟨lm₁, -, h⟩
  · exact .inl (printError_error h)
  · rcases bind_error.mp h with h | ⟨⟨found, lm₂⟩, -, h⟩
    · exact finishTXN_error h
    · cases found with
      | true =>
        simp only [if_true] at h
        rcases bind_error.mp h with h | ⟨lm₃, -, h⟩
        · split at h
          · exact .inl (printError_error h)
          · cases h
        · cases h
      | false => exact .inl (printError_error h)

/-- Popping fails on an empty stack of positions only. -/
theorem popPos_error {lk : RWLock} {a : Abort} (h : lk.popPos = .error a) : a = .popEmpty ∧ lk.lastNPos = [] := by
  unfold RWLock.popPos at h
  split at h
  · rename_i hn
    cases h
    exact ⟨rfl, hn⟩
  · cases h

theorem closeMissed_error {lm : LockManager} {l : LockPtr} {ts : Nat} {ctx : Int} {a : Abort}
    (h : lm.closeMissed l ts ctx = .error a) : (a = .invalidArgument ∨ a = .endDeref) ∨
      (a = .popEmpty ∧ (lm.heap l).lastNPos = [] ∧ (l, .writer) ∈ labels (lm.stack ctx)) := by
  rcases bind_error.mp h with h | ⟨lm₁, h₁, h⟩
  · exact .inl (.inl (printError_error h))
  · cases printError_ok h₁
    rcases bind_error.mp h with h | ⟨⟨found, lm₂⟩, h₂, h⟩
    · exact .inl (finishTXN_error h)
    · have fin := finished_log (finishTXN_finished h₂)
      cases found with
      | true =>
        simp only [if_true] at h
        rcases bind_error.mp h with h | ⟨lk, -, h⟩
        · obtain ⟨rfl, hn⟩ := popPos_error h
          rw [fin.heap_eq] at hn
          exact .inr ⟨rfl, hn, fin.mem_of_found⟩
        · cases h
      | false => cases h

theorem release_error {lm : LockManager} {l : LockPtr} {side : SubLock} {ts : Nat} {ctx : Int} {a : Abort}
    (h : lm.release l side ts ctx = .error a) : a = .invalidArgument ∨ a = .endDeref := by
  rcases bind_error.mp h with h | ⟨lm₁, -, h⟩
  · split at h
    · rename_i hne
      rcases bind_error.mp h with h | ⟨lm₁, h₁, h⟩
      · split at h
        · exact .inl (printError_error h)
        · cases h
      · have hheap : lm₁.heap = lm.heap := by
          split at h₁
          · cases printError_ok h₁
            rfl
          · cases h₁
            rfl
        rcases bind_error.mp h with h | ⟨⟨found, lm₂⟩, h₂, h⟩
        · exact finishTXN_error h
        · have fin := finishTXN_finished h₂
          cases found with
          | true =>
            simp only [if_true] at h
            rcases bind_error.mp h with h | ⟨lk, -, h⟩
            · have hn := (popPos_error h).2
              rw [fin.heap_eq, hheap] at hn
              exact absurd hn hne
            · cases h
          | false => cases h
    · exact .inl (printError_error h)
  · split at h
    · exact .inl (printError_error h)
    · cases h

/-- Everything a transition can abort with. -/
inductive Failed (lm : LockManager) (l : LockPtr) (e : LockEvent) (ctx : Int) : Abort → Prop
  | invalidArgument : Failed lm l e ctx .invalidArgument
  | endDeref : Failed lm l e ctx .endDeref
  | invalidOp : Failed lm l e ctx .invalidOp
  | invalidState (writers : 0 < (lm.heap l).writerCount) (readers : 0 < (lm.heap l).readerCount) :
      Failed lm l e ctx .invalidState
  | popEmpty (none : (lm.heap l).lastNPos = []) (found : (l, .writer) ∈ labels (lm.stack ctx)) :
      Failed lm l e ctx .popEmpty

theorem failed_of_or {lm : LockManager} {l : LockPtr} {e : LockEvent} {ctx : Int} {a : Abort}
    (h : a = .invalidArgument ∨ a = .endDeref) : Failed lm l e ctx a := by
  rcases h with rfl | rfl
  · exact .invalidArgument
  · exact .endDeref

theorem transition_error {lm : LockManager} {l : LockPtr} {e : LockEvent} {kernelDir : String} {ctx : Int}
    {a : Abort} (h : lm.transition l e kernelDir ctx = .error a) : Failed lm l e ctx a := by
  have hu := kept_updateFlags lm l e.flags
  have hW : ((lm.updateFlags l e.flags).heap l).writerCount = (lm.heap l).writerCount := hu.count l .writer
  have hR : ((lm.updateFlags l e.flags).heap l).readerCount = (lm.heap l).readerCount := hu.count l .reader
  have write : lm.writeTransition l e kernelDir ctx = .error a → Failed lm l e ctx a := by
    intro h
    unfold writeTransition at h
    cases hop : e.op <;> simp only [hop] at h
    · cases h
      exact .invalidOp
    · rcases bind_error.mp h with h | ⟨lm₁, -, h⟩
      · unfold prepareWrite at h
        simp only [hW, hR] at h
        split at h
        · exact failed_of_or (flushSide_error h)
        · split at h
          · split at h
            · cases h
            · rcases closeMissed_error h with h | ⟨rfl, hn, hf⟩
              · exact failed_of_or h
              · exact .popEmpty (hu.pos l ▸ hn) hf
          · split at h
            · rename_i hc
              cases h
              exact .invalidState hc.1 hc.2
            · cases h
      · cases h
    · cases h
      exact .invalidOp
    · exact failed_of_or (release_error h)
  have read : lm.readTransition l e kernelDir ctx = .error a → Failed lm l e ctx a := by
    intro h
    unfold readTransition at h
    cases hop : e.op <;> simp only [hop] at h
    · rcases bind_error.mp h with h | ⟨lm₁, -, h⟩
      · unfold prepareRead at h
        simp only [hW, hR] at h
        split at h
        · cases h
        · split at h
          · exact failed_of_or (flushSide_error h)
          · split at h
            · rename_i hc
              cases h
              exact .invalidState hc.1 hc.2
            · cases h
      · cases h
    · cases h
      exact .invalidOp
    · exact failed_of_or (release_error h)
    · cases h
      exact .invalidOp
  unfold transition at h
  split at h
  · split at h
    · exact write h
    · exact write h
    · exact read h
    · exact read h
  · exact read h
  · exact write h

theorem WellFormed.entries_fit {lm : LockManager} (hw : lm.WellFormed) (c : Int) :
    ∀ t ∈ lm.stack c, (lm.heap t.lock).cls.has t.subLock :=
  fun t ht => (hw.entry c t.label (mem_labels.mpr ⟨t, ht, rfl⟩)).2

/-- Only the sweep dereferences an exhausted iterator. -/
theorem sweepsOff_of_endDeref {lm : LockManager} {l : LockPtr} {ts : Nat} {side : SubLock} {rr : Bool} {ctx ctxOld : Int}
    (hs : ∀ t ∈ lm.stack ctx, (lm.heap t.lock).cls.has t.subLock)
    (h : lm.finishTXN l ts side rr ctx ctxOld = .error .endDeref) :
    rr = true ∧ SweepsOff l side (lm.stack ctx) := by
  by_contra hno
  obtain ⟨r, hr⟩ : ∃ r, finishLoop l ts side rr ctx ctxOld (lm.stack ctx) lm = .ok r :=
    finishLoop_total hs fun hrr hoff => hno ⟨hrr, hoff⟩
  rcases bind_error.mp h with h | ⟨r', -, h⟩
  · rw [hr] at h
    cases h
  · rcases bind_error.mp h with h | ⟨lm₁, -, h⟩
    · split at h
      · cases h
      · cases printError_error h
    · cases h

theorem flushSide_endDeref {lm : LockManager} {l : LockPtr} {side : SubLock} {ts : Nat} {ctx : Int}
    (hw : lm.WellFormed) (h : lm.flushSide l side ts ctx = .error .endDeref) :
    SweepsOff l side.other (lm.stack ctx) := by
  rcases bind_error.mp h with h | ⟨lm₁, h₁, h⟩
  · cases printError_error h
  · cases printError_ok h₁
    rcases bind_error.mp h with h | ⟨⟨found, lm₂⟩, -, h⟩
    · exact (sweepsOff_of_endDeref (by exact hw.entries_fit ctx) h).2
    · cases found with
      | true =>
        rcases bind_error.mp h with h | ⟨lm₃, -, h⟩
        · split at h
          · cases printError_error h
          · cases h
        · cases h
      | false => cases printError_error h

theorem closeMissed_not_endDeref {lm : LockManager} {l : LockPtr} {ts : Nat} {ctx : Int} (hw : lm.WellFormed) :
    lm.closeMissed l ts ctx ≠ .error .endDeref := by
  intro h
  rcases bind_error.mp h with h | ⟨lm₁, h₁, h⟩
  · cases printError_error h
  · cases printError_ok h₁
    rcases bind_error.mp h with h | ⟨⟨found, lm₂⟩, -, h⟩
    · cases (sweepsOff_of_endDeref (by exact hw.entries_fit ctx) h).1
    · cases found with
      | true =>
        rcases bind_error.mp h with h | ⟨lk, -, h⟩
        · cases (popPos_error h).1
        · cases h
      | false => cases h

theorem release_not_endDeref {lm : LockManager} {l : LockPtr} {side : SubLock} {ts : Nat} {ctx : Int}
    (hw : lm.WellFormed) : lm.release l side ts ctx ≠ .error .endDeref := by
  intro h
  rcases bind_error.mp h with h | ⟨lm₁, -, h⟩
  · split at h
    · rcases bind_error.mp h with h | ⟨lm₂, h₂, h⟩
      · split at h
        · cases printError_error h
        · cases h
      · have hfit : ∀ c, ∀ t ∈ lm₂.stack c, (lm₂.heap t.lock).cls.has t.subLock := by
          split at h₂
          · cases printError_ok h₂
            exact hw.entries_fit
          · cases h₂
            exact hw.entries_fit
        rcases bind_error.mp h with h | ⟨⟨found, lm₃⟩, -, h⟩
        · cases (sweepsOff_of_endDeref (hfit _) h).1
        · cases found with
          | true =>
            rcases bind_error.mp h with h | ⟨lk, -, h⟩
            · cases (popPos_error h).1
            · cases h
          | false => cases h
    · cases printError_error h
  · split at h
    · cases printError_error h
    · cases h

/-- A transition that dereferences an exhausted iterator is a `P()` that flushes the other side. -/
theorem transition_endDeref {lm : LockManager} {l : LockPtr} {e : LockEvent} {kernelDir : String} {ctx : Int}
    (hw : lm.WellFormed) (h : lm.transition l e kernelDir ctx = .error .endDeref) :
    e.op.isP = true ∧ (lm.heap l).count e.op.side = 0 ∧ 0 < (lm.heap l).count e.op.side.other ∧
      SweepsOff l e.op.side.other (lm.stack ctx) := by
  have hu := kept_updateFlags lm l e.flags
  have hw' : (lm.updateFlags l e.flags).WellFormed := hu.wellFormed hw (by exact hw.registered)
  have hW : ((lm.updateFlags l e.flags).heap l).writerCount = (lm.heap l).writerCount := hu.count l .writer
  have hR : ((lm.updateFlags l e.flags).heap l).readerCount = (lm.heap l).readerCount := hu.count l .reader
  have write : lm.writeTransition l e kernelDir ctx = .error .endDeref →
      e.op = .pWrite ∧ (lm.heap l).writerCount = 0 ∧ 0 < (lm.heap l).readerCount ∧
        SweepsOff l .reader (lm.stack ctx) := by
    intro h
    unfold writeTransition at h
    cases hop : e.op <;> simp only [hop] at h
    · cases h
    · rcases bind_error.mp h with h | ⟨lm₁, -, h⟩
      · unfold prepareWrite at h
        simp only [hW, hR] at h
        split at h
        · rename_i hc
          exact ⟨rfl, hc.1, hc.2, flushSide_endDeref hw' h⟩
        · split at h
          · split at h
            · cases h
            · exact absurd h (closeMissed_not_endDeref hw')
          · split at h <;> cases h
      · cases h
    · cases h
    · exact absurd h (release_not_endDeref hw')
  have read : lm.readTransition l e kernelDir ctx = .error .endDeref →
      e.op = .pRead ∧ (lm.heap l).readerCount = 0 ∧ 0 < (lm.heap l).writerCount ∧
        SweepsOff l .writer (lm.stack ctx) := by
    intro h
    unfold readTransition at h
    cases hop : e.op <;> simp only [hop] at h
    · rcases bind_error.mp h with h | ⟨lm₁, -, h⟩
      · unfold prepareRead at h
        simp only [hW, hR] at h
        split at h
        · cases h
        · split at h
          · rename_i hc
            exact ⟨rfl, hc.2, hc.1, flushSide_endDeref hw' h⟩
          · split at h <;> cases h
      · cases h
    · cases h
    · exact absurd h (release_not_endDeref hw')
    · cases h
  have done : lm.writeTransition l e kernelDir ctx = .error .endDeref ∨
      lm.readTransition l e kernelDir ctx = .error .endDeref := by
    unfold transition at h
    split at h
    · split at h
      · exact .inl h
      · exact .inl h
      · exact .inr h
      · exact .inr h
    · exact .inr h
    · exact .inl h
  rcases done with h | h
  · obtain ⟨hop, hz, hp, hoff⟩ := write h
    simpa [hop, LockOp.side, LockOp.isP, SubLock.other, RWLock.count] using ⟨hz, hp, hoff⟩
  · obtain ⟨hop, hz, hp, hoff⟩ := read h
    simpa [hop, LockOp.side, LockOp.isP, SubLock.other, RWLock.count] using ⟨hz, hp, hoff⟩

end LockManager

/-- An aborted iteration aborted in a transition, or before it for a reason of its own. -/
theorem step_aborted {cfg : Config} {σ : State} {e : Event} {a : Abort} (hw : σ.lockManager.WellFormed)
    (h : step cfg σ e = .error a) :
    a ∈ [Abort.dummySubclass, .accessOutsideAllocation, .unknownLockType, .lockMapInsert] ∨
      ∃ ev l lm, e = .lockOp ev ∧ cfg.skips e = false ∧ σ.lockManager.Kept lm ∧ lm.WellFormed ∧
        (σ.lockManager.locks[ev.address]? = some l ∨
          (σ.lockManager.objects = l ∧ σ.lockManager.locks[ev.address]? = none ∧ ev.op.isP = true)) ∧
        lm.transition l ev cfg.kernelBaseDir (cfg.ctxOf ev.ctx) = .error a := by
  unfold step at h
  split at h
  · cases h
  · rename_i hskip
    obtain ⟨hk, he⟩ := kept_attributed cfg σ e
    unfold attributed at hk he
    generalize writeMemAccesses cfg e.action e.address { σ with ts := e.ts } = σ₁ at h hk he
    have hw₁ : σ₁.lockManager.WellFormed := by
      refine hk.wellFormed hw ?_
      rw [he]
      exact hw.registered
    cases e with
    | alloc ts base size typeStr =>
      simp only [dispatch, handleAlloc] at h
      split at h
      · cases h
      · rcases bind_error.mp h with h | ⟨⟨i, σ₂⟩, -, h⟩
        · unfold findSubclass at h
          simp only at h
          split at h
          · cases h
          · split at h
            · cases h
            · split at h
              · cases h
                exact .inl (by simp)
              · cases h
        · split at h <;> cases h
    | free ts base size => cases h
    | lockOp ev =>
      rcases bind_error.mp h with h | ⟨⟨lock, σ₂⟩, h₁, h⟩
      · left
        unfold resolveLock at h
        split at h
        · cases h
        · split at h
          · cases h
          · split at h
            · cases h
            · rcases bind_error.mp h with h | ⟨r, -, h⟩
              · unfold LockManager.allocLock at h
                split at h
                · cases h
                  simp
                · dsimp only at h
                  split at h
                  · cases h
                    simp
                  · cases h
              · cases h
      · cases lock with
        | none => cases h
        | some l =>
          rcases bind_error.mp h with h | ⟨lm, -, h⟩
          · have hskip' : cfg.skips (.lockOp ev) = false := by simpa [Config.skips] using hskip
            have hlocks : σ₁.lockManager.locks = σ.lockManager.locks := by rw [he]
            have hobj : σ₁.lockManager.objects = σ.lockManager.objects := by rw [he]
            cases resolveLock_some h₁ with
            | known l hl => exact .inr ⟨ev, l, _, rfl, hskip', hk, hw₁, .inl (hlocks ▸ hl), h⟩
            | fresh cls allocID name hl isP hc rows =>
              exact .inr ⟨ev, _, _, rfl, hskip', hk.trans (LockManager.kept_allocated hw₁ cls _ _ _ _ _),
                hw₁.allocated _ _ _ _ _ _, .inr ⟨hobj.symm, hlocks ▸ hl, isP⟩, h⟩
          · cases h
    | access ev =>
      simp only [dispatch, handleAccess] at h
      split at h
      · cases h
      · split at h
        · cases h
          exact .inl (by simp)
        · cases h
    | other ts c => cases h

theorem step_error {cfg : Config} {σ : State} {e : Event} {a : Abort} (hw : σ.lockManager.WellFormed)
    (h : step cfg σ e = .error a) :
    a ∈ [Abort.dummySubclass, .accessOutsideAllocation, .unknownLockType, .lockMapInsert] ∨
      ∃ ev l lm, e = .lockOp ev ∧ σ.lockManager.Kept lm ∧ lm.Failed l ev (cfg.ctxOf ev.ctx) a := by
  rcases step_aborted hw h with h | ⟨ev, l, lm, he, -, hk, -, -, ht⟩
  · exact .inl h
  · exact .inr ⟨ev, l, lm, he, hk, LockManager.transition_error ht⟩

end LockDoc.Convert
