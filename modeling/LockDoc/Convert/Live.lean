import LockDoc.Convert.Ledger

/-!
# Open transactions and freed locks

A lock on a transaction stack can be found again under its address, until the memory it
resides in is freed. `deleteLockByArea` unregisters the lock, says so if it is held, and
leaves the stacks alone, so from then on the entry names a lock that no operation reaches.
-/
namespace LockDoc.Convert

open FallibleRun

namespace LockManager

/-- Every lock on a stack is found under its address. -/
def NamesLive (lm : LockManager) : Prop :=
  ∀ c, ∀ t ∈ lm.stack c, lm.findLock (lm.heap t.lock).lockAddress = some t.lock

/-- The same by labels, with what is needed to open new entries. -/
structure Live (lm : LockManager) : Prop where
  wellFormed : lm.WellFormed
  address : ∀ (a : Nat) (l : LockPtr), lm.locks[a]? = some l → (lm.heap l).lockAddress = a
  entry : ∀ c, ∀ x ∈ labels (lm.stack c), lm.locks[(lm.heap x.1).lockAddress]? = some x.1

theorem Live.namesLive {lm : LockManager} (h : lm.Live) : lm.NamesLive :=
  fun c t ht => h.entry c t.label (mem_labels.mpr ⟨t, ht, rfl⟩)

theorem namesLive_iff {lm : LockManager} :
    lm.NamesLive ↔ ∀ c, ∀ x ∈ labels (lm.stack c), lm.locks[(lm.heap x.1).lockAddress]? = some x.1 := by
  constructor
  · intro h c x hx
    obtain ⟨t, ht, rfl⟩ := mem_labels.mp hx
    exact h c t ht
  · exact fun h c t ht => h c t.label (mem_labels.mpr ⟨t, ht, rfl⟩)

theorem init_live : LockManager.init.Live where
  wellFormed := init_wellFormed
  address a l hl := by simp [init] at hl
  entry c x hx := by simp [init, stack, OrdMap.getD_eq] at hx

/-- Nothing the property depends on has changed. -/
theorem Live.congr {lm lm' : LockManager} (h : lm.Live) (hw : lm'.WellFormed) (hl : lm'.locks = lm.locks)
    (hh : lm'.heap = lm.heap) (hs : ∀ c, labels (lm'.stack c) = labels (lm.stack c)) : lm'.Live where
  wellFormed := hw
  address a l hal := by
    rw [hl] at hal
    rw [hh]
    exact h.address a l hal
  entry c x hx := by
    rw [hs] at hx
    rw [hl, hh]
    exact h.entry c x hx

/-- A new lock is registered under its address. -/
theorem Live.allocated {lm : LockManager} (h : lm.Live) {cls : LockClass} {address allocID : Nat}
    {lockType name : String} {flags : Nat} (hfree : lm.locks[address]? = none) :
    (lm.allocated cls address allocID lockType name flags).Live := by
  have hnew : ((lm.allocated cls address allocID lockType name flags).heap lm.objects).lockAddress = address := by
    rw [heap_allocated_new]
    cases cls <;> rfl
  refine ⟨h.wellFormed.allocated cls address allocID lockType name flags, ?_, ?_⟩
  · intro a l hl
    simp only [LockManager.allocated, OrdMap.getElem?_insert_eq] at hl
    split at hl
    · rename_i ha
      cases hl
      rw [hnew, ha]
    · rw [heap_allocated_old _ _ _ _ _ _ _ (h.wellFormed.registered a l hl)]
      exact h.address a l hl
  · intro c x hx
    have hx' := h.entry c x hx
    rw [heap_allocated_old _ _ _ _ _ _ _ (h.wellFormed.entry c x hx).1]
    simp only [LockManager.allocated, OrdMap.getElem?_insert_eq]
    rw [if_neg, hx']
    intro ha
    rw [ha, hfree] at hx'
    cases hx'

/-- A transition of a registered lock. -/
theorem Live.transition {lm lm' : LockManager} (h : lm.Live) {l : LockPtr} {e : LockEvent} {kernelDir : String}
    {ctx : Int} {a : Nat} (hl : lm.locks[a]? = some l) (ht : lm.transition l e kernelDir ctx = .ok lm') : lm'.Live := by
  have hf := transition_framed ht
  have haddr : ∀ k, (lm'.heap k).lockAddress = (lm.heap k).lockAddress := by
    intro k
    by_cases hk : k = l
    · rw [hk, hf.address]
    · rw [hf.heap k hk]
  refine ⟨h.wellFormed.transition (h.wellFormed.registered a l hl) ht, ?_, ?_⟩
  · intro b k hk
    rw [hf.locks] at hk
    rw [haddr]
    exact h.address b k hk
  · intro c x hx
    rw [hf.locks, haddr]
    rcases transition_labels ht hx with hx | rfl
    · exact h.entry c x hx
    · rw [h.address a l hl]
      exact hl

/-- No open entry names a lock that resides in the area. -/
def UnheldIn (lm : LockManager) (base size : Nat) : Prop :=
  ∀ c, ∀ t ∈ lm.stack c, inArea base size (lm.heap t.lock).lockAddress = false

theorem unheldIn_iff {lm : LockManager} {base size : Nat} : lm.UnheldIn base size ↔
    ∀ c, ∀ x ∈ labels (lm.stack c), inArea base size (lm.heap x.1).lockAddress = false := by
  constructor
  · intro h c x hx
    obtain ⟨t, ht, rfl⟩ := mem_labels.mp hx
    exact h c t ht
  · exact fun h c t ht => h c t.label (mem_labels.mpr ⟨t, ht, rfl⟩)

/-- Unregistering an area is harmless exactly if no entry names a lock in it. -/
theorem Live.namesLive_delete_iff {lm : LockManager} (h : lm.Live) (base size : Nat) :
    (lm.deleteLockByArea base size).NamesLive ↔ lm.UnheldIn base size := by
  refine forall_congr' fun c => forall_congr' fun t => forall_congr' fun ht => ?_
  have hl := h.namesLive c t ht
  simp only [findLock, LockManager.deleteLockByArea] at hl ⊢
  rw [Std.ExtTreeMap.getElem?_filter', hl, Option.filter_eq_some_iff]
  simp

theorem Live.deleteLockByArea {lm : LockManager} (h : lm.Live) {base size : Nat}
    (hn : (lm.deleteLockByArea base size).NamesLive) : (lm.deleteLockByArea base size).Live := by
  have hsub : ∀ (a : Nat) (l : LockPtr), (lm.deleteLockByArea base size).locks[a]? = some l → lm.locks[a]? = some l := by
    intro a l hl
    simp only [LockManager.deleteLockByArea, Std.ExtTreeMap.getElem?_filter'] at hl
    exact (Option.filter_eq_some_iff.mp hl).1
  refine ⟨?_, fun a l hl => h.address a l (hsub a l hl), namesLive_iff.mp hn⟩
  exact (kept_deleteLockByArea lm base size).wellFormed h.wellFormed
    (fun a l hl => h.wellFormed.registered a l (hsub a l hl))

end LockManager

/-- A `free` of an active allocation finds no open entry of a lock that resides in it. -/
def FreesUnheld (σ : State) (e : Event) : Prop :=
  ∀ ts base size a, e = .free ts base size → σ.activeAllocs[base]? = some a →
    σ.lockManager.UnheldIn base (toU64 a.size)

/-- Attributing accesses opens and closes nothing. -/
theorem LockManager.Live.attributed {cfg : Config} {σ : State} {e : Event} (h : σ.lockManager.Live) :
    (attributed cfg σ e).lockManager.Live := by
  obtain ⟨hk, he⟩ := kept_attributed cfg σ e
  refine h.congr (hk.wellFormed h.wellFormed ?_) (by rw [he]) (by rw [he]) hk.labels
  rw [he]
  exact h.wellFormed.registered

theorem step_free {cfg : Config} {σ σ' : State} {ts base size : Nat}
    (h : step cfg σ (.free ts base size) = .ok σ') :
    handleFree (attributed cfg σ (.free ts base size)) ts base size = σ' := by
  have : step cfg σ (.free ts base size) = .ok (handleFree (attributed cfg σ (.free ts base size)) ts base size) := by
    simp only [step, Event.isSeqlock, Bool.and_false, Bool.false_eq_true, if_false]
    rfl
  rw [this] at h
  exact Except.ok.inj h

/-- Events other than a `free` keep the property. -/
theorem LockManager.Live.handled {cfg : Config} {σ σ' : State} {e : Event} (hL : σ.lockManager.Live)
    (h : Handled cfg σ e σ') (hfree : ∀ ts base size, e ≠ .free ts base size) : σ'.lockManager.Live := by
  cases h with
  | quiet _ _ hq _ _ =>
    obtain ⟨ms, -, hlm⟩ := hq.lm
    have hk := LockManager.kept_stderr σ.lockManager (σ.lockManager.stderr ++ ms)
    rw [hlm]
    exact hL.congr (hk.wellFormed hL.wellFormed hL.wellFormed.registered) rfl rfl fun _ => rfl
  | freed ts base size a rows ha => exact absurd rfl (hfree ts base size)
  | buffered ev a trace next traces ha hin => exact hL
  | acted ev l σ₁ lm hres hr ht =>
    cases hr with
    | known l hl => exact hL.transition hl ht
    | fresh cls allocID name hl isP hc rows =>
      have hreg : (σ.lockManager.allocated cls ev.address allocID ev.lockType name ev.flags).locks[ev.address]? =
          some σ.lockManager.objects := by
        simp [LockManager.allocated]
      exact (hL.allocated hl).transition hreg ht

/-- One iteration keeps the property exactly if it does not free a lock that is held. -/
theorem step_namesLive_iff {cfg : Config} {σ σ' : State} {e : Event} (hL : σ.lockManager.Live)
    (h : step cfg σ e = .ok σ') :
    (σ'.lockManager.NamesLive ↔ FreesUnheld σ e) ∧ (FreesUnheld σ e → σ'.lockManager.Live) := by
  have keep : (∀ ts base size, e ≠ .free ts base size) → σ'.lockManager.Live →
      (σ'.lockManager.NamesLive ↔ FreesUnheld σ e) ∧ (FreesUnheld σ e → σ'.lockManager.Live) := by
    intro hfree hL'
    have hu : FreesUnheld σ e := fun ts base size _ he => absurd he (hfree ts base size)
    exact ⟨⟨fun _ => hu, fun _ => hL'.namesLive⟩, fun _ => hL'⟩
  rcases step_ok h with ⟨hs, rfl⟩ | ⟨-, hh⟩
  · refine keep ?_ hL
    rintro ts base size rfl
    simp [Config.skips, Event.isSeqlock] at hs
  · have hL₁ := @LockManager.Live.attributed cfg σ e hL
    cases e with
    | free ts base size =>
      have hallocs : (attributed cfg σ (.free ts base size)).activeAllocs = σ.activeAllocs := by
        rw [attributed_frame]
      have hlabels := (kept_attributed cfg σ (.free ts base size)).1.labels
      have hheap : (attributed cfg σ (.free ts base size)).lockManager.heap = σ.lockManager.heap := by
        rw [(kept_attributed cfg σ (.free ts base size)).2]
      have hcond : FreesUnheld σ (.free ts base size) ↔ ∀ a, σ.activeAllocs[base]? = some a →
          (attributed cfg σ (.free ts base size)).lockManager.UnheldIn base (toU64 a.size) := by
        simp only [FreesUnheld, LockManager.unheldIn_iff, hlabels, hheap]
        constructor
        · exact fun hu a ha => hu ts base size a rfl ha
        · rintro hu ts' base' size' a he ha
          cases he
          exact hu a ha
      rw [hcond, ← step_free h]
      unfold handleFree
      rw [hallocs]
      cases ha : σ.activeAllocs[base]? with
      | none =>
        have hlog : ((attributed cfg σ (.free ts base size)).log .noActiveAllocationForFree).lockManager.Live :=
          @LockManager.Live.handled cfg _ _ (.other ts 'f') hL₁ (.quiet _ _ ⟨rfl, rfl, rfl,
            LockManager.chatter_log _ _ (by simp [Msg.internal])⟩ (by simp) (by simp)) (by simp)
        simp only [reduceCtorEq, false_implies, implies_true, iff_true, forall_const]
        exact ⟨hlog.namesLive, hlog⟩
      | some a =>
        simp only [Option.some.injEq, forall_eq']
        exact ⟨hL₁.namesLive_delete_iff base (toU64 a.size),
          fun hu => hL₁.deleteLockByArea ((hL₁.namesLive_delete_iff base (toU64 a.size)).mpr hu)⟩
    | alloc ts base size typeStr => exact keep (by simp) (hL₁.handled hh (by simp))
    | lockOp ev => exact keep (by simp) (hL₁.handled hh (by simp))
    | access ev => exact keep (by simp) (hL₁.handled hh (by simp))
    | other ts c => exact keep (by simp) (hL₁.handled hh (by simp))

/-- Every open entry names a registered lock throughout exactly the runs that free no held lock. -/
theorem namesLive_iff_frees_unheld (cfg : Config) (trace : List Event) :
    Throughout (step cfg) (fun σ => σ.lockManager.NamesLive) trace (.init cfg) ↔
      Along (step cfg) (Completed (step cfg) FreesUnheld) trace (.init cfg) :=
  throughout_iff_along (I := fun σ => σ.lockManager.Live) (E := fun _ => True)
    (fun _ h => h.namesLive) (fun _ _ _ hI _ hst => step_namesLive_iff hI hst) (fun _ _ => trivial)
    LockManager.init_live

/-- A lock inside an allocation is taken, and the allocation is freed. -/
def freeWhileHeld : List Event :=
  [inodeAlloc, .lockOp ⟨.pWrite, 2, 0x1010, "/linux/fs/inode.c", 2, "i_lock", "rwlock_t", 0, 1⟩, .free 3 0x1000 64]

/-- The entry of the lock stays on the stack, but the lock is no longer found. -/
theorem freeWhileHeld_dangles : ¬Throughout (step (.trackAll true)) (fun σ => σ.lockManager.NamesLive)
    freeWhileHeld (.init (.trackAll true)) := by
  intro h
  have hrun : ∃ σ, run (step (.trackAll true)) freeWhileHeld (.init (.trackAll true)) = .ok σ ∧
      ((σ.lockManager.stack 1).map TXN.lock) = [0] ∧ σ.lockManager.findLock (σ.lockManager.heap 0).lockAddress = none :=
    ⟨_, rfl, by decide +kernel, by decide +kernel⟩
  obtain ⟨σ, hσ, hs, hnone⟩ := hrun
  obtain ⟨t, ht, hl⟩ : ∃ t ∈ σ.lockManager.stack 1, t.lock = 0 := by
    have : (0 : LockPtr) ∈ (σ.lockManager.stack 1).map TXN.lock := by simp [hs]
    exact List.mem_map.mp this
  have := h freeWhileHeld [] (by simp) σ hσ 1 t ht
  rw [hl, hnone] at this
  cases this

end LockDoc.Convert
