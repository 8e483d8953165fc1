import LockDoc.Convert.Keys
import LockDoc.Convert.Embedded

/-!
# What the rows of `locks.csv` say

A row is written when a lock object is created, and the object never moves: in every state the
row still has the address, the side and the allocation of the sub lock that its id belongs to.
-/
namespace LockDoc.Convert

open FallibleRun

namespace LockManager

/-- The row of a sub lock. -/
structure RowOf (lm : LockManager) (x : LockPtr × SubLock) (row : LockRow) : Prop where
  used : lm.Used x
  id : row.id = lm.lockId x
  address : row.address = (lm.heap x.1).lockAddress
  side : row.subLock = x.2
  embeddedIn : row.embeddedIn = if (lm.heap x.1).allocationId = 0 then none else some (lm.heap x.1).allocationId

variable {lm lm' : LockManager} {x : LockPtr × SubLock} {row : LockRow}

theorem RowOf.congr (h : lm.RowOf x row) (hh : lm'.heap = lm.heap) (ho : lm'.objects = lm.objects) : lm'.RowOf x row where
  used := h.used.congr hh ho
  id := by
    unfold lockId
    rw [hh]
    exact h.id
  address := by rw [hh]; exact h.address
  side := h.side
  embeddedIn := by rw [hh]; exact h.embeddedIn

theorem RowOf.framed (h : lm.RowOf x row) {l : LockPtr} (hf : Framed l lm lm') : lm'.RowOf x row where
  used := (hf.used x).mpr h.used
  id := h.id.trans (hf.lockId x).symm
  address := h.address.trans (hf.unmoved.address x.1).symm
  side := h.side
  embeddedIn := by rw [hf.unmoved.allocationId]; exact h.embeddedIn

/-- The rows of a new lock, and of the old ones. -/
theorem RowOf.allocated (h : lm.RowOf x row) (cls : LockClass) (address allocID : Nat) (lockType name : String)
    (flags : Nat) : (lm.allocated cls address allocID lockType name flags).RowOf x row := by
  have hold := heap_allocated_old lm cls address allocID lockType name flags h.used.allocated
  refine ⟨⟨Nat.lt_succ_of_lt h.used.allocated, ?_⟩, ?_, ?_, h.side, ?_⟩
  · rw [hold]
    exact h.used.has
  · rw [lockId_allocated _ _ _ _ _ _ _ h.used.allocated]
    exact h.id
  · rw [hold]
    exact h.address
  · rw [hold]
    exact h.embeddedIn

theorem rowOf_writeLock (lm : LockManager) {l : LockPtr} (hl : l < lm.objects) (hrow : row ∈ writeLock (lm.heap l)) :
    ∃ x, lm.RowOf x row := by
  unfold writeLock at hrow
  obtain ⟨side, hside, rfl⟩ := List.mem_map.mp hrow
  exact ⟨(l, side), ⟨hl, (List.mem_filter.mp hside).2⟩, rfl, rfl, rfl, rfl⟩

end LockManager

/-- Every row belongs to a sub lock. -/
def LocksDescribed (σ : State) : Prop := ∀ row ∈ σ.locksOFile, ∃ x, σ.lockManager.RowOf x row

theorem LocksDescribed.congr {σ σ' : State} (h : LocksDescribed σ) (hl : σ'.locksOFile = σ.locksOFile)
    (hh : σ'.lockManager.heap = σ.lockManager.heap) (ho : σ'.lockManager.objects = σ.lockManager.objects) :
    LocksDescribed σ' := by
  intro row hrow
  rw [hl] at hrow
  obtain ⟨x, hx⟩ := h row hrow
  exact ⟨x, hx.congr hh ho⟩

theorem LocksDescribed.written {σ : State} (h : LocksDescribed σ) (cfg : Config) (action : Char) (address : Nat) :
    LocksDescribed (writeMemAccesses cfg action address σ) := by
  unfold writeMemAccesses
  split
  · exact h
  · apply h.congr
    · dsimp only
      rw [writeMemAccesses_frame]
    · dsimp only
      rw [(kept_writeMemAccesses cfg σ _).2]
    · dsimp only
      rw [(kept_writeMemAccesses cfg σ _).2]

/-- Other events than lock operations leave the lock objects alone. -/
theorem dispatch_heap {cfg : Config} {σ σ' : State} {e : Event} (h : dispatch cfg σ e = .ok σ')
    (hne : ∀ ev, e ≠ .lockOp ev) :
    σ'.lockManager.heap = σ.lockManager.heap ∧ σ'.lockManager.objects = σ.lockManager.objects := by
  cases dispatch_ok h with
  | quiet _ _ hq _ _ =>
    obtain ⟨ms, -, hlm⟩ := hq.lm
    rw [hlm]
    exact ⟨rfl, rfl⟩
  | freed ts base size a rows ha => exact ⟨rfl, rfl⟩
  | buffered ev a trace next traces ha hin => exact ⟨rfl, rfl⟩
  | acted ev l σ₁ lm hres hr ht => exact absurd rfl (hne ev)

theorem LocksDescribed.handlePV {cfg : Config} {σ σ' : State} {e : LockEvent} (h : LocksDescribed σ)
    (hp : handlePV cfg σ e = .ok σ') : LocksDescribed σ' := by
  obtain ⟨⟨lock, σ₁⟩, hres, hp⟩ := bind_ok.mp hp
  cases lock with
  | none =>
    cases hp
    obtain ⟨ms, -, hlm⟩ := (resolveLock_none hres).1.lm
    exact h.congr (resolveLock_unwritten hres) (by rw [hlm]) (by rw [hlm])
  | some l =>
    obtain ⟨lm, ht, hp⟩ := bind_ok.mp hp
    cases hp
    have hf := LockManager.transition_framed ht
    intro row hrow
    rcases resolveLock_written hres with ⟨-, rfl⟩ | ⟨cls, allocID, name, rfl, rfl⟩
    · obtain ⟨x, hx⟩ := h row hrow
      exact ⟨x, hx.framed hf⟩
    · rcases List.mem_append.mp hrow with hrow | hrow
      · obtain ⟨x, hx⟩ := h row hrow
        exact ⟨x, (hx.allocated cls e.address allocID e.lockType name e.flags).framed hf⟩
      · obtain ⟨x, hx⟩ := LockManager.rowOf_writeLock _ (Nat.lt_succ_self _) hrow
        exact ⟨x, hx.framed hf⟩

theorem step_locksDescribed {cfg : Config} {σ σ' : State} {e : Event} (h : LocksDescribed σ)
    (hs : step cfg σ e = .ok σ') : LocksDescribed σ' := by
  unfold step at hs
  have hts : LocksDescribed { σ with ts := e.ts } := h.congr rfl rfl rfl
  have h' := hts.written cfg e.action e.address
  split at hs
  · cases hs
    exact h
  · cases e with
    | lockOp ev => exact h'.handlePV hs
    | alloc ts base size typeStr =>
      obtain ⟨hh, ho⟩ := dispatch_heap hs (by simp)
      exact h'.congr (dispatch_locksOFile hs (by simp)) hh ho
    | free ts base size =>
      obtain ⟨hh, ho⟩ := dispatch_heap hs (by simp)
      exact h'.congr (dispatch_locksOFile hs (by simp)) hh ho
    | access ev =>
      obtain ⟨hh, ho⟩ := dispatch_heap hs (by simp)
      exact h'.congr (dispatch_locksOFile hs (by simp)) hh ho
    | other ts c =>
      obtain ⟨hh, ho⟩ := dispatch_heap hs (by simp)
      exact h'.congr (dispatch_locksOFile hs (by simp)) hh ho

/-- In a conversion every sub lock in use has exactly one row with its id, and the row is its. -/
theorem convert_lockRows {cfg : Config} {trace : List Event} {σ : State} (h : convert cfg trace = .ok σ) :
    (σ.locksOFile.map LockRow.id).Nodup ∧
      ∀ x, σ.lockManager.Used x → ∃ row ∈ σ.locksOFile, σ.lockManager.RowOf x row := by
  have hall : Along (step cfg) (fun _ _ => True) trace (.init cfg) := fun _ _ _ _ _ _ => trivial
  obtain ⟨σ₁, hrun, hfin⟩ := bind_ok.mp h
  have hk := run_invariant (fun s e t hs _ hst => step_keysKept hs hst) hall (init_keysKept cfg) hrun
  have hd : LocksDescribed σ₁ := run_invariant (I := LocksDescribed) (fun s e t hs _ hst => step_locksDescribed hs hst) hall
    (fun row hrow => absurd hrow List.not_mem_nil) hrun
  have h₁ : KeysKept { σ₁ with allocOFile := σ₁.allocOFile ++ openAllocRows σ₁ } :=
    ⟨hk.wellFormed, hk.keyed, ⟨hk.locks.nodup, hk.locks.used⟩, hk.accesses.same rfl rfl rfl⟩
  have h₂ := h₁.written cfg 'v' 0
  have hd₁ : LocksDescribed { σ₁ with allocOFile := σ₁.allocOFile ++ openAllocRows σ₁ } := hd.congr rfl rfl rfl
  have hw := hd₁.written cfg 'v' 0
  obtain ⟨lm, hc, hfin⟩ := bind_ok.mp hfin
  cases hfin
  obtain ⟨hK, hheap, hobj⟩ := h₂.keyed.closeAllTXNs hc
  refine ⟨h₂.locks.nodup, fun x hx => ?_⟩
  have hx' := hx.congr hheap.symm hobj.symm
  obtain ⟨row, hrow, hid⟩ := List.mem_map.mp ((h₂.locks.used _).mpr ⟨x, hx', rfl⟩)
  obtain ⟨y, hy⟩ := hw row hrow
  have hyx : y = x := h₂.keyed.lockIds.inj y x hy.used hx' (hy.id.symm.trans hid)
  exact ⟨row, hrow, hyx ▸ hy.congr hheap hobj⟩

end LockDoc.Convert
