import LockDoc.Convert.Attribute

/-!
# The filter for accesses of the lock operation itself

`writeMemAccesses` looks behind for a read and a write of the lock word and means to drop
them. It tests for the actions `'p'` and `'v'`, but the main loop hands over `'l'` for
every lock operation.
-/
namespace LockDoc.Convert

open FallibleRun

/-- The accesses in `accesses.csv`. -/
def State.written (σ : State) : List MemAccess := σ.accessOFile.map AccessRow.access

/-- A read followed by a write of the same size, at the same time, both at the address `x`. -/
structure OwnPair (x : Nat) (r w : MemAccess) : Prop where
  read : r.kind = .read
  write : w.kind = .write
  ts : r.ts = w.ts
  address : r.address = x ∧ w.address = x
  size : r.size = w.size

/-- A lock operation at `x` writes the pending accesses, without a pair of its own at the end. -/
structure Filtered (x : Nat) (σ σ' : State) : Prop where
  dropped : ∀ rest r w, σ.lastMemAccesses = rest ++ [r, w] → OwnPair x r w → σ'.written = σ.written ++ rest
  others : (∀ rest r w, σ.lastMemAccesses = rest ++ [r, w] → ¬OwnPair x r w) →
    σ'.written = σ.written ++ σ.lastMemAccesses

/-- At every lock operation of a run the filter does its work, and what it drops is neither
in the file nor pending at any later point. -/
def LockAccessesFiltered (cfg : Config) (trace : List Event) : Prop :=
  ∀ pre ev post, trace = pre ++ .lockOp ev :: post → cfg.skips (.lockOp ev) = false →
    ∀ σ σ', run (step cfg) pre (.init cfg) = .ok σ → step cfg σ (.lockOp ev) = .ok σ' →
      Filtered ev.address σ σ' ∧
      ∀ rest r w, σ.lastMemAccesses = rest ++ [r, w] → OwnPair ev.address r w →
        ∀ pre' post' τ, post = pre' ++ post' → run (step cfg) pre' σ' = .ok τ → r ∉ τ.accesses ∧ w ∉ τ.accesses

/-- The two most recent pending accesses do not match the lock operation. -/
def NoOwnPair (cfg : Config) (σ : State) (e : Event) : Prop :=
  ∀ ev, e = .lockOp ev → cfg.skips e = false →
    ∀ rest r w, σ.lastMemAccesses = rest ++ [r, w] → ¬OwnPair ev.address r w

theorem attributed_lockOp (cfg : Config) (σ : State) (ev : LockEvent) :
    (attributed cfg σ (.lockOp ev)).written = σ.written ++ σ.lastMemAccesses ∧
      (attributed cfg σ (.lockOp ev)).lastMemAccesses = [] := by
  have hrows := (writeMemAccesses_fold cfg { σ with ts := ev.ts } σ.lastMemAccesses).2
  have hid : AccessRow.access ∘ accessRow cfg σ.lockManager = id := rfl
  refine ⟨?_, rfl⟩
  change ((σ.lastMemAccesses.foldl (State.writeMemAccess cfg) { σ with ts := ev.ts }).accessOFile).map
    AccessRow.access = _
  rw [hrows, List.map_append, List.map_map, hid, List.map_id]
  rfl

/-- A lock operation writes all pending accesses. -/
theorem step_lockOp_written {cfg : Config} {σ σ' : State} {ev : LockEvent} (hs : cfg.skips (.lockOp ev) = false)
    (h : step cfg σ (.lockOp ev) = .ok σ') : σ'.written = σ.written ++ σ.lastMemAccesses := by
  rcases step_ok h with ⟨hskip, -⟩ | ⟨-, h⟩
  · rw [hs] at hskip
    cases hskip
  · obtain ⟨hw, -⟩ := attributed_lockOp cfg σ ev
    generalize attributed cfg σ (.lockOp ev) = σ₁ at h hw
    rw [← hw]
    cases h with
    | quiet e σ' hq idle unknown => exact congrArg (List.map AccessRow.access) hq.access
    | acted ev l σ₂ lm hres hr ht =>
      cases hr with
      | known l hl => rfl
      | fresh cls allocID name hl isP hc rows => rfl

/-- The filter never drops anything, so it works exactly where nothing is to be dropped. -/
theorem filtered_iff_noOwnPair (cfg : Config) (trace : List Event) :
    LockAccessesFiltered cfg trace ↔ Along (step cfg) (Completed (step cfg) (NoOwnPair cfg)) trace (.init cfg) := by
  constructor
  · rintro h pre e post he σ hσ ⟨σ', hst⟩ ev rfl hs rest r w hp hpair
    have hfile := (h pre ev post he hs σ σ' hσ hst).1.dropped rest r w hp hpair
    rw [step_lockOp_written hs hst, hp] at hfile
    have hlen := congrArg List.length hfile
    simp only [List.length_append, List.length_cons, List.length_nil] at hlen
    omega
  · intro h pre ev post he hs σ σ' hσ hst
    have hno := h pre _ post he σ hσ ⟨σ', hst⟩ ev rfl hs
    refine ⟨⟨?_, ?_⟩, ?_⟩
    · intro rest r w hp hpair
      exact absurd hpair (hno rest r w hp)
    · intro _
      exact step_lockOp_written hs hst
    · intro rest r w hp hpair
      exact absurd hpair (hno rest r w hp)

/-- A read and a write of a lock word inside an allocation, then the lock operation. -/
def lockWordAccesses : List Event :=
  [inodeAlloc, .access ⟨.read, 2, 0x1008, 4, 0x1000, 0xc0de, "", 0⟩,
    .access ⟨.write, 2, 0x1008, 4, 0x1000, 0xc0de, "", 0⟩,
    .lockOp ⟨.pWrite, 3, 0x1008, "/linux/fs/inode.c", 3, "i_lock", "raw_spinlock_t", 0, 0⟩]

/-- Both accesses end up in `accesses.csv`. -/
theorem lockWordAccesses_not_filtered : ¬LockAccessesFiltered (.trackAll false) lockWordAccesses := by
  intro h
  have hpre : ∃ σ, run (step (.trackAll false)) (lockWordAccesses.take 3) (.init (.trackAll false)) = .ok σ ∧
      σ.lastMemAccesses = [] ++ [⟨1, 2, 2, .read, 4, 0x1008, 1, 0⟩, ⟨2, 2, 2, .write, 4, 0x1008, 1, 0⟩] ∧
      σ.written = [] ∧ ∃ σ', step (.trackAll false) σ
        (.lockOp ⟨.pWrite, 3, 0x1008, "/linux/fs/inode.c", 3, "i_lock", "raw_spinlock_t", 0, 0⟩) = .ok σ' ∧
        σ'.written.length = 2 :=
    ⟨_, rfl, by decide +kernel, rfl, _, rfl, by decide +kernel⟩
  obtain ⟨σ, hσ, hp, hw, σ', hst, hlen⟩ := hpre
  have hfile := (h (lockWordAccesses.take 3) _ [] rfl rfl σ σ' hσ hst).1.dropped _ _ _ hp
    ⟨rfl, rfl, rfl, ⟨rfl, rfl⟩, rfl⟩
  rw [hw] at hfile
  rw [hfile] at hlen
  cases hlen

end LockDoc.Convert
