import LockDoc.Convert.Ledger

/-!
# Reference semantics of held locks

What a trace says about the locks each context holds, independently of transactions,
counters and positions: a `P()` adds a hold to its context, a `V()` takes the latest
hold of the sub lock away, from its own context or else from the first one that has
one. Operations that `handlePV` ignores do not count. A trace is legal when every
operation is one that correct locking code can perform in the reference state.
-/
namespace LockDoc.Convert

open FallibleRun

/-- An acquisition that has not been released. -/
structure Hold where
  lock : LockPtr
  side : SubLock
  event : LockEvent
  deriving DecidableEq, Repr

/-- The sub lock that is held. -/
def Hold.label (h : Hold) : LockPtr × SubLock := (h.lock, h.side)

/-- An access event that the converter takes, with the sub locks its context holds. -/
structure Admitted where
  event : AccessEvent
  held : List (LockPtr × SubLock)

structure Reference where
  holds : Std.ExtTreeMap Int (List Hold)
  admitted : List Admitted

namespace Reference

def init : Reference := ⟨∅, []⟩

/-- The holds of a context, the latest first. -/
def heldBy (r : Reference) (c : Int) : List Hold := r.holds.getD c []

/-- The sub locks of a context. -/
def sublocks (r : Reference) (c : Int) : List (LockPtr × SubLock) := (r.heldBy c).map Hold.label

/-- Some context holds the sub lock. -/
def isHeld (r : Reference) (x : LockPtr × SubLock) : Bool :=
  r.holds.toList.any (fun kv => kv.2.any (fun h => h.label = x))

/-- No context but `c` holds a side of the lock. -/
def isExclusive (r : Reference) (l : LockPtr) (c : Int) : Bool :=
  r.holds.toList.all (fun kv => kv.1 = c || kv.2.all (fun h => h.lock ≠ l))

/-- The context that loses a hold: the issuing one, or the lowest-numbered one that has one. -/
def releaser (r : Reference) (x : LockPtr × SubLock) (c : Int) : Int :=
  if x ∈ r.sublocks c then c
  else match r.holds.toList.find? (fun kv => kv.2.any (fun h => h.label = x)) with
    | some kv => kv.1
    | none => c

def acquire (r : Reference) (l : LockPtr) (e : LockEvent) (c : Int) : Reference :=
  { r with holds := r.holds.insert c (⟨l, e.op.side, e⟩ :: r.heldBy c) }

def release (r : Reference) (x : LockPtr × SubLock) (c : Int) : Reference :=
  { r with holds := r.holds.insert (r.releaser x c) ((r.heldBy (r.releaser x c)).eraseP (fun h => h.label = x)) }

theorem heldBy_insert (r : Reference) (c d : Int) (hs : List Hold) :
    heldBy { r with holds := r.holds.insert c hs } d = if d = c then hs else r.heldBy d :=
  OrdMap.getD_insert_eq ..

theorem isHeld_iff {r : Reference} {x : LockPtr × SubLock} : r.isHeld x ↔ ∃ c, x ∈ r.sublocks c := by
  simp only [isHeld, List.any_eq_true, decide_eq_true_eq, Prod.exists, sublocks, List.mem_map]
  constructor
  · rintro ⟨c, hs, hm, h, hh, he⟩
    have hget := Std.ExtTreeMap.mem_toList_iff_getElem?_eq_some.mp hm
    exact ⟨c, h, by rw [heldBy, OrdMap.getD_eq, hget]; exact hh, he⟩
  · rintro ⟨c, h, hh, he⟩
    rw [heldBy, OrdMap.getD_eq] at hh
    cases hget : r.holds[c]? with
    | none => simp [hget] at hh
    | some hs =>
      rw [hget] at hh
      exact ⟨c, hs, Std.ExtTreeMap.mem_toList_iff_getElem?_eq_some.mpr hget, h, hh, he⟩

theorem isExclusive_iff {r : Reference} {l : LockPtr} {c : Int} :
    r.isExclusive l c ↔ ∀ d, d ≠ c → ∀ x ∈ r.sublocks d, x.1 ≠ l := by
  constructor
  · intro hall d hd x hx
    obtain ⟨h, hh, rfl⟩ := List.mem_map.mp hx
    rw [heldBy, OrdMap.getD_eq] at hh
    cases hget : r.holds[d]? with
    | none => simp [hget] at hh
    | some hs =>
      rw [hget] at hh
      have hkv := List.all_eq_true.mp hall (d, hs) (Std.ExtTreeMap.mem_toList_iff_getElem?_eq_some.mpr hget)
      simp only [hd, decide_false, Bool.false_or] at hkv
      simpa [Hold.label] using List.all_eq_true.mp hkv h hh
  · intro hall
    refine List.all_eq_true.mpr ?_
    rintro ⟨d, hs⟩ hm
    by_cases hd : d = c
    · simp [hd]
    · simp only [hd, decide_false, Bool.false_or]
      refine List.all_eq_true.mpr fun h hh => ?_
      have hget := Std.ExtTreeMap.mem_toList_iff_getElem?_eq_some.mp hm
      have hmem : h.label ∈ r.sublocks d := by
        refine List.mem_map_of_mem ?_
        rw [heldBy, OrdMap.getD_eq, hget]
        exact hh
      simpa [Hold.label] using hall d hd h.label hmem

theorem sublocks_acquire (r : Reference) (l : LockPtr) (e : LockEvent) (c d : Int) :
    (r.acquire l e c).sublocks d = if d = c then (l, e.op.side) :: r.sublocks d else r.sublocks d := by
  unfold sublocks acquire
  rw [heldBy_insert]
  split
  · subst d
    rfl
  · rfl

theorem map_eraseP_label (hs : List Hold) (x : LockPtr × SubLock) :
    (hs.eraseP (fun h => h.label = x)).map Hold.label = (hs.map Hold.label).erase x := by
  induction hs with
  | nil => rfl
  | cons h hs ih =>
    by_cases he : h.label = x
    · simp [he]
    · rw [List.eraseP_cons_of_neg (by simpa using he), List.map_cons, List.map_cons,
        List.erase_cons_tail (by simpa using he), ih]

theorem sublocks_release (r : Reference) (x : LockPtr × SubLock) (c d : Int) :
    (r.release x c).sublocks d =
      if d = r.releaser x c then (r.sublocks d).erase x else r.sublocks d := by
  unfold sublocks release
  rw [heldBy_insert]
  split
  · subst d
    exact map_eraseP_label _ x
  · rfl

end Reference

/-- The reference state after an event, given the state of the converter before it. -/
def refStep (cfg : Config) (σ : State) (r : Reference) : Event → Reference
  | .lockOp ev =>
    if cfg.skips (.lockOp ev) then r
    else match resolveLock cfg (attributed cfg σ (.lockOp ev)) ev with
      | .ok (some l, _) =>
        if ev.op.isP then r.acquire l ev (cfg.ctxOf ev.ctx) else r.release (l, ev.op.side) (cfg.ctxOf ev.ctx)
      | _ => r
  | .access ev =>
    if σ.activeAllocs.contains ev.baseAddress then
      { r with admitted := r.admitted ++ [⟨ev, r.sublocks (cfg.ctxOf ev.ctx)⟩] }
    else r
  | _ => r

/-- The converter and the reference side by side. -/
def trackStep (cfg : Config) (s : State × Reference) (e : Event) : Except Abort (State × Reference) := do
  let σ ← step cfg s.1 e
  .ok (σ, refStep cfg s.1 s.2 e)

/-- A lock operation that correct locking code can perform. -/
def legalOp (cfg : Config) (r : Reference) (l : LockPtr) (ev : LockEvent) : Bool :=
  match ev.op with
  | .pWrite => (!r.isHeld (l, .reader) && !r.isHeld (l, .writer)) ||
      (isRecursive ev.flags && (l, .writer) ∈ r.sublocks (cfg.ctxOf ev.ctx) && r.isExclusive l (cfg.ctxOf ev.ctx))
  | .pRead => !r.isHeld (l, .writer)
  | .vRead => r.isHeld (l, .reader)
  | .vWrite => r.isHeld (l, .writer)

/-- An event of a legal trace. -/
def legalStep (cfg : Config) (s : State × Reference) : Event → Bool
  | .alloc .. => true
  | .free _ base _ =>
    match s.1.activeAllocs[base]? with
    | some a => s.2.holds.toList.all (fun kv => kv.2.all (fun h =>
        !LockManager.inArea base (toU64 a.size) (s.1.lockManager.heap h.lock).lockAddress))
    | none => true
  | .lockOp ev => cfg.skips (.lockOp ev) ||
      match resolveLock cfg (attributed cfg s.1 (.lockOp ev)) ev with
      | .ok (some l, σ) => (σ.lockManager.heap l).cls.has ev.op.side && legalOp cfg s.2 l ev
      | .ok (none, _) => true
      | .error _ => false
  | .access ev => ev.address ≠ 0
  | .other .. => false

/-- A trace all of whose events are legal where they stand. -/
def Legal (cfg : Config) (trace : List Event) : Prop :=
  Along (trackStep cfg) (fun s e => legalStep cfg s e = true) trace (.init cfg, .init)

/-- The reference state after a trace that was converted to the end. -/
def reference (cfg : Config) (trace : List Event) : Reference :=
  match run (trackStep cfg) trace (.init cfg, .init) with
  | .ok s => s.2
  | .error _ => .init

theorem trackStep_ok {cfg : Config} {s t : State × Reference} {e : Event} (h : trackStep cfg s e = .ok t) :
    step cfg s.1 e = .ok t.1 ∧ t.2 = refStep cfg s.1 s.2 e := by
  obtain ⟨σ, hσ, h⟩ := bind_ok.mp h
  cases h
  exact ⟨hσ, rfl⟩

/-- Tracking does not disturb the conversion. -/
theorem run_trackStep {cfg : Config} {trace : List Event} {σ σ' : State} {r : Reference}
    (h : run (step cfg) trace σ = .ok σ') : ∃ r', run (trackStep cfg) trace (σ, r) = .ok (σ', r') := by
  induction trace generalizing σ r with
  | nil =>
    cases h
    exact ⟨r, rfl⟩
  | cons e trace ih =>
    obtain ⟨σ₁, h₁, h⟩ := run_cons_ok.mp h
    obtain ⟨r', hr⟩ := ih (r := refStep cfg σ r e) h
    exact ⟨r', run_cons_ok.mpr ⟨(σ₁, refStep cfg σ r e), bind_ok.mpr ⟨σ₁, h₁, rfl⟩, hr⟩⟩

theorem run_trackStep_error {cfg : Config} {trace : List Event} {σ : State} {r : Reference} {a : Abort}
    (h : run (step cfg) trace σ = .error a) : run (trackStep cfg) trace (σ, r) = .error a := by
  induction trace generalizing σ r with
  | nil => cases h
  | cons e trace ih =>
    rcases bind_error.mp h with h | ⟨σ₁, h₁, h⟩
    · exact bind_error.mpr (.inl (bind_error.mpr (.inl h)))
    · exact bind_error.mpr (.inr ⟨_, bind_ok.mpr ⟨σ₁, h₁, rfl⟩, ih h⟩)

end LockDoc.Convert
