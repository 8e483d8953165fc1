import LockDoc.Lib.Trail
import LockDoc.Convert.Filter
import LockDoc.Convert.References

/-!
# No access is lost or written twice

Every read or write event of an active allocation becomes one row of `accesses.csv`, in the
order of the trace, though it waits in a buffer until an event of another kind arrives. The
call stack of the access is stored under an id that no other call stack gets.
-/
namespace LockDoc.Convert

open FallibleRun

/-- The key of a call stack: the instruction pointer, and the text of the return addresses
without the comma at its end. -/
def stackKey (instrPtr : Nat) (stacktrace : String) : Nat × String :=
  (instrPtr, if ',' ∈ stacktrace.toList then String.ofList stacktrace.toList.dropLast else stacktrace)

def AccessEvent.stackKey (e : AccessEvent) : Nat × String := Convert.stackKey e.instrPtr e.stacktrace

/-- An access that the main loop takes, with the id of the allocation it is in. -/
def taken (σ : State) : Event → List (AccessEvent × Nat)
  | .access e => (σ.activeAllocs[e.baseAddress]?).toList.map fun a => (e, a.id)
  | _ => []

/-- The accesses that a run takes. -/
def accepted (cfg : Config) (trace : List Event) : List (AccessEvent × Nat) :=
  trail (step cfg) taken trace (.init cfg)

/-- The id that the call stack of an access has in the table. -/
def State.stackId (σ : State) (e : AccessEvent) : Nat := (σ.stacktraces.lookup e.stackKey).getD 0

/-- The record of the access with index `i` in that list. -/
def State.recorded (σ : State) (i : Nat) (p : AccessEvent × Nat) : MemAccess :=
  ⟨i + 1, p.1.ts, p.2, p.1.kind, toInt p.1.size, p.1.address, σ.stackId p.1, p.1.ctx⟩

/-- The event is no operation whose accesses the filter would drop. -/
def Event.Unfiltered (e : Event) : Prop := ¬(e.action = 'p' ∨ e.action = 'v')

instance (e : Event) : Decidable e.Unfiltered := inferInstanceAs (Decidable (¬_))

/-- A part of the state that only accesses touch. -/
theorem dispatch_kept {γ : Type} {f : State → γ}
    (hf : ∀ (σ : State) lm active subs nextAlloc nextSub allocs locks,
      f { σ with
          lockManager := lm, activeAllocs := active, subclasses := subs, curAllocID := nextAlloc
          curSubclassID := nextSub, allocOFile := allocs, locksOFile := locks } = f σ)
    {cfg : Config} {σ σ' : State} {e : Event} (h : dispatch cfg σ e = .ok σ') (he : ∀ ev, e ≠ .access ev) :
    f σ' = f σ := by
  have hlog : ∀ m, f (σ.log m) = f σ := fun m => hf σ _ _ _ _ _ _ _
  cases e with
  | alloc ts base size typeStr =>
    simp only [dispatch, handleAlloc] at h
    split at h
    · cases h
      exact hlog _
    · obtain ⟨⟨i, σ₁⟩, h₁, h⟩ := bind_ok.mp h
      have hσ : f σ₁ = f σ := by
        simp only [findSubclass] at h₁
        split at h₁
        · cases h₁
          rfl
        · split at h₁
          · cases h₁
            exact hlog _
          · split at h₁
            · cases h₁
            · cases h₁
              exact hf σ _ _ _ _ _ _ _
      cases i with
      | none =>
        cases h
        exact hσ
      | some i =>
        cases h
        exact (hf σ₁ _ _ _ _ _ _ _).trans hσ
  | free ts base size =>
    cases h
    unfold handleFree
    split
    · exact hlog _
    · exact hf σ _ _ _ _ _ _ _
  | lockOp e =>
    obtain ⟨⟨lock, σ₁⟩, h₁, h⟩ := bind_ok.mp h
    have hσ : f σ₁ = f σ := by
      cases lock with
      | none =>
        unfold resolveLock at h₁
        split at h₁
        · cases h₁
        · split at h₁
          · cases h₁
            rfl
          · split at h₁
            · cases h₁
              exact hlog _
            · obtain ⟨_, _, h₁⟩ := bind_ok.mp h₁
              cases h₁
      | some l =>
        cases resolveLock_some h₁ with
        | known l hl => rfl
        | fresh cls allocID name hl isP hc rows => exact hf σ _ _ _ _ _ _ _
    cases lock with
    | none =>
      cases h
      exact hσ
    | some l =>
      obtain ⟨lm, -, h⟩ := bind_ok.mp h
      cases h
      exact (hf σ₁ _ _ _ _ _ _ _).trans hσ
  | access ev => exact absurd rfl (he ev)
  | other ts c =>
    cases h
    exact hlog _

/-- Keys of stack traces are in use once, and so are their ids. -/
structure State.TracesFresh (σ : State) : Prop where
  below : ∀ p ∈ σ.stacktraces, p.2 < σ.curStacktraceID
  ids : (σ.stacktraces.map Prod.snd).Nodup

/-- The same id means the same call stack. -/
theorem State.TracesFresh.inj {σ : State} (h : σ.TracesFresh) {k k' : Nat × String} {i : Nat}
    (hk : σ.stacktraces.lookup k = some i) (hk' : σ.stacktraces.lookup k' = some i) : k = k' := by
  have hmem : ∀ {k}, σ.stacktraces.lookup k = some i → (k, i) ∈ σ.stacktraces := fun hk => by
    obtain ⟨l, r, he, -⟩ := List.lookup_eq_some_iff.mp hk
    rw [he]
    simp
  exact congrArg Prod.fst (List.inj_on_of_nodup_map h.ids (hmem hk) (hmem hk') rfl)

/-- What `addStacktrace` does to the table. -/
theorem addStacktrace_spec {σ : State} (h : σ.TracesFresh) (instrPtr : Nat) (stacktrace : String) :
    ∃ i new next, addStacktrace σ instrPtr stacktrace =
        (i, { σ with stacktraces := σ.stacktraces ++ new, curStacktraceID := next }) ∧
      (σ.stacktraces ++ new).lookup (stackKey instrPtr stacktrace) = some i ∧
      State.TracesFresh { σ with stacktraces := σ.stacktraces ++ new, curStacktraceID := next } := by
  cases hl : σ.stacktraces.lookup (stackKey instrPtr stacktrace) with
  | some i =>
    refine ⟨i, [], σ.curStacktraceID, ?_, ?_, ?_⟩
    · have hl' := hl
      unfold stackKey at hl'
      simp [addStacktrace, hl']
    · simpa using hl
    · simpa using h
  | none =>
    refine ⟨σ.curStacktraceID, [(stackKey instrPtr stacktrace, σ.curStacktraceID)], σ.curStacktraceID + 1, ?_, ?_, ?_⟩
    · have hl' := hl
      unfold stackKey at hl'
      simp only [addStacktrace, hl']
      rfl
    · simp [List.lookup_append, hl]
    · refine ⟨?_, ?_⟩
      · intro p hp
        rcases List.mem_append.mp hp with hp | hp
        · exact Nat.lt_succ_of_lt (h.below p hp)
        · rw [List.mem_singleton] at hp
          subst hp
          exact Nat.lt_succ_self _
      · dsimp only
        rw [List.map_append, List.nodup_append]
        refine ⟨h.ids, by simp, ?_⟩
        rintro i hi j hj rfl
        obtain ⟨p, hp, rfl⟩ := List.mem_map.mp hi
        have := h.below p hp
        simp only [List.map_cons, List.map_nil, List.mem_singleton] at hj
        omega

/-- The accesses so far are the records of what was taken. -/
structure Collected (σ : State) (out : List (AccessEvent × Nat)) : Prop where
  traces : σ.TracesFresh
  next : σ.curAccessID = out.length + 1
  accesses : σ.accesses = out.mapIdx σ.recorded
  known : ∀ p ∈ out, ∃ i, σ.stacktraces.lookup p.1.stackKey = some i

namespace Collected

variable {cfg : Config} {σ σ' : State} {out : List (AccessEvent × Nat)}

theorem congr (h : Collected σ out) (hs : σ'.stacktraces = σ.stacktraces)
    (hc : σ'.curStacktraceID = σ.curStacktraceID) (hn : σ'.curAccessID = σ.curAccessID)
    (ha : σ'.accesses = σ.accesses) : Collected σ' out where
  traces := ⟨by rw [hs, hc]; exact h.traces.below, by rw [hs]; exact h.traces.ids⟩
  next := by rw [hn, h.next]
  accesses := by
    have hrec : σ'.recorded = σ.recorded := by
      funext i p
      simp only [State.recorded, State.stackId, hs]
    rw [ha, h.accesses, hrec]
  known := by
    rw [hs]
    exact h.known

/-- A flush that drops nothing. -/
theorem flushed (h : Collected σ out) {pending : List MemAccess} (hp : pending = σ.lastMemAccesses) :
    Collected { pending.foldl (State.writeMemAccess cfg) σ with lastMemAccesses := [] } out := by
  subst hp
  have hid : AccessRow.access ∘ accessRow cfg σ.lockManager = id := rfl
  have hframe := writeMemAccesses_frame cfg σ σ.lastMemAccesses
  refine h.congr ?_ ?_ ?_ ?_
  · rw [hframe]
  · rw [hframe]
  · rw [hframe]
  · simp only [State.accesses, (writeMemAccesses_fold cfg σ _).2, List.map_append, List.map_map, hid, List.map_id,
      List.append_nil]

theorem attributed (h : Collected σ out) {e : Event} (he : e.Unfiltered) : Collected (attributed cfg σ e) out := by
  have hσ : Collected { σ with ts := e.ts } out := h.congr rfl rfl rfl rfl
  rcases attributed_eq cfg σ e with ⟨heq, -⟩ | ⟨-, pending, hp, heq⟩
  · rw [heq]
    exact hσ
  · rw [heq]
    refine hσ.flushed ?_
    rw [hp, if_neg he]

/-- An access that is taken goes to the end of the buffer. -/
theorem taken_access (h : Collected σ out) {e : AccessEvent} (hst : handleAccess σ e = .ok σ') :
    Collected σ' (out ++ taken σ (.access e)) := by
  unfold handleAccess at hst
  split at hst
  · rename_i ha
    cases hst
    have hout : taken σ (.access e) = [] := by simp [taken, ha]
    rw [hout, List.append_nil]
    exact h.congr rfl rfl rfl rfl
  · rename_i a ha
    split at hst
    · cases hst
    · obtain ⟨i, new, next, heq, hlook, hfresh⟩ := addStacktrace_spec h.traces e.instrPtr e.stacktrace
      simp only [heq] at hst
      cases hst
      have hold : ∀ p ∈ out, (σ.stacktraces ++ new).lookup p.1.stackKey = σ.stacktraces.lookup p.1.stackKey := by
        intro p hp
        obtain ⟨j, hj⟩ := h.known p hp
        rw [List.lookup_append, hj]
        rfl
      have hout : out ++ taken σ (.access e) = out ++ [(e, a.id)] := by simp [taken, ha]
      rw [hout]
      refine ⟨⟨hfresh.below, hfresh.ids⟩, ?_, ?_, ?_⟩
      · simp [h.next]
      · rw [List.mapIdx_append]
        have hacc := h.accesses
        simp only [State.accesses] at hacc ⊢
        rw [← List.append_assoc, hacc]
        congr 1
        · apply List.ext_getElem (by simp)
          intro j h₁ h₂
          simp only [List.getElem_mapIdx, State.recorded, State.stackId]
          rw [hold _ (List.getElem_mem _)]
        · have hkey : (σ.stacktraces ++ new).lookup e.stackKey = some i := hlook
          simp [State.recorded, State.stackId, hkey, h.next]
      · intro p hp
        rcases List.mem_append.mp hp with hp | hp
        · obtain ⟨j, hj⟩ := h.known p hp
          exact ⟨j, by rw [hold p hp]; exact hj⟩
        · rw [List.mem_singleton] at hp
          subst hp
          exact ⟨i, hlook⟩

theorem step (h : Collected σ out) {e : Event} (he : e.Unfiltered) (hst : Convert.step cfg σ e = .ok σ') :
    Collected σ' (out ++ taken σ e) := by
  rcases step_ok hst with ⟨hskip, rfl⟩ | ⟨hskip, hh⟩
  · have hout : taken σ e = [] := by
      cases e <;> simp_all [Config.skips, Event.isSeqlock, taken]
    rw [hout, List.append_nil]
    exact h.congr rfl rfl rfl rfl
  · have hat : Collected (Convert.attributed cfg σ e) out := h.attributed he
    have hactive : (Convert.attributed cfg σ e).activeAllocs = σ.activeAllocs := by rw [attributed_frame]
    have hd : dispatch cfg (Convert.attributed cfg σ e) e = .ok σ' := by
      unfold Convert.step at hst
      rw [if_neg (by simpa [Config.skips] using hskip)] at hst
      exact hst
    have htaken : taken σ e = taken (Convert.attributed cfg σ e) e := by cases e <;> simp [taken, hactive]
    rw [htaken]
    by_cases hev : ∃ ev, e = .access ev
    · obtain ⟨ev, rfl⟩ := hev
      exact hat.taken_access hd
    · have hne : ∀ ev, e ≠ .access ev := fun ev hev' => hev ⟨ev, hev'⟩
      have hout : taken (Convert.attributed cfg σ e) e = [] := by
        cases e with
        | access ev => exact absurd rfl (hne ev)
        | _ => rfl
      rw [hout, List.append_nil]
      have hkept := dispatch_kept (f := fun σ => (σ.stacktraces, σ.curStacktraceID, σ.curAccessID, σ.accesses)) ?_ hd hne
      · simp only [Prod.mk.injEq] at hkept
        exact hat.congr hkept.1 hkept.2.1 hkept.2.2.1 hkept.2.2.2
      · intros
        rfl

theorem init (cfg : Config) : Collected (.init cfg) [] where
  traces := ⟨by simp [State.init], by simp [State.init]⟩
  next := rfl
  accesses := rfl
  known := by simp

/-- Two accesses have the same call stack exactly if they have the same id for it. -/
theorem stackId_inj (h : Collected σ out) {p q : AccessEvent × Nat} (hp : p ∈ out) (hq : q ∈ out) :
    σ.stackId p.1 = σ.stackId q.1 ↔ p.1.stackKey = q.1.stackKey := by
  constructor
  · intro he
    obtain ⟨i, hi⟩ := h.known p hp
    obtain ⟨j, hj⟩ := h.known q hq
    simp only [State.stackId, hi, hj, Option.getD_some] at he
    subst he
    exact h.traces.inj hi hj
  · intro he
    simp only [State.stackId, he]

end Collected

/-- What the filter takes away is a pair of the lock's own accesses at the end. -/
theorem discardLockAccess_append (address : Nat) (pending : List MemAccess) :
    ∃ dropped, discardLockAccess address pending ++ dropped = pending ∧
      (dropped = [] ∨ ∃ r w, dropped = [r, w] ∧ OwnPair address r w) := by
  unfold discardLockAccess
  split
  · rename_i w₁ w₀ rest hrev
    split
    · rename_i hc
      obtain ⟨hts, hr, hw, haddr, hx, hsize⟩ := hc
      refine ⟨[w₀, w₁], ?_, .inr ⟨w₀, w₁, rfl, hr, hw, hts, ⟨hx, haddr ▸ hx⟩, hsize⟩⟩
      rw [← List.reverse_reverse pending, hrev]
      simp
    · exact ⟨[], by simp, .inl rfl⟩
  · exact ⟨[], by simp, .inl rfl⟩

/-- The flush after the main loop. -/
theorem writeMemAccesses_final (cfg : Config) (σ : State) :
    writeMemAccesses cfg 'v' 0 σ =
      { (discardLockAccess 0 σ.lastMemAccesses).foldl (State.writeMemAccess cfg) σ with lastMemAccesses := [] } := by
  simp [writeMemAccesses]

theorem written_flush (cfg : Config) (σ : State) (pending : List MemAccess) :
    (pending.foldl (State.writeMemAccess cfg) σ).written = σ.written ++ pending := by
  have hid : AccessRow.access ∘ accessRow cfg σ.lockManager = id := rfl
  rw [State.written, (writeMemAccesses_fold cfg σ pending).2, List.map_append, List.map_map, hid, List.map_id]
  rfl

theorem run_collected {cfg : Config} {trace : List Event} {σ : State} (hop : ∀ e ∈ trace, e.Unfiltered)
    (hr : run (step cfg) trace (.init cfg) = .ok σ) : Collected σ (accepted cfg trace) :=
  run_trail (R := Collected) (E := Event.Unfiltered) (fun _ _ _ _ h he hst => h.step he hst) hop (.init cfg) hr

/-- The accesses of the output are those that the run took, each once, in order, numbered from
1; only a pair at address 0 at the very end can be missing, which the last flush takes for the
accesses of a lock. Two of them share the id of a call stack exactly if they share the call stack. -/
theorem accesses_conserved {cfg : Config} {trace : List Event} {σ : State} (hop : ∀ e ∈ trace, e.Unfiltered)
    (h : convert cfg trace = .ok σ) :
    (∃ dropped, σ.written ++ dropped = (accepted cfg trace).mapIdx σ.recorded ∧
      (dropped = [] ∨ ∃ r w, dropped = [r, w] ∧ OwnPair 0 r w)) ∧
    ∀ p ∈ accepted cfg trace, ∀ q ∈ accepted cfg trace,
      σ.stackId p.1 = σ.stackId q.1 ↔ p.1.stackKey = q.1.stackKey := by
  obtain ⟨σ₁, hrun, hfin⟩ := bind_ok.mp h
  obtain ⟨lm, hlm, hfin⟩ := bind_ok.mp hfin
  cases hfin
  have h₁ := run_collected hop hrun
  have h₂ : Collected { σ₁ with allocOFile := σ₁.allocOFile ++ openAllocRows σ₁ } (accepted cfg trace) :=
    h₁.congr rfl rfl rfl rfl
  generalize { σ₁ with allocOFile := σ₁.allocOFile ++ openAllocRows σ₁ } = σ₂ at h₂
  obtain ⟨dropped, hcut, hpair⟩ := discardLockAccess_append 0 σ₂.lastMemAccesses
  have hframe := writeMemAccesses_frame cfg σ₂ (discardLockAccess 0 σ₂.lastMemAccesses)
  have hstack : ∀ e, State.stackId { writeMemAccesses cfg 'v' 0 σ₂ with lockManager := lm } e = σ₂.stackId e := by
    intro e
    rw [writeMemAccesses_final, hframe]
    rfl
  refine ⟨⟨dropped, ?_, hpair⟩, ?_⟩
  · have hwritten : State.written { writeMemAccesses cfg 'v' 0 σ₂ with lockManager := lm } =
        σ₂.written ++ discardLockAccess 0 σ₂.lastMemAccesses := by
      rw [writeMemAccesses_final]
      exact written_flush cfg σ₂ _
    have hrec : State.recorded { writeMemAccesses cfg 'v' 0 σ₂ with lockManager := lm } = σ₂.recorded := by
      funext i p
      simp only [State.recorded, hstack]
    rw [hwritten, List.append_assoc, hcut, hrec]
    exact h₂.accesses
  · intro p hp q hq
    rw [hstack, hstack]
    exact h₂.stackId_inj hp hq

/-- The access under the write lock is taken, though it is written when the lock is released. -/
theorem accessUnderWriter_conserved : ∃ σ, convert (.trackAll false) accessUnderWriter = .ok σ ∧
    ∃ dropped, σ.written ++ dropped = (accepted (.trackAll false) accessUnderWriter).mapIdx σ.recorded := by
  have hop : ∀ e ∈ accessUnderWriter, e.Unfiltered := by decide
  obtain ⟨σ, h⟩ : ∃ σ, convert (.trackAll false) accessUnderWriter = .ok σ := ⟨_, rfl⟩
  obtain ⟨⟨dropped, hrows, -⟩, -⟩ := accesses_conserved hop h
  exact ⟨σ, h, dropped, hrows⟩

end LockDoc.Convert
