import LockDoc.Convert.Conserve
import LockDoc.Convert.Frames
import LockDoc.Convert.Hex

/-!
# The call stacks of `stacktraces.csv`

`addStacktrace` writes a call stack when it sees it for the first time: one row for each frame
and for each location the frame is inlined by, numbered over the whole call stack. The rows
with the id that an access carries are its call stack, whatever else was written in between.
-/
namespace LockDoc.Convert

open FallibleRun
open Hypothesizer (getlines)

/-- A row of `stacktraces.csv`. -/
structure StacktraceRow where
  id : Nat
  sequence : Nat
  instrPtr : Nat
  instrPtrPrev : Nat
  location : CodeLocation
  deriving DecidableEq, Repr

/-- What ends the program while a call stack is written. -/
inductive StackFault where
  | abort (a : Abort)
  | thrown (t : Thrown)
  | undefined (u : Undefined)
  deriving DecidableEq, Repr

/-- The main loop with the map of resolved addresses and the file it fills. -/
structure WithStacktraces where
  state : State
  functionAddresses : FunctionAddresses
  stacktracesOFile : List StacktraceRow

/-- `instrPtrPrev--`. -/
def prevU64 (n : Nat) : Nat := (n + (2 ^ 64 - 1)) % 2 ^ 64

/-- The rows of one frame: its location, and the locations it is inlined by. -/
def frameRows (ret sequence instrPtr instrPtrPrev : Nat) (resolved : ResolvedInstructionPtr) : List StacktraceRow :=
  (resolved.codeLocation :: resolved.inlinedBy).mapIdx fun i loc => ⟨ret, sequence + i, instrPtr, instrPtrPrev, loc⟩

/-- The loop over the tokens of a call stack. -/
def writeFrames (bfd : Bfd) (compDir : String) (ret : Nat) :
    List (List Char) → Nat → FunctionAddresses → Except StackFault (List StacktraceRow × FunctionAddresses)
  | [], _, seen => .ok ([], seen)
  | token :: rest, sequence, seen => do
    let instrPtr ← (stoull 16 (String.ofList token)).mapError .thrown
    let instrPtrPrev := if 0 < sequence then prevU64 instrPtr else instrPtr
    let (resolved, seen) ← (getFunctionAtAddr bfd compDir seen instrPtrPrev).mapError .undefined
    let rows := frameRows ret sequence instrPtr instrPtrPrev resolved
    let (more, seen) ← writeFrames bfd compDir ret rest (sequence + rows.length) seen
    .ok (rows ++ more, seen)

/-- The text that the tokens are taken from. -/
def stackText (key : Nat × String) : List Char :=
  showHex key.1 ++ if key.2 = "" then [] else ',' :: key.2.toList

namespace WithStacktraces

def init (cfg : Config) : WithStacktraces := ⟨.init cfg, ∅, []⟩

/-- `addStacktrace` with its output. -/
def addStacktrace (bfd : Bfd) (compDir : String) (s : WithStacktraces) (instrPtr : Nat) (stacktrace : String) :
    Except StackFault (Nat × WithStacktraces) :=
  let key := stackKey instrPtr stacktrace
  match s.state.stacktraces.lookup key with
  | some i => .ok (i, s)
  | none => do
    let (rows, seen) ← writeFrames bfd compDir s.state.curStacktraceID (getlines ',' (stackText key)) 0
      s.functionAddresses
    .ok (s.state.curStacktraceID,
      { state :=
          { s.state with
            stacktraces := s.state.stacktraces ++ [(key, s.state.curStacktraceID)]
            curStacktraceID := s.state.curStacktraceID + 1 }
        functionAddresses := seen
        stacktracesOFile := s.stacktracesOFile ++ rows })

def handleAccess (bfd : Bfd) (compDir : String) (s : WithStacktraces) (e : AccessEvent) :
    Except StackFault WithStacktraces :=
  match s.state.activeAllocs[e.baseAddress]? with
  | none => .ok { s with state := s.state.log .noActiveAllocation }
  | some a =>
    if outsideAllocation e a then .error (.abort .accessOutsideAllocation)
    else do
      let (trace, s) ← s.addStacktrace bfd compDir e.instrPtr e.stacktrace
      .ok { s with
        state :=
          { s.state with
            lastMemAccesses := s.state.lastMemAccesses ++
              [⟨s.state.curAccessID, e.ts, a.id, e.kind, toInt e.size, e.address, trace, e.ctx⟩]
            curAccessID := s.state.curAccessID + 1 } }

/-- One iteration of the main loop. -/
def step (bfd : Bfd) (cfg : Config) (s : WithStacktraces) (e : Event) : Except StackFault WithStacktraces :=
  if cfg.skips e then .ok { s with state := { s.state with ts := e.ts } }
  else match e with
    | .access ev => handleAccess bfd cfg.kernelBaseDir { s with state := attributed cfg s.state e } ev
    | e => do
      let σ ← (dispatch cfg (attributed cfg s.state e) e).mapError .abort
      .ok { s with state := σ }

end WithStacktraces

/-- Every location of a call stack, with the address of its frame and the one that was looked up. -/
def stackLocations (frames : List (Nat × Nat)) (resolved : List ResolvedInstructionPtr) :
    List ((Nat × Nat) × CodeLocation) :=
  (frames.zip resolved).flatMap fun f => (f.2.codeLocation :: f.2.inlinedBy).map fun loc => (f.1, loc)

def numbered (id sequence : Nat) (locations : List ((Nat × Nat) × CodeLocation)) : List StacktraceRow :=
  locations.mapIdx fun i x => ⟨id, sequence + i, x.1.1, x.1.2, x.2⟩

/-- `rows` are the call stack with a key: the instruction pointer, then the return addresses,
each with what the image shows at it or before it, numbered from 0. -/
def IsCallStack (bfd : Bfd) (compDir : String) (id : Nat) (key : Nat × String) (rows : List StacktraceRow) : Prop :=
  ∃ returns resolved,
    (getlines ',' key.2.toList).mapM (fun token => stoull 16 (String.ofList token)) = .ok returns ∧
    (key.1 :: returns.map prevU64).mapM (resolve bfd compDir) = .ok resolved ∧
    rows = numbered id 0 (stackLocations ((key.1, key.1) :: returns.map fun r => (r, prevU64 r)) resolved)

theorem mapError_ok {α β γ : Type} {f : α → β} {x : Except α γ} {a : γ} : x.mapError f = .ok a ↔ x = .ok a := by
  cases x <;> simp [Except.mapError]

theorem numbered_append (id sequence : Nat) (xs ys : List ((Nat × Nat) × CodeLocation)) :
    numbered id sequence (xs ++ ys) = numbered id sequence xs ++ numbered id (sequence + xs.length) ys := by
  simp only [numbered, List.mapIdx_append, Nat.add_assoc, Nat.add_comm xs.length]

theorem frameRows_eq (ret sequence instrPtr instrPtrPrev : Nat) (resolved : ResolvedInstructionPtr) :
    frameRows ret sequence instrPtr instrPtrPrev resolved =
      numbered ret sequence (stackLocations [(instrPtr, instrPtrPrev)] [resolved]) := by
  have hmap : stackLocations [(instrPtr, instrPtrPrev)] [resolved] =
      (resolved.codeLocation :: resolved.inlinedBy).map fun loc => ((instrPtr, instrPtrPrev), loc) :=
    List.append_nil _
  rw [frameRows, numbered, hmap]
  apply List.ext_getElem
  · simp
  · intro i h₁ h₂
    rw [List.getElem_mapIdx, List.getElem_mapIdx, List.getElem_map]

section

variable {bfd : Bfd} {compDir : String} {ret sequence : Nat} {seen next : FunctionAddresses}
  {rows : List StacktraceRow}

/-- One token. -/
theorem writeFrames_cons {token : List Char} {rest : List (List Char)} (hlooked : Looked bfd compDir seen)
    (h : writeFrames bfd compDir ret (token :: rest) sequence seen = .ok (rows, next)) :
    ∃ instrPtr resolved seen₁ more, stoull 16 (String.ofList token) = .ok instrPtr ∧
      resolve bfd compDir (if 0 < sequence then prevU64 instrPtr else instrPtr) = .ok resolved ∧
      Looked bfd compDir seen₁ ∧
      writeFrames bfd compDir ret rest (sequence + (resolved.inlinedBy.length + 1)) seen₁ = .ok (more, next) ∧
      rows = numbered ret sequence
        (stackLocations [(instrPtr, if 0 < sequence then prevU64 instrPtr else instrPtr)] [resolved]) ++ more := by
  obtain ⟨instrPtr, hp, h⟩ := bind_ok.mp h
  obtain ⟨⟨resolved, seen₁⟩, hr, h⟩ := bind_ok.mp h
  obtain ⟨⟨more, seen₂⟩, hmore, h⟩ := bind_ok.mp h
  have hcall := mapError_ok.mp hr
  have hlen : (frameRows ret sequence instrPtr (if 0 < sequence then prevU64 instrPtr else instrPtr) resolved).length =
      resolved.inlinedBy.length + 1 := by simp [frameRows]
  rw [hlen] at hmore
  rw [frameRows_eq] at h
  cases h
  exact ⟨instrPtr, resolved, seen₁, more, mapError_ok.mp hp, hlooked.resolve_ok hcall, .call hlooked hcall, hmore, rfl⟩

/-- The tokens after the first. -/
theorem writeFrames_rest {tokens : List (List Char)} (hlooked : Looked bfd compDir seen) (hpos : 0 < sequence)
    (h : writeFrames bfd compDir ret tokens sequence seen = .ok (rows, next)) :
    Looked bfd compDir next ∧ ∃ returns resolved,
      tokens.mapM (fun token => stoull 16 (String.ofList token)) = .ok returns ∧
      (returns.map prevU64).mapM (resolve bfd compDir) = .ok resolved ∧
      rows = numbered ret sequence (stackLocations (returns.map fun r => (r, prevU64 r)) resolved) := by
  induction tokens generalizing sequence seen rows with
  | nil =>
    cases h
    exact ⟨hlooked, [], [], rfl, rfl, rfl⟩
  | cons token tokens ih =>
    obtain ⟨instrPtr, resolved, seen₁, more, hp, hr, hlooked₁, hmore, rfl⟩ := writeFrames_cons hlooked h
    obtain ⟨hnext, returns, rest, htokens, hrest, rfl⟩ := ih hlooked₁ (by omega) hmore
    rw [if_pos hpos] at hr ⊢
    refine ⟨hnext, instrPtr :: returns, resolved :: rest, ?_, ?_, ?_⟩
    · rw [List.mapM_cons, hp, htokens]
      rfl
    · rw [List.map_cons, List.mapM_cons, hr, hrest]
      rfl
    · have hsplit : stackLocations ((instrPtr :: returns).map fun r => (r, prevU64 r)) (resolved :: rest) =
          stackLocations [(instrPtr, prevU64 instrPtr)] [resolved] ++
            stackLocations (returns.map fun r => (r, prevU64 r)) rest := by simp [stackLocations]
      rw [hsplit, numbered_append]
      simp [stackLocations]

/-- What is written for a key is its call stack. -/
theorem writeFrames_stack {key : Nat × String} (hlooked : Looked bfd compDir seen)
    (h : writeFrames bfd compDir ret (getlines ',' (stackText key)) 0 seen = .ok (rows, next)) :
    Looked bfd compDir next ∧ IsCallStack bfd compDir ret key rows := by
  have htokens : getlines ',' (stackText key) = showHex key.1 :: getlines ',' key.2.toList := by
    unfold stackText
    split
    · rename_i hempty
      rw [hempty, List.append_nil, Hypothesizer.getlines_last (showHex_no_comma _) (showHex_ne_nil _)]
      rfl
    · rw [Hypothesizer.getlines_append (showHex_no_comma _)]
  rw [htokens] at h
  obtain ⟨instrPtr, resolved, seen₁, more, hp, hr, hlooked₁, hmore, rfl⟩ := writeFrames_cons hlooked h
  obtain ⟨hnext, returns, rest, hreturns, hrest, rfl⟩ := writeFrames_rest hlooked₁ (by omega) hmore
  -- A pointer that does not fit would have thrown.
  have hkey : instrPtr = key.1 := by
    rw [stoull_showHex] at hp
    split at hp
    · cases hp
    · exact (Except.ok.inj hp).symm
  subst hkey
  rw [if_neg (Nat.lt_irrefl 0)] at hr ⊢
  refine ⟨hnext, returns, resolved :: rest, hreturns, ?_, ?_⟩
  · rw [List.mapM_cons, hr, hrest]
    rfl
  · have hsplit : stackLocations ((key.1, key.1) :: returns.map fun r => (r, prevU64 r)) (resolved :: rest) =
        stackLocations [(key.1, key.1)] [resolved] ++ stackLocations (returns.map fun r => (r, prevU64 r)) rest := by
      simp [stackLocations]
    rw [hsplit, numbered_append]
    simp [stackLocations]

end

theorem IsCallStack.id_eq {bfd : Bfd} {compDir : String} {id : Nat} {key : Nat × String} {rows : List StacktraceRow}
    (h : IsCallStack bfd compDir id key rows) : ∀ r ∈ rows, r.id = id := by
  obtain ⟨returns, resolved, -, -, rfl⟩ := h
  intro r hr
  obtain ⟨i, hi, rfl⟩ := List.mem_mapIdx.mp hr
  rfl

namespace WithStacktraces

variable {bfd : Bfd} {cfg : Config} {s s' : WithStacktraces}

theorem addStacktrace_state {compDir : String} {instrPtr i : Nat} {stacktrace : String}
    (h : s.addStacktrace bfd compDir instrPtr stacktrace = .ok (i, s')) :
    Convert.addStacktrace s.state instrPtr stacktrace = (i, s'.state) := by
  unfold addStacktrace at h
  dsimp only at h
  split at h
  · rename_i j hl
    cases h
    unfold stackKey at hl
    simp [Convert.addStacktrace, hl]
  · rename_i hl
    obtain ⟨_, -, h⟩ := bind_ok.mp h
    cases h
    unfold stackKey at hl
    simp only [Convert.addStacktrace, hl, stackKey]

theorem handleAccess_state {compDir : String} {e : AccessEvent} (h : s.handleAccess bfd compDir e = .ok s') :
    Convert.handleAccess s.state e = .ok s'.state := by
  unfold handleAccess at h
  unfold Convert.handleAccess
  cases ha : s.state.activeAllocs[e.baseAddress]? with
  | none =>
    rw [ha] at h
    cases h
    rfl
  | some a =>
    rw [ha] at h
    dsimp only at h ⊢
    split at h
    · cases h
    · rename_i hin
      obtain ⟨⟨i, s₁⟩, hadd, h⟩ := bind_ok.mp h
      cases h
      simp only [if_neg hin, addStacktrace_state hadd]

/-- Without the call stacks, the loop is the one that all other results are about. -/
theorem step_state {e : Event} (h : s.step bfd cfg e = .ok s') : Convert.step cfg s.state e = .ok s'.state := by
  unfold step at h
  by_cases hskip : cfg.skips e = true
  · rw [if_pos hskip] at h
    cases h
    exact if_pos hskip
  · rw [if_neg hskip] at h
    refine (if_neg hskip).trans ?_
    cases e with
    | access ev => exact handleAccess_state h
    | alloc | free | lockOp | other =>
      obtain ⟨σ, hd, h⟩ := bind_ok.mp h
      cases h
      exact mapError_ok.mp hd

/-- Every call stack in the table is in the file, and nothing else is. -/
structure Stored (bfd : Bfd) (cfg : Config) (s : WithStacktraces) (out : List (AccessEvent × Nat)) : Prop where
  looked : Looked bfd cfg.kernelBaseDir s.functionAddresses
  traces : s.state.TracesFresh
  below : ∀ r ∈ s.stacktracesOFile, r.id < s.state.curStacktraceID
  filed : ∀ p ∈ s.state.stacktraces,
    IsCallStack bfd cfg.kernelBaseDir p.2 p.1 (s.stacktracesOFile.filter (fun r => r.id = p.2))
  known : ∀ p ∈ out, ∃ i, s.state.stacktraces.lookup p.1.stackKey = some i

namespace Stored

variable {out : List (AccessEvent × Nat)}

theorem congr (h : s.Stored bfd cfg out) {σ : State} (hs : σ.stacktraces = s.state.stacktraces)
    (hc : σ.curStacktraceID = s.state.curStacktraceID) : Stored bfd cfg { s with state := σ } out where
  looked := h.looked
  traces := ⟨by rw [hs, hc]; exact h.traces.below, by rw [hs]; exact h.traces.ids⟩
  below := by
    rw [hc]
    exact h.below
  filed := by
    rw [hs]
    exact h.filed
  known := by
    rw [hs]
    exact h.known

/-- A new call stack goes to the end of the file, under an id that no row has. -/
theorem added (h : s.Stored bfd cfg out) {e : AccessEvent} {i id : Nat}
    (hadd : s.addStacktrace bfd cfg.kernelBaseDir e.instrPtr e.stacktrace = .ok (i, s')) :
    s'.Stored bfd cfg (out ++ [(e, id)]) := by
  obtain ⟨j, new, next, heq, hlook, hfresh⟩ := addStacktrace_spec h.traces e.instrPtr e.stacktrace
  have hstate : s'.state = { s.state with stacktraces := s.state.stacktraces ++ new, curStacktraceID := next } :=
    congrArg Prod.snd ((addStacktrace_state hadd).symm.trans heq)
  have hknown : ∀ p ∈ out ++ [(e, id)], ∃ i, s'.state.stacktraces.lookup p.1.stackKey = some i := by
    rw [hstate]
    intro p hp
    rcases List.mem_append.mp hp with hp | hp
    · obtain ⟨k, hk⟩ := h.known p hp
      exact ⟨k, by simp [List.lookup_append, hk]⟩
    · rw [List.mem_singleton] at hp
      subst hp
      exact ⟨j, hlook⟩
  unfold addStacktrace at hadd
  dsimp only at hadd
  split at hadd
  · cases hadd
    exact ⟨h.looked, h.traces, h.below, h.filed, hknown⟩
  · obtain ⟨⟨rows, seen⟩, hrows, hadd⟩ := bind_ok.mp hadd
    obtain ⟨hseen, hstack⟩ := writeFrames_stack h.looked hrows
    have hid := hstack.id_eq
    rw [← hstate] at hfresh
    cases hadd
    refine ⟨hseen, hfresh, ?_, ?_, hknown⟩
    · intro r hr
      rcases List.mem_append.mp hr with hr | hr
      · exact Nat.lt_succ_of_lt (h.below r hr)
      · rw [hid r hr]
        exact Nat.lt_succ_self _
    · intro p hp
      rcases List.mem_append.mp hp with hp | hp
      · -- Rows of the new call stack are not among those of an old one.
        have hnone : rows.filter (fun r => decide (r.id = p.2)) = [] := by
          rw [List.filter_eq_nil_iff]
          intro r hr
          have := h.traces.below p hp
          have := hid r hr
          simp only [decide_eq_true_eq]
          omega
        dsimp only
        rw [List.filter_append, hnone, List.append_nil]
        exact h.filed p hp
      · rw [List.mem_singleton] at hp
        subst hp
        have hold : s.stacktracesOFile.filter (fun r => decide (r.id = s.state.curStacktraceID)) = [] := by
          rw [List.filter_eq_nil_iff]
          intro r hr
          have := h.below r hr
          simp only [decide_eq_true_eq]
          omega
        have hall : rows.filter (fun r => decide (r.id = s.state.curStacktraceID)) = rows := by
          rw [List.filter_eq_self]
          intro r hr
          simpa using hid r hr
        dsimp only
        rw [List.filter_append, hold, hall, List.nil_append]
        exact hstack

theorem step (h : s.Stored bfd cfg out) {e : Event} (hst : WithStacktraces.step bfd cfg s e = .ok s') :
    s'.Stored bfd cfg (out ++ taken s.state e) := by
  unfold WithStacktraces.step at hst
  by_cases hskip : cfg.skips e = true
  · rw [if_pos hskip] at hst
    cases hst
    have hout : taken s.state e = [] := by
      cases e <;> simp_all [Config.skips, Event.isSeqlock, taken]
    rw [hout, List.append_nil]
    exact h.congr rfl rfl
  · rw [if_neg hskip] at hst
    have hframe := attributed_frame cfg s.state e
    have hat : Stored bfd cfg { s with state := attributed cfg s.state e } out := by
      refine h.congr ?_ ?_ <;> rw [hframe]
    by_cases hev : ∃ ev, e = .access ev
    · obtain ⟨ev, rfl⟩ := hev
      have hactive : (attributed cfg s.state (.access ev)).activeAllocs = s.state.activeAllocs := by rw [hframe]
      simp only [WithStacktraces.handleAccess] at hst
      rw [hactive] at hst
      cases ha : s.state.activeAllocs[ev.baseAddress]? with
      | none =>
        simp only [ha] at hst
        cases hst
        have hout : taken s.state (.access ev) = [] := by simp [taken, ha]
        rw [hout, List.append_nil]
        exact hat.congr rfl rfl
      | some a =>
        simp only [ha] at hst
        split at hst
        · cases hst
        · obtain ⟨⟨i, s₁⟩, hadd, hst⟩ := bind_ok.mp hst
          cases hst
          have hout : taken s.state (.access ev) = [(ev, a.id)] := by simp [taken, ha]
          rw [hout]
          exact (hat.added hadd).congr rfl rfl
    · have hne : ∀ ev, e ≠ .access ev := fun ev hev' => hev ⟨ev, hev'⟩
      obtain ⟨σ, hd, hst'⟩ : ∃ σ, dispatch cfg (attributed cfg s.state e) e = .ok σ ∧ s' = { s with state := σ } := by
        cases e with
        | access ev => exact absurd rfl (hne ev)
        | alloc | free | lockOp | other =>
          obtain ⟨σ, hd, hst⟩ := bind_ok.mp hst
          cases hst
          exact ⟨σ, mapError_ok.mp hd, rfl⟩
      subst hst'
      have hout : taken s.state e = [] := by
        cases e with
        | access ev => exact absurd rfl (hne ev)
        | _ => rfl
      rw [hout, List.append_nil]
      have hkept := dispatch_kept (f := fun σ => (σ.stacktraces, σ.curStacktraceID)) (fun _ _ _ _ _ _ _ _ => rfl) hd hne
      simp only [Prod.mk.injEq] at hkept
      exact hat.congr hkept.1 hkept.2

theorem init (bfd : Bfd) (cfg : Config) : (WithStacktraces.init cfg).Stored bfd cfg [] where
  looked := .empty
  traces := ⟨by simp [WithStacktraces.init, State.init], by simp [WithStacktraces.init, State.init]⟩
  below := by simp [WithStacktraces.init]
  filed := by simp [WithStacktraces.init, State.init]
  known := by simp

end Stored

end WithStacktraces

/-- In a run that writes its call stacks, the rows with the id that an access carries are the
call stack of the access: its instruction pointer, then the return addresses of its event. -/
theorem stacktraces_recovered {bfd : Bfd} {cfg : Config} {trace : List Event} {s : WithStacktraces}
    (h : run (WithStacktraces.step bfd cfg) trace (.init cfg) = .ok s) :
    run (step cfg) trace (.init cfg) = .ok s.state ∧
      ∀ p ∈ accepted cfg trace, IsCallStack bfd cfg.kernelBaseDir (s.state.stackId p.1) p.1.stackKey
        (s.stacktracesOFile.filter (fun r => r.id = s.state.stackId p.1)) := by
  have hproj : ∀ (s : WithStacktraces) e s', s.step bfd cfg e = .ok s' → step cfg s.state e = .ok s'.state :=
    fun s e s' => WithStacktraces.step_state
  have hstored := run_trail (f := fun s e => taken s.state e) (R := WithStacktraces.Stored bfd cfg) (E := fun _ => True)
    (fun _ _ _ _ h _ hst => h.step hst) (fun _ _ => trivial) (.init bfd cfg) h
  rw [List.nil_append, trail_project hproj taken h] at hstored
  refine ⟨run_project hproj h, ?_⟩
  intro p hp
  obtain ⟨i, hi⟩ := hstored.known p hp
  obtain ⟨l, r, he, -⟩ := List.lookup_eq_some_iff.mp hi
  have hid : s.state.stackId p.1 = i := by simp [State.stackId, hi]
  rw [hid]
  exact hstored.filed (p.1.stackKey, i) (by rw [he]; simp)

/-- An access with two return addresses, in an image without code. -/
def calledAccess : List Event := [inodeAlloc, .access ⟨.read, 2, 0x1008, 4, 0x1000, 0xc0de, "0xc1,0xc2,", 0⟩]

theorem calledAccess_recovered : ∃ s, run (WithStacktraces.step ⟨[], fun _ => []⟩ (.trackAll false)) calledAccess
      (.init (.trackAll false)) = .ok s ∧
    ∀ p ∈ accepted (.trackAll false) calledAccess, IsCallStack ⟨[], fun _ => []⟩ "/linux" (s.state.stackId p.1)
      p.1.stackKey (s.stacktracesOFile.filter (fun r => r.id = s.state.stackId p.1)) := by
  obtain ⟨s, h⟩ : ∃ s, run (WithStacktraces.step ⟨[], fun _ => []⟩ (.trackAll false)) calledAccess
      (.init (.trackAll false)) = .ok s := ⟨_, rfl⟩
  exact ⟨s, h, (stacktraces_recovered h).2⟩

end LockDoc.Convert
