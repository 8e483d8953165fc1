import LockDoc.Hypothesizer.Input
import LockDoc.Convert.Step

/-!
# The columns of the trace

The first half of the main loop: a line is split into its columns, and these are read into
variables of `main`. A conversion that throws leaves the variables as they are at that
moment, and the loop goes on with them. The second `switch` is that of the event loop.
-/
namespace LockDoc.Convert

open FallibleRun
open Hypothesizer (getlines isspace isdigit)

/-- What the conversions of the standard library throw. -/
inductive Thrown where
  | invalidArgument
  | outOfRange
  deriving DecidableEq, Repr

def digitOf (c : Char) : Option Nat :=
  if '0' ≤ c ∧ c ≤ '9' then some (c.toNat - '0'.toNat)
  else if 'a' ≤ c ∧ c ≤ 'f' then some (c.toNat - 'a'.toNat + 10)
  else if 'A' ≤ c ∧ c ≤ 'F' then some (c.toNat - 'A'.toNat + 10)
  else none

def isDigitIn (base : Nat) (c : Char) : Bool := (digitOf c).any (· < base)

def valueIn (base : Nat) (digits : List Char) : Nat := digits.foldl (fun n c => base * n + (digitOf c).getD 0) 0

/-- `strtoull` and its relatives: blanks, a sign, `0x` in base 16, and at least one digit.
What follows is ignored. The result is the sign and the magnitude. -/
def scanNumber (base : Nat) (text : List Char) : Option (Bool × Nat) :=
  let text := text.dropWhile isspace
  let negative := text.head? = some '-'
  let text := if text.head? = some '-' ∨ text.head? = some '+' then text.tail else text
  let hasPrefix := base = 16 ∧ text.head? = some '0' ∧ (text[1]? = some 'x' ∨ text[1]? = some 'X') ∧
    (text[2]?).any (isDigitIn 16)
  let digits := (if hasPrefix then text.drop 2 else text).takeWhile (isDigitIn base)
  if digits = [] then none else some (negative, valueIn base digits)

/-- `std::stoull`, and `std::stoul` where both types have 64 bits. -/
def stoull (base : Nat) (text : String) : Except Thrown Nat :=
  match scanNumber base text.toList with
  | none => .error .invalidArgument
  | some (negative, n) =>
    if 2 ^ 64 ≤ n then .error .outOfRange
    else if negative then .ok ((2 ^ 64 - n) % 2 ^ 64)
    else .ok n

/-- `std::stoi`. -/
def stoi (text : String) : Except Thrown Int :=
  match scanNumber 10 text.toList with
  | none => .error .invalidArgument
  | some (negative, n) =>
    let i : Int := if negative then -n else n
    if i < -2 ^ 31 ∨ 2 ^ 31 ≤ i then .error .outOfRange else .ok i

/-- The variables of `main` that the columns are read into. -/
structure Vars where
  action : Char
  typeStr : String
  file : String
  lockType : String
  stacktrace : String
  lockMember : String
  address : Nat
  size : Nat
  line : Nat
  baseAddress : Nat
  instrPtr : Nat
  flags : Nat
  lockOP : LockOp
  ctx : Int
  deriving DecidableEq, Repr

def Vars.init : Vars where
  action := '.'
  typeStr := ""
  file := ""
  lockType := ""
  stacktrace := ""
  lockMember := ""
  address := 0x1337
  size := 4711
  line := 1337
  baseAddress := 0x4711
  instrPtr := 0xc0ffee
  flags := 0x4712
  lockOP := .pWrite
  ctx := 0

/-- The variables before the columns of a line are read; five of them keep what an earlier
line left in them. -/
def Vars.fresh (v : Vars) : Vars :=
  { v with
    address := 0x1337
    size := 4711
    line := 1337
    baseAddress := 0x4711
    instrPtr := 0xc0ffee
    flags := 0x4712
    lockType := "empty"
    file := "empty"
    stacktrace := "empty" }

/-- The ways out of the `try` block. -/
inductive Failure where
  | thrown (t : Thrown)
  | exitFailure
  deriving DecidableEq, Repr

/-- Reading columns: a failure keeps the variables that are already assigned. -/
abbrev Parse := ExceptT Failure (StateM Vars)

/-- The outcome and the variables it leaves. -/
def Parse.result {α : Type} (x : Parse α) (v : Vars) : Except Failure α × Vars := x.run v

def Parse.convert {α : Type} (x : Except Thrown α) : Parse α :=
  match x with
  | .ok a => pure a
  | .error t => throw (.thrown t)

/-- `lineElems.at(i)`; the number of columns has been checked. -/
def column (lineElems : List String) (i : Nat) : String := lineElems.getD i ""

/-- `lineElems.at(1).at(0)`. -/
def firstChar (text : String) : Except Thrown Char :=
  match text.toList.head? with
  | none => .error .outOfRange
  | some c => .ok c

def parseAlloc (lineElems : List String) : Parse Unit := do
  modify fun v => { v with typeStr := column lineElems 6 }
  let baseAddress ← Parse.convert (stoull 16 (column lineElems 3))
  modify fun v => { v with baseAddress }
  let size ← Parse.convert (stoull 10 (column lineElems 4))
  modify fun v => { v with size }

/-- The values of `LOCK_OP`. -/
def lockOpOf (temp : Int) : Option LockOp :=
  if temp = 0 then some .pRead
  else if temp = 1 then some .pWrite
  else if temp = 2 then some .vRead
  else if temp = 3 then some .vWrite
  else none

def parseLockOp (ctxTracing : Bool) (lineElems : List String) : Parse Unit := do
  let address ← Parse.convert (stoull 16 (column lineElems 3))
  modify fun v => { v with address, lockMember := column lineElems 7, file := column lineElems 8 }
  let line ← Parse.convert (stoull 10 (column lineElems 9))
  modify fun v => { v with line, lockType := column lineElems 6 }
  let flags ← Parse.convert (stoi (column lineElems 12))
  modify fun v => { v with flags := toU64 flags }
  let ctx ← (if ctxTracing then do
      let ctx ← Parse.convert (stoull 10 (column lineElems 13))
      pure (Int.bmod ctx (2 ^ 64))
    else pure 0)
  modify fun v => { v with ctx }
  let temp ← Parse.convert (stoi (column lineElems 2))
  match lockOpOf temp with
  | some lockOP => modify fun v => { v with lockOP }
  | none => throw .exitFailure

def parseAccess (lineElems : List String) : Parse Unit := do
  let address ← Parse.convert (stoull 16 (column lineElems 3))
  modify fun v => { v with address }
  let size ← Parse.convert (stoull 10 (column lineElems 4))
  modify fun v => { v with size }
  let baseAddress ← Parse.convert (stoull 16 (column lineElems 5))
  modify fun v => { v with baseAddress }
  let instrPtr ← Parse.convert (stoull 16 (column lineElems 10))
  modify fun v => { v with instrPtr, stacktrace := column lineElems 11 }
  let ctx ← Parse.convert (stoull 10 (column lineElems 13))
  modify fun v => { v with ctx := Int.bmod ctx (2 ^ 64) }

/-- The `try` block. -/
def parseColumns (ctxTracing : Bool) (lineElems : List String) : Parse Unit := do
  let action ← Parse.convert (firstChar (column lineElems 1))
  modify fun v => { v with action }
  if action = 'a' ∨ action = 'f' then parseAlloc lineElems
  else if action = 'l' then parseLockOp ctxTracing lineElems
  else if action = 'r' ∨ action = 'w' then parseAccess lineElems
  else pure ()

/-- The event that the variables amount to. `handlePV` takes the flags as an `unsigned`. -/
def Vars.event (v : Vars) (ts : Nat) : Event :=
  if v.action = 'a' then .alloc ts v.baseAddress v.size v.typeStr
  else if v.action = 'f' then .free ts v.baseAddress v.size
  else if v.action = 'l' then
    .lockOp ⟨v.lockOP, ts, v.address, v.file, v.line, v.lockMember, v.lockType, v.flags % 2 ^ 32, v.ctx⟩
  else if v.action = 'r' then .access ⟨.read, ts, v.address, v.size, v.baseAddress, v.instrPtr, v.stacktrace, v.ctx⟩
  else if v.action = 'w' then .access ⟨.write, ts, v.address, v.size, v.baseAddress, v.instrPtr, v.stacktrace, v.ctx⟩
  else .other ts v.action

/-- The second half of the loop. `handlePV` gets the variable `ctx` as it is, whether or not
contexts are traced. -/
def dispatchLine (cfg : Config) (σ : State) (e : Event) : Except Abort State :=
  if cfg.skips e then .ok { σ with ts := e.ts }
  else dispatch { cfg with ctxTracing := true } (attributed cfg σ e) e

/-- Everything that ends the loop early. -/
inductive Exit where
  | uncaught
  | exitFailure
  | abort (a : Abort)
  deriving DecidableEq, Repr

/-- The columns of a line. -/
def columns (delimiter : Char) (inputLine : String) : List String :=
  (getlines delimiter inputLine.toList).map String.ofList

/-- One iteration of the main loop. The timestamp is read outside of the `try` block. -/
def processLine (cfg : Config) (delimiter : Char) (s : Vars × State) (inputLine : String) :
    Except Exit (Vars × State) :=
  match stoull 10 (column (columns delimiter inputLine) 0) with
  | .error _ => .error .uncaught
  | .ok ts =>
    if (columns delimiter inputLine).length ≠ 14 then .error .exitFailure
    else
      let (result, v) := (parseColumns cfg.ctxTracing (columns delimiter inputLine)).result s.1.fresh
      if result = .error .exitFailure then .error .exitFailure
      else match dispatchLine cfg s.2 (v.event ts) with
        | .ok σ => .ok (v, σ)
        | .error a => .error (.abort a)

/-- The first line is skipped unless it starts with a digit. -/
def skipHeader : List String → List String
  | [] => []
  | inputLine :: rest => if inputLine.toList.head?.any isdigit then inputLine :: rest else rest

/-- The main loop over the lines of the trace. -/
def readTrace (cfg : Config) (delimiter : Char) (lines : List String) : Except Exit (Vars × State) :=
  run (processLine cfg delimiter) (skipHeader lines) (.init, .init cfg)

/-- `main`, from the lines of the trace to the end. -/
def convertLines (cfg : Config) (delimiter : Char) (lines : List String) : Except Exit State := do
  let (_, σ) ← readTrace cfg delimiter lines
  match finish cfg σ with
  | .ok σ => .ok σ
  | .error a => .error (.abort a)

namespace Parse

/-- Where a sequence of two readings goes, and with which variables. -/
theorem result_bind {α β : Type} (x : Parse α) (f : α → Parse β) (v : Vars) :
    (x >>= f).result v = match x.result v with
      | (.ok a, w) => (f a).result w
      | (.error e, w) => (.error e, w) := by
  simp only [result, bind, ExceptT.bind, ExceptT.run, StateT.bind, ExceptT.mk, ExceptT.bindCont]
  rcases x v with ⟨a | a, w⟩ <;> rfl

theorem result_bind_ok {α β : Type} {x : Parse α} {f : α → Parse β} {v w : Vars} {b : β} :
    (x >>= f).result v = (.ok b, w) ↔ ∃ a u, x.result v = (.ok a, u) ∧ (f a).result u = (.ok b, w) := by
  rw [result_bind]
  rcases x.result v with ⟨a | a, u⟩
  · simp
  · simp

@[simp] theorem result_modify (f : Vars → Vars) (v : Vars) : (modify f : Parse Unit).result v = (.ok (), f v) := rfl

@[simp] theorem result_pure {α : Type} (a : α) (v : Vars) : (pure a : Parse α).result v = (.ok a, v) := rfl

@[simp] theorem result_throw {α : Type} (e : Failure) (v : Vars) : (throw e : Parse α).result v = (.error e, v) := rfl

theorem result_convert_ok {α : Type} {x : Except Thrown α} {v w : Vars} {a : α} :
    (Parse.convert x).result v = (.ok a, w) ↔ x = .ok a ∧ w = v := by
  cases x with
  | error t => simp [Parse.convert]
  | ok b => simp [Parse.convert, eq_comm]

/-- A part of the variables that a reading leaves alone, whether or not it fails. -/
def Keeps {α γ : Type} (f : Vars → γ) (x : Parse α) : Prop := ∀ v, f (x.result v).2 = f v

theorem Keeps.bind {α β γ : Type} {f : Vars → γ} {x : Parse α} {g : α → Parse β} (hx : Keeps f x)
    (hg : ∀ a, Keeps f (g a)) : Keeps f (x >>= g) := by
  intro v
  have h := hx v
  rw [result_bind]
  generalize x.result v = p at h
  obtain ⟨e | a, w⟩ := p
  · exact h
  · exact (hg a w).trans h

theorem keeps_modify {γ : Type} {f : Vars → γ} {m : Vars → Vars} (h : ∀ v, f (m v) = f v) :
    Keeps f (modify m : Parse Unit) := h

theorem keeps_convert {α γ : Type} (f : Vars → γ) (x : Except Thrown α) : Keeps f (Parse.convert x) := by
  intro v
  cases x <;> rfl

/-- A part of the variables that a reading leaves alone if it fails. -/
def KeepsOnError {α γ : Type} (f : Vars → γ) (x : Parse α) : Prop :=
  ∀ v e w, x.result v = (.error e, w) → f w = f v

theorem Keeps.onError {α γ : Type} {f : Vars → γ} {x : Parse α} (h : Keeps f x) : KeepsOnError f x := by
  intro v e w hx
  have := h v
  rwa [hx] at this

theorem KeepsOnError.bind {α β γ : Type} {f : Vars → γ} {x : Parse α} {g : α → Parse β} (hx : Keeps f x)
    (hg : ∀ a, KeepsOnError f (g a)) : KeepsOnError f (x >>= g) := by
  intro v e w h
  have hkeep := hx v
  rw [result_bind] at h
  generalize x.result v = p at h hkeep
  obtain ⟨d | a, u⟩ := p
  · simp only [Prod.mk.injEq] at h
    rw [← h.2]
    exact hkeep
  · exact (hg a u e w h).trans hkeep

theorem keepsOnError_modify {γ : Type} (f : Vars → γ) (m : Vars → Vars) :
    KeepsOnError f (modify m : Parse Unit) := by
  intro v e w h
  simp at h

end Parse

open Parse

/-- The context of a lock operation that is read without a failure is the one it is kept under. -/
theorem parseLockOp_ctx {ctxTracing : Bool} {lineElems : List String} {v w : Vars}
    (h : (parseLockOp ctxTracing lineElems).result v = (.ok (), w)) : ctxTracing = true ∨ w.ctx = 0 := by
  cases ctxTracing with
  | true => exact .inl rfl
  | false =>
    refine .inr ?_
    obtain ⟨address, v₁, -, h⟩ := result_bind_ok.mp h
    obtain ⟨-, v₂, -, h⟩ := result_bind_ok.mp h
    obtain ⟨line, v₃, -, h⟩ := result_bind_ok.mp h
    obtain ⟨-, v₄, -, h⟩ := result_bind_ok.mp h
    obtain ⟨flags, v₅, -, h⟩ := result_bind_ok.mp h
    obtain ⟨-, v₆, -, h⟩ := result_bind_ok.mp h
    obtain ⟨ctx, v₇, hctx, h⟩ := result_bind_ok.mp h
    obtain ⟨_, v₈, hmod, h⟩ := result_bind_ok.mp h
    obtain ⟨temp, v₉, htemp, h⟩ := result_bind_ok.mp h
    have hzero : ctx = 0 := by
      simp only [Bool.false_eq_true, if_false, result_pure, Prod.mk.injEq, Except.ok.injEq] at hctx
      exact hctx.1.symm
    have hset : v₈.ctx = ctx := by
      simp only [result_modify, Prod.mk.injEq, true_and] at hmod
      rw [← hmod]
    have hkeep : v₉ = v₈ := (result_convert_ok.mp htemp).2
    have hw : w.ctx = v₉.ctx := by
      cases hop : lockOpOf temp with
      | none => simp [hop] at h
      | some op =>
        simp only [hop, result_modify, Prod.mk.injEq, true_and] at h
        rw [← h]
    rw [hw, hkeep, hset, hzero]

theorem keeps_parseAlloc (lineElems : List String) : Keeps Vars.action (parseAlloc lineElems) :=
  .bind (keeps_modify fun _ => rfl) fun _ =>
  .bind (keeps_convert _ _) fun _ =>
  .bind (keeps_modify fun _ => rfl) fun _ =>
  .bind (keeps_convert _ _) fun _ => keeps_modify fun _ => rfl

theorem keeps_parseAccess (lineElems : List String) : Keeps Vars.action (parseAccess lineElems) :=
  .bind (keeps_convert _ _) fun _ =>
  .bind (keeps_modify fun _ => rfl) fun _ =>
  .bind (keeps_convert _ _) fun _ =>
  .bind (keeps_modify fun _ => rfl) fun _ =>
  .bind (keeps_convert _ _) fun _ =>
  .bind (keeps_modify fun _ => rfl) fun _ =>
  .bind (keeps_convert _ _) fun _ =>
  .bind (keeps_modify fun _ => rfl) fun _ =>
  .bind (keeps_convert _ _) fun _ => keeps_modify fun _ => rfl

theorem parseColumns_ctx {cfg : Config} {lineElems : List String} {v w : Vars} {ts : Nat} {ev : LockEvent}
    (h : (parseColumns cfg.ctxTracing lineElems).result v = (.ok (), w)) (he : w.event ts = .lockOp ev) :
    cfg.ctxOf ev.ctx = ev.ctx := by
  have hctx : w.action = 'l' ∧ ev.ctx = w.ctx := by
    unfold Vars.event at he
    split_ifs at he with ha hf hl hr hw
    cases he
    exact ⟨hl, rfl⟩
  obtain ⟨action, v₁, -, h⟩ := result_bind_ok.mp h
  obtain ⟨_, v₂, hmod, h⟩ := result_bind_ok.mp h
  have hact : v₂.action = action := by
    simp only [result_modify, Prod.mk.injEq, true_and] at hmod
    rw [← hmod]
  rw [hctx.2, Config.ctxOf]
  split_ifs at h with ha hl hr
  · have hkeep := keeps_parseAlloc lineElems v₂
    rw [h] at hkeep
    rw [← hact, ← hkeep, hctx.1] at ha
    exact absurd ha (by decide)
  · rcases parseLockOp_ctx h with ht | hzero
    · rw [ht, if_pos rfl]
    · rw [hzero, ite_self]
  · have hkeep := keeps_parseAccess lineElems v₂
    rw [h] at hkeep
    rw [← hact, ← hkeep, hctx.1] at hr
    exact absurd hr (by decide)
  · simp only [result_pure, Prod.mk.injEq, true_and] at h
    rw [← h, hact] at hctx
    exact absurd hctx.1 hl

/-- For a context that is not traced the loop over events and the loop over lines agree. -/
theorem dispatchLine_eq_step {cfg : Config} {σ : State} {e : Event}
    (h : ∀ ev, e = .lockOp ev → cfg.ctxOf ev.ctx = ev.ctx) : dispatchLine cfg σ e = step cfg σ e := by
  unfold dispatchLine step
  refine if_congr (by simp [Config.skips]) rfl ?_
  change dispatch _ (attributed cfg σ e) e = dispatch cfg (attributed cfg σ e) e
  cases e with
  | lockOp ev =>
    simp only [dispatch, handlePV, h ev rfl]
    rfl
  | alloc ts base size typeStr => rfl
  | free ts base size => rfl
  | access ev => rfl
  | other ts c => rfl

/-- The size is assigned last. -/
theorem parseAlloc_size (lineElems : List String) : KeepsOnError Vars.size (parseAlloc lineElems) :=
  .bind (keeps_modify fun _ => rfl) fun _ =>
  .bind (keeps_convert _ _) fun _ =>
  .bind (keeps_modify fun _ => rfl) fun _ =>
  .bind (keeps_convert _ _) fun _ => keepsOnError_modify _ _

/-- The operation is assigned last. -/
theorem parseLockOp_lockOP (ctxTracing : Bool) (lineElems : List String) :
    KeepsOnError Vars.lockOP (parseLockOp ctxTracing lineElems) := by
  have hctx : Keeps Vars.lockOP (if ctxTracing then do
      let ctx ← Parse.convert (stoull 10 (column lineElems 13))
      pure (Int.bmod ctx (2 ^ 64))
    else pure 0 : Parse Int) := by
    split
    · exact .bind (keeps_convert _ _) fun _ _ => rfl
    · exact fun _ => rfl
  exact
    .bind (keeps_convert _ _) fun _ =>
    .bind (keeps_modify fun _ => rfl) fun _ =>
    .bind (keeps_convert _ _) fun _ =>
    .bind (keeps_modify fun _ => rfl) fun _ =>
    .bind (keeps_convert _ _) fun _ =>
    .bind (keeps_modify fun _ => rfl) fun _ =>
    .bind hctx fun _ =>
    .bind (keeps_modify fun _ => rfl) fun _ =>
    .bind (keeps_convert _ _) fun temp => by
      cases lockOpOf temp with
      | none => exact Keeps.onError fun _ => rfl
      | some op => exact keepsOnError_modify _ _

/-- The action decides which columns are read. -/
theorem parseColumns_of_action {ctxTracing : Bool} {lineElems : List String} {action : Char}
    (h : firstChar (column lineElems 1) = .ok action) (v : Vars) :
    (parseColumns ctxTracing lineElems).result v =
      (if action = 'a' ∨ action = 'f' then parseAlloc lineElems
        else if action = 'l' then parseLockOp ctxTracing lineElems
        else if action = 'r' ∨ action = 'w' then parseAccess lineElems
        else pure ()).result { v with action } := by
  unfold parseColumns
  rw [h]
  rfl

/-- Lines that are read without a failure, and the events they stand for. -/
inductive Reads (cfg : Config) (delimiter : Char) : Vars → List String → List Event → Prop
  | nil (v : Vars) : Reads cfg delimiter v [] []
  | cons (v w : Vars) (inputLine : String) (lines : List String) (ts : Nat) (events : List Event)
      (hts : stoull 10 (column (columns delimiter inputLine) 0) = .ok ts)
      (hlen : (columns delimiter inputLine).length = 14)
      (hparse : (parseColumns cfg.ctxTracing (columns delimiter inputLine)).result v.fresh = (.ok (), w))
      (rest : Reads cfg delimiter w lines events) :
      Reads cfg delimiter v (inputLine :: lines) (w.event ts :: events)

theorem processLine_parsed {cfg : Config} {delimiter : Char} {v w : Vars} {σ : State} {inputLine : String} {ts : Nat}
    (hts : stoull 10 (column (columns delimiter inputLine) 0) = .ok ts)
    (hlen : (columns delimiter inputLine).length = 14)
    (hparse : (parseColumns cfg.ctxTracing (columns delimiter inputLine)).result v.fresh = (.ok (), w))
    (s : Vars × State) :
    processLine cfg delimiter (v, σ) inputLine = .ok s ↔ s.1 = w ∧ step cfg σ (w.event ts) = .ok s.2 := by
  have hd : dispatchLine cfg σ (w.event ts) = step cfg σ (w.event ts) :=
    dispatchLine_eq_step fun ev he => parseColumns_ctx hparse he
  unfold processLine
  simp only [hts, hlen, hparse, ne_eq, not_true_eq_false, if_false, reduceCtorEq, hd]
  cases step cfg σ (w.event ts) with
  | error a => simp
  | ok σ' => simp [Prod.ext_iff, eq_comm]

/-- On lines that are read without a failure the loop over lines is the loop over events. -/
theorem run_reads {cfg : Config} {delimiter : Char} {v : Vars} {lines : List String} {events : List Event}
    (h : Reads cfg delimiter v lines events) (σ σ' : State) :
    (∃ w, run (processLine cfg delimiter) lines (v, σ) = .ok (w, σ')) ↔ run (step cfg) events σ = .ok σ' := by
  induction h generalizing σ with
  | nil v => simp
  | cons v w inputLine lines ts events hts hlen hparse rest ih =>
    simp only [run_cons_ok, processLine_parsed hts hlen hparse]
    constructor
    · rintro ⟨u, ⟨u₁, τ⟩, ⟨rfl, hτ⟩, hrun⟩
      exact ⟨τ, hτ, (ih τ).mp ⟨u, hrun⟩⟩
    · rintro ⟨τ, hτ, hrun⟩
      obtain ⟨u, hu⟩ := (ih τ).mpr hrun
      exact ⟨u, (w, τ), ⟨rfl, hτ⟩, hu⟩

/-- The conversion of such lines is that of their events. -/
theorem convertLines_reads {cfg : Config} {delimiter : Char} {lines : List String} {trace : List Event}
    (h : Reads cfg delimiter .init (skipHeader lines) trace) (σ : State) :
    convertLines cfg delimiter lines = .ok σ ↔ convert cfg trace = .ok σ := by
  have hend : ∀ τ, (match finish cfg τ with
      | .ok σ => Except.ok σ
      | .error a => .error (Exit.abort a)) = .ok σ ↔ finish cfg τ = .ok σ := by
    intro τ
    cases finish cfg τ <;> simp
  unfold convertLines convert
  rw [bind_ok, bind_ok]
  simp only [Prod.exists, hend]
  constructor
  · rintro ⟨w, τ, hread, hfin⟩
    exact ⟨τ, (run_reads h _ _).mp ⟨w, hread⟩, hfin⟩
  · rintro ⟨τ, hrun, hfin⟩
    obtain ⟨w, hread⟩ := (run_reads h _ _).mpr hrun
    exact ⟨w, τ, hread, hfin⟩

end LockDoc.Convert
