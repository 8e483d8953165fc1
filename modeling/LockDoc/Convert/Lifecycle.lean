import LockDoc.Lib.Worklist
import LockDoc.Convert.Allocation

/-!
# The life cycle of allocations

What a trace says about allocations, without the program: an `alloc` event of a known
data type at a base address that is not occupied starts a lifetime, and the next `free`
event at that address ends it. The rows of `allocations.csv` are these lifetimes, as long
as no event of an unknown data type borrows the name of a known subclass.
-/
namespace LockDoc.Convert

open FallibleRun
open Worklist (okAnd okAnd_iff)

/-- An `alloc` event of the trace, by its position, and the time of the matching `free`. -/
structure Lifetime where
  position : Nat
  base : Nat
  start : Nat
  stop : Option Nat
  deriving DecidableEq, Repr

/-- The timestamp of the first `free` event at a base address. -/
def firstFree (base : Nat) : List Event → Option Nat
  | [] => none
  | .free ts base' _ :: rest => if base' = base then some ts else firstFree base rest
  | _ :: rest => firstFree base rest

instance (cfg : Config) (typeStr : String) : Decidable (cfg.knows typeStr) :=
  inferInstanceAs (Decidable (∃ t ∈ cfg.types, t.name = dataTypeName typeStr))

/-- The lifetimes that start in a trace, given the occupied base addresses and the number
of events before. -/
def lifetimes (cfg : Config) : Nat → Finset Nat → List Event → List Lifetime
  | _, _, [] => []
  | n, occupied, .alloc ts base _ typeStr :: rest =>
    if base ∉ occupied ∧ cfg.knows typeStr then
      ⟨n, base, ts, firstFree base rest⟩ :: lifetimes cfg (n + 1) (insert base occupied) rest
    else lifetimes cfg (n + 1) occupied rest
  | n, occupied, .free _ base _ :: rest => lifetimes cfg (n + 1) (occupied.erase base) rest
  | n, occupied, _ :: rest => lifetimes cfg (n + 1) occupied rest

/-- The columns of a row that come from the trace. -/
def AllocRow.life (row : AllocRow) : Nat × Nat × Option Nat := (row.baseAddress, row.start, row.stop)

def Lifetime.life (l : Lifetime) : Nat × Nat × Option Nat := (l.base, l.start, l.stop)

/-- A `free` without an active allocation, or an `alloc` at an occupied base address. -/
def Unmatched (σ : State) : Event → Prop
  | .alloc _ base _ _ => σ.activeAllocs[base]? ≠ none
  | .free _ base _ => σ.activeAllocs[base]? = none
  | _ => False

/-- `allocations.csv` tells the lifetimes of the trace. -/
structure Lifecycle (cfg : Config) (events : List Event) (σ : State) : Prop where
  rows : ∃ rows, σ.allocOFile = (State.init cfg).allocOFile ++ rows ∧
    (rows.map AllocRow.life).Perm ((lifetimes cfg 0 ∅ events).map Lifetime.life)
  distinct : (σ.allocOFile.map AllocRow.id).Nodup
  unmatched : ∀ pre e post τ τ', events = pre ++ e :: post → run (step cfg) pre (.init cfg) = .ok τ →
    step cfg τ e = .ok τ' → Unmatched τ e → τ'.allocs = τ.allocs
  separated : ∀ l ∈ lifetimes cfg 0 ∅ events, ∀ l' ∈ lifetimes cfg 0 ∅ events, l.base = l'.base →
    l.position < l'.position →
    ∃ k ts size, l.position < k ∧ k < l'.position ∧ events[k]? = some (.free ts l.base size)

/-- Where the subclass name of an `alloc` event is known already, so is its data type. -/
def KnownType (cfg : Config) (σ : State) (e : Event) : Prop :=
  ∀ ts base size typeStr, e = .alloc ts base size typeStr → σ.activeAllocs[base]? = none →
    σ.hasSubclass typeStr → cfg.knows typeStr

theorem Unmatched.same {cfg : Config} {σ σ' : State} {e : Event} (hu : Unmatched σ e) (h : step cfg σ e = .ok σ') :
    σ'.allocs = σ.allocs := by
  have ha := step_accounted h
  generalize σ'.allocs = v at ha
  cases ha with
  | rejected _ _ => rfl
  | admitted ts base size typeStr i subclasses next hfree hc => exact absurd hfree hu
  | freed ts base size a ha =>
    simp only [Unmatched] at hu
    rw [ha] at hu
    cases hu

/-- A `free` at the address of the lifetime stands before it, if the address is occupied. -/
def AfterFree (n : Nat) (occupied : Finset Nat) (events : List Event) (l : Lifetime) : Prop :=
  n ≤ l.position ∧ (l.base ∈ occupied →
    ∃ k ts size, n + k < l.position ∧ events[k]? = some (.free ts l.base size))

/-- One event further on, everything is shifted by one. -/
theorem AfterFree.shift {n : Nat} {occupied occupied' : Finset Nat} {e : Event} {rest : List Event} {l : Lifetime}
    (h : AfterFree (n + 1) occupied' rest l)
    (hocc : l.base ∈ occupied → l.base ∈ occupied' ∨ ∃ ts size, e = .free ts l.base size) :
    AfterFree n occupied (e :: rest) l := by
  obtain ⟨hn, hk⟩ := h
  refine ⟨by omega, fun hl => ?_⟩
  rcases hocc hl with hl | ⟨ts, size, rfl⟩
  · obtain ⟨k, ts, size, hlt, hat⟩ := hk hl
    exact ⟨k + 1, ts, size, by omega, by simpa using hat⟩
  · exact ⟨0, ts, size, by omega, rfl⟩

theorem lifetimes_afterFree {cfg : Config} {events : List Event} {n : Nat} {occupied : Finset Nat} {l : Lifetime}
    (h : l ∈ lifetimes cfg n occupied events) : AfterFree n occupied events l := by
  induction events generalizing n occupied with
  | nil => simp [lifetimes] at h
  | cons e rest ih =>
    cases e with
    | alloc ts base size typeStr =>
      simp only [lifetimes] at h
      split at h
      · rename_i hnew
        rcases List.mem_cons.mp h with rfl | h
        · exact ⟨Nat.le_refl _, fun hocc => absurd hocc hnew.1⟩
        · exact (ih h).shift fun hocc => .inl (Finset.mem_insert_of_mem hocc)
      · exact (ih h).shift .inl
    | free ts base size =>
      refine (ih h).shift fun hocc => ?_
      by_cases hb : l.base = base
      · exact .inr ⟨ts, size, by rw [hb]⟩
      · exact .inl (Finset.mem_erase.mpr ⟨hb, hocc⟩)
    | lockOp e => exact (ih h).shift .inl
    | access e => exact (ih h).shift .inl
    | other ts c => exact (ih h).shift .inl

def FreedBetween (n : Nat) (events : List Event) (l l' : Lifetime) : Prop :=
  ∃ k ts size, l.position < n + k ∧ n + k < l'.position ∧ events[k]? = some (.free ts l.base size)

theorem FreedBetween.shift {n : Nat} {e : Event} {rest : List Event} {l l' : Lifetime}
    (h : FreedBetween (n + 1) rest l l') : FreedBetween n (e :: rest) l l' := by
  obtain ⟨k, ts, size, hk, hk', hat⟩ := h
  exact ⟨k + 1, ts, size, by omega, by omega, by simpa using hat⟩

/-- Two lifetimes at one base address are separated by a `free` there. -/
theorem lifetimes_separated {cfg : Config} {events : List Event} {n : Nat} {occupied : Finset Nat} {l l' : Lifetime}
    (h : l ∈ lifetimes cfg n occupied events) (h' : l' ∈ lifetimes cfg n occupied events) (hb : l.base = l'.base)
    (hlt : l.position < l'.position) : FreedBetween n events l l' := by
  induction events generalizing n occupied with
  | nil => simp [lifetimes] at h
  | cons e rest ih =>
    cases e with
    | alloc ts base size typeStr =>
      simp only [lifetimes] at h h'
      split at h
      · rename_i hnew
        rw [if_pos hnew] at h'
        rcases List.mem_cons.mp h' with rfl | h'
        · -- nothing lies before the first lifetime
          rcases List.mem_cons.mp h with rfl | h
          · exact absurd hlt (Nat.lt_irrefl _)
          · have := (lifetimes_afterFree h).1
            simp only at hlt
            omega
        · rcases List.mem_cons.mp h with rfl | h
          · obtain ⟨-, hk⟩ := lifetimes_afterFree h'
            obtain ⟨k, ts', size', hk, hat⟩ := hk (by simp [← hb])
            refine ⟨k + 1, ts', size', ?_, by omega, ?_⟩
            · change n < n + (k + 1)
              omega
            · rw [hb]
              simpa using hat
          · exact (ih h h').shift
      · rename_i hold
        rw [if_neg hold] at h'
        exact (ih h h').shift
    | free ts base size => exact (ih h h').shift
    | lockOp e => exact (ih h h').shift
    | access e => exact (ih h h').shift
    | other ts c => exact (ih h h').shift

/-- The lifetimes of the active allocations, with what the rest of the trace says about them. -/
def openLives (σ : State) (rest : List Event) : List (Nat × Nat × Option Nat) :=
  σ.activeAllocs.toList.map (fun kv => (kv.1, kv.2.start, firstFree kv.1 rest))

theorem openLives_congr {σ σ' : State} {e : Event} {rest : List Event} (h : σ'.activeAllocs = σ.activeAllocs)
    (he : ∀ base a, σ.activeAllocs[base]? = some a → firstFree base (e :: rest) = firstFree base rest) :
    openLives σ (e :: rest) = openLives σ' rest := by
  unfold openLives
  rw [h]
  apply List.map_congr_left
  rintro ⟨base, a⟩ ha
  rw [he base a (Std.ExtTreeMap.mem_toList_iff_getElem?_eq_some.mp ha)]

/-- An admitted event adds the lifetime it starts. -/
theorem openLives_admitted {σ σ' : State} {e : Event} {rest : List Event} {base : Nat} {a : Allocation}
    (hfree : σ.activeAllocs[base]? = none) (h : σ'.activeAllocs = σ.activeAllocs.insert base a)
    (he : ∀ base, firstFree base (e :: rest) = firstFree base rest) :
    (openLives σ' rest).Perm ((base, a.start, firstFree base rest) :: openLives σ (e :: rest)) := by
  rw [openLives_congr rfl (fun base _ _ => he base)]
  unfold openLives
  rw [h]
  exact (OrdMap.toList_insert_perm hfree a).map _

/-- A `free` ends the lifetime at its address. -/
theorem openLives_freed {σ σ' : State} {ts base size : Nat} {rest : List Event} {a : Allocation}
    (ha : σ.activeAllocs[base]? = some a) (h : σ'.activeAllocs = σ.activeAllocs.erase base) :
    (openLives σ (.free ts base size :: rest)).Perm ((base, a.start, some ts) :: openLives σ' rest) := by
  have hp := (OrdMap.toList_perm_cons σ.activeAllocs ha).map
    (fun kv : Nat × Allocation => (kv.1, kv.2.start, firstFree kv.1 (.free ts base size :: rest)))
  refine hp.trans ?_
  rw [List.map_cons]
  have hhead : firstFree base (.free ts base size :: rest) = some ts := by simp [firstFree]
  have htail : ((σ.activeAllocs.erase base).toList.map
      (fun kv : Nat × Allocation => (kv.1, kv.2.start, firstFree kv.1 (.free ts base size :: rest)))) =
      openLives σ' rest := by
    unfold openLives
    rw [h]
    apply List.map_congr_left
    rintro ⟨b, c⟩ hc
    have hc := Std.ExtTreeMap.mem_toList_iff_getElem?_eq_some.mp hc
    have hne : base ≠ b := by
      rintro rfl
      simp at hc
    simp [firstFree, hne]
  rw [hhead, htail]

/-- A rejected event starts and ends no lifetime. -/
theorem lifetimes_rejected {cfg : Config} {σ : State} {e : Event} {rest : List Event} {n : Nat} {occupied : Finset Nat}
    (hocc : ∀ base, base ∈ occupied ↔ σ.activeAllocs[base]? ≠ none) (hr : Rejected cfg σ e) :
    lifetimes cfg n occupied (e :: rest) = lifetimes cfg (n + 1) occupied rest ∧
      ∀ base a, σ.activeAllocs[base]? = some a → firstFree base (e :: rest) = firstFree base rest := by
  cases e with
  | alloc ts base size typeStr =>
    refine ⟨?_, fun _ _ _ => rfl⟩
    simp only [lifetimes]
    rw [if_neg]
    rintro ⟨hnew, hk⟩
    rcases hr with hr | hr
    · exact hnew ((hocc base).mpr hr)
    · exact hr (.inr hk)
  | free ts base size =>
    have hr : σ.activeAllocs[base]? = none := hr
    have hnot : base ∉ occupied := by
      rw [hocc]
      exact not_not.mpr hr
    refine ⟨?_, ?_⟩
    · simp only [lifetimes]
      rw [Finset.erase_eq_of_notMem hnot]
    · intro base' a ha
      have hne : base ≠ base' := by
        rintro rfl
        rw [hr] at ha
        cases ha
      simp [firstFree, hne]
  | lockOp e => exact ⟨rfl, fun _ _ _ => rfl⟩
  | access e => exact ⟨rfl, fun _ _ _ => rfl⟩
  | other ts c => exact ⟨rfl, fun _ _ _ => rfl⟩

theorem Classified.knows {cfg : Config} {σ : State} {ts base size : Nat} {typeStr : String} {i next : Nat}
    {subclasses : List Subclass} (h : Classified cfg σ typeStr i subclasses next)
    (hfree : σ.activeAllocs[base]? = none) (hk : KnownType cfg σ (.alloc ts base size typeStr)) : cfg.knows typeStr := by
  cases h with
  | known _ hi => exact hk ts base size typeStr rfl hfree (hasSubclass_iff.mpr ⟨i, hi⟩)
  | fresh d hi hd => exact knows_iff.mpr ⟨d, hd⟩

/-- From any state on, the rows that are still to come are the open lifetimes and those
that the rest of the trace starts. -/
theorem run_lifetimes {cfg : Config} {events : List Event} {σ τ : State} {n : Nat} {occupied : Finset Nat}
    (hocc : ∀ base, base ∈ occupied ↔ σ.activeAllocs[base]? ≠ none)
    (hC : Along (step cfg) (KnownType cfg) events σ) (h : run (step cfg) events σ = .ok τ) :
    ∃ rows, τ.allocOFile ++ openAllocRows τ = σ.allocOFile ++ rows ∧
      (rows.map AllocRow.life).Perm (openLives σ events ++ (lifetimes cfg n occupied events).map Lifetime.life) := by
  induction events generalizing σ n occupied with
  | nil =>
    obtain rfl : σ = τ := Except.ok.inj h
    refine ⟨openAllocRows σ, rfl, ?_⟩
    simp [openAllocRows, openLives, lifetimes, AllocRow.life, firstFree, Function.comp_def]
  | cons e rest ih =>
    obtain ⟨σ₁, hst, hrun⟩ := run_cons_ok.mp h
    obtain ⟨hc, hC⟩ := along_cons.mp hC
    have ha := step_accounted hst
    generalize hv : σ₁.allocs = v at ha
    have hact : σ₁.activeAllocs = v.activeAllocs := by rw [← hv]; rfl
    have hfile : σ₁.allocOFile = v.allocOFile := by rw [← hv]; rfl
    cases ha with
    | rejected _ hr =>
      obtain ⟨hlt, hff⟩ := @lifetimes_rejected cfg σ e rest n occupied hocc hr
      have hocc₁ : ∀ base, base ∈ occupied ↔ σ₁.activeAllocs[base]? ≠ none := by
        rw [hact]
        exact hocc
      obtain ⟨rows, hrows, hp⟩ := ih (n := n + 1) hocc₁ (hC σ₁ hst) hrun
      rw [hfile] at hrows
      rw [hlt, openLives_congr hact hff]
      exact ⟨rows, hrows, hp⟩
    | admitted ts base size typeStr i subclasses next hfree hcl =>
      have hnew : base ∉ occupied := by
        rw [hocc]
        exact not_not.mpr hfree
      have hocc₁ : ∀ b, b ∈ insert base occupied ↔ σ₁.activeAllocs[b]? ≠ none := by
        intro b
        rw [hact, Finset.mem_insert, hocc, OrdMap.getElem?_insert_eq]
        by_cases hb : b = base
        · simp [hb]
        · simp [hb]
      obtain ⟨rows, hrows, hp⟩ := ih (n := n + 1) hocc₁ (hC σ₁ hst) hrun
      rw [hfile] at hrows
      refine ⟨rows, hrows, hp.trans ?_⟩
      have hopen := @openLives_admitted σ σ₁ (.alloc ts base size typeStr) rest base _ hfree hact fun _ => rfl
      have hlt : lifetimes cfg n occupied (.alloc ts base size typeStr :: rest) =
          ⟨n, base, ts, firstFree base rest⟩ :: lifetimes cfg (n + 1) (insert base occupied) rest := by
        simp only [lifetimes]
        rw [if_pos ⟨hnew, hcl.knows hfree hc⟩]
      rw [hlt]
      exact (hopen.append_right _).trans List.perm_middle.symm
    | freed ts base size a ha =>
      have hocc₁ : ∀ b, b ∈ occupied.erase base ↔ σ₁.activeAllocs[b]? ≠ none := by
        intro b
        rw [hact, Finset.mem_erase, hocc, OrdMap.getElem?_erase_eq]
        by_cases hb : b = base
        · simp [hb]
        · simp [hb]
      obtain ⟨rows, hrows, hp⟩ := ih (n := n + 1) hocc₁ (hC σ₁ hst) hrun
      rw [hfile] at hrows
      refine ⟨freedRow σ a ts base size :: rows, by simp [hrows], ?_⟩
      have hopen := @openLives_freed σ σ₁ ts base size rest a ha hact
      exact (hp.cons (base, a.start, some ts)).trans (hopen.symm.append_right _)

/-- `allocations.csv` has one row for every admitted `alloc` event of the trace, in every
conversion that meets no unknown data type under a known subclass name. -/
theorem convert_lifecycle {cfg : Config} {events : List Event} {σ : State} (h : convert cfg events = .ok σ)
    (hC : Along (step cfg) (KnownType cfg) events (.init cfg)) : Lifecycle cfg events σ := by
  obtain ⟨τ, hτ, -, hfile⟩ := convert_allocs h
  refine ⟨?_, ?_, ?_, ?_⟩
  · have hocc : ∀ base, base ∈ (∅ : Finset Nat) ↔ (State.init cfg).activeAllocs[base]? ≠ none := by
      simp [State.init]
    obtain ⟨rows, hrows, hp⟩ := run_lifetimes (n := 0) hocc hC hτ
    rw [hfile]
    refine ⟨rows, hrows, ?_⟩
    have hnone : openLives (State.init cfg) events = [] := by
      have : (State.init cfg).activeAllocs.toList = [] := rfl
      simp [openLives, this]
    rwa [hnone, List.nil_append] at hp
  · rw [hfile, convert_ids]
    exact (run_numbered hτ).distinct
  · intro pre e post σ₁ σ₂ _ _ hst hu
    exact hu.same hst
  · intro l hl l' hl' hb hlt
    obtain ⟨k, ts, size, hk, hk', hat⟩ := lifetimes_separated hl hl' hb hlt
    exact ⟨k, ts, size, by omega, by omega, hat⟩

/-- Address reuse: an allocation is freed, and its address is allocated again. -/
def reusedAddress : List Event :=
  [.alloc 1 0x1000 64 "inode", .free 2 0x1000 64, .free 3 0x1000 64, .alloc 4 0x1000 64 "inode"]

theorem reusedAddress_lifecycle : ∃ σ, convert (.trackAll true) reusedAddress = .ok σ ∧
    Lifecycle (.trackAll true) reusedAddress σ := by
  have hknown : Along (step (.trackAll true)) (KnownType (.trackAll true)) reusedAddress (.init (.trackAll true)) := by
    intro pre e post he τ _ ts base size typeStr heq _ _
    have hall : ∀ e ∈ reusedAddress, ∀ ts base size typeStr, e = .alloc ts base size typeStr →
        typeStr = "inode" := by
      simp [reusedAddress, eq_comm]
    have hmem : e ∈ reusedAddress := by simp [he]
    rw [hall e hmem ts base size typeStr heq]
    decide +kernel
  exact ⟨_, rfl, convert_lifecycle rfl hknown⟩

/-- An unknown data type with the subclass name of a known one. -/
def borrowedSubclass : List Event := [.alloc 1 0x1000 64 "inode:ext4", .alloc 2 0x2000 64 "dentry:ext4"]

/-- The `dentry` is unknown, and still it gets a row. -/
theorem borrowedSubclass_admitted : ∃ σ, convert (.trackAll true) borrowedSubclass = .ok σ ∧
    ¬Lifecycle (.trackAll true) borrowedSubclass σ := by
  have hend : okAnd (convert (.trackAll true) borrowedSubclass) (fun σ => σ.allocOFile.length = 3) = true := by
    decide +kernel
  obtain ⟨σ, hσ, hlen⟩ := okAnd_iff.mp hend
  refine ⟨σ, hσ, fun h => ?_⟩
  obtain ⟨rows, hrows, hp⟩ := h.rows
  have hspec : (lifetimes (.trackAll true) 0 ∅ borrowedSubclass).length = 1 := by decide +kernel
  have hinit : (State.init (.trackAll true)).allocOFile.length = 1 := rfl
  have hlen : σ.allocOFile.length = 3 := of_decide_eq_true hlen
  have := hp.length_eq
  rw [hrows, List.length_append, hinit] at hlen
  rw [List.length_map, List.length_map, hspec] at this
  omega

end LockDoc.Convert
