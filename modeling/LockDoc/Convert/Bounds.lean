import LockDoc.Lib.Worklist
import LockDoc.Convert.Allocation

/-!
# Accesses and the bounds of their allocations

The sanity check of an access works with `unsigned long long` sums that wrap around and
with a size that was narrowed to `int`; the row of a freed allocation repeats the size
column of the `free` event instead of the size the check used. Where none of this bites,
every row of `accesses.csv` lies inside the row of its allocation.
-/
namespace LockDoc.Convert

open FallibleRun
open Worklist (okAnd okAnd_iff)

/-- The access lies in an area, in unbounded integers. -/
def Covers (base : Nat) (size : Int) (m : MemAccess) : Prop :=
  base ≤ m.address ∧ (m.address : Int) + m.size ≤ base + size

/-- Every row of `accesses.csv` has a size, and lies inside the one row of `allocations.csv`
that has its allocation id. -/
def RowsInside (σ : State) : Prop :=
  ∀ r ∈ σ.accessOFile, 0 ≤ r.access.size ∧ (σ.allocOFile.map AllocRow.id).count r.access.allocId = 1 ∧
    ∃ row ∈ σ.allocOFile, row.id = r.access.allocId ∧ Covers row.baseAddress row.size r.access

/-- What the sizes of an event have to satisfy. An accepted access does not wrap around and
its allocation has a size that is an `int`; a `free` event does not name a smaller size than
the allocation was recorded with. -/
def SizesFit (σ : State) : Event → Prop
  | .access e => ∀ a ∈ σ.activeAllocs[e.baseAddress]?, outsideAllocation e a = false →
    e.address + e.size < 2 ^ 64 ∧ 0 ≤ a.size
  | .free _ base size => ∀ a ∈ σ.activeAllocs[base]?, a.size ≤ size
  | _ => True

instance (σ : State) : (e : Event) → Decidable (SizesFit σ e)
  | .access e => inferInstanceAs (Decidable (∀ a ∈ σ.activeAllocs[e.baseAddress]?, outsideAllocation e a = false →
      e.address + e.size < 2 ^ 64 ∧ 0 ≤ a.size))
  | .free _ base size => inferInstanceAs (Decidable (∀ a ∈ σ.activeAllocs[base]?, a.size ≤ size))
  | .alloc .. | .lockOp _ | .other .. => .isTrue trivial

theorem toInt_lt (n : Nat) : toInt n < 2 ^ 31 := by
  have := @Int.bmod_lt (n : Int) (2 ^ 32) (by decide)
  unfold toInt
  omega

theorem toInt_of_lt {n : Nat} (h : n < 2 ^ 31) : toInt n = n := by
  unfold toInt
  rw [Int.bmod_eq_of_le (by omega) (by omega)]

/-- The check, without wrap-around and with a proper size. -/
theorem inside_of_check {e : AccessEvent} {a : Allocation} (h : outsideAllocation e a = false)
    (hw : e.address + e.size < 2 ^ 64) (hs : 0 ≤ a.size) (hlt : a.size < 2 ^ 31) :
    0 ≤ toInt e.size ∧ e.baseAddress ≤ e.address ∧ (e.address : Int) + toInt e.size ≤ e.baseAddress + a.size := by
  obtain ⟨n, hn⟩ := Int.eq_ofNat_of_zero_le hs
  have hu : toU64 a.size = n := by
    unfold toU64
    omega
  simp only [outsideAllocation, addU64, hu, Bool.or_eq_false_iff, decide_eq_false_iff_not, Nat.not_lt] at h
  obtain ⟨⟨⟨hlow, -⟩, -⟩, hhigh⟩ := h
  rw [Nat.mod_eq_of_lt hw] at hhigh
  have hend : (e.baseAddress + n) % 2 ^ 64 ≤ e.baseAddress + n := Nat.mod_le _ _
  have hsize : e.size < 2 ^ 31 := by omega
  rw [toInt_of_lt hsize]
  omega

/-- After an iteration the accesses are the old ones, some may be dropped, and the one that
was accepted. -/
theorem step_accesses {cfg : Config} {σ σ' : State} {e : Event} (h : step cfg σ e = .ok σ') {m : MemAccess}
    (hm : m ∈ σ'.accesses) :
    m ∈ σ.accesses ∨ ∃ ev a, e = .access ev ∧ σ.activeAllocs[ev.baseAddress]? = some a ∧
      outsideAllocation ev a = false ∧ m.allocId = a.id ∧ m.size = toInt ev.size ∧ m.address = ev.address := by
  rcases step_ok h with ⟨-, rfl⟩ | ⟨-, hh⟩
  · exact .inl hm
  · have hsub : ∀ m ∈ (attributed cfg σ e).accesses, m ∈ σ.accesses :=
      fun m hm => (writeMemAccesses_sublist cfg e.action e.address { σ with ts := e.ts }).subset hm
    have hallocs : (attributed cfg σ e).activeAllocs = σ.activeAllocs := by rw [attributed_frame]
    cases hh with
    | quiet _ _ hq _ _ =>
      rw [State.accesses, hq.access, hq.pending] at hm
      exact .inl (hsub m hm)
    | freed ts base size a rows ha => exact .inl (hsub m hm)
    | buffered ev a trace next traces ha hin =>
      rw [State.accesses, ← List.append_assoc] at hm
      rcases List.mem_append.mp hm with hm | hm
      · exact .inl (hsub m hm)
      · rw [List.mem_singleton] at hm
        rw [hallocs] at ha
        exact .inr ⟨ev, a, rfl, ha, hin, by rw [hm], by rw [hm], by rw [hm]⟩
    | acted ev l σ₁ lm hres hr ht =>
      cases hr with
      | known l hl => exact .inl (hsub m hm)
      | fresh cls allocID name hl isP hc rows => exact .inl (hsub m hm)

/-- Every access lies inside its allocation, whether that is active or has its row. -/
structure Bounded (σ : State) : Prop where
  numbered : Numbered σ.allocs
  narrow : ∀ (base : Nat) (a : Allocation), σ.activeAllocs[base]? = some a → a.size < 2 ^ 31
  inside : ∀ m ∈ σ.accesses, 0 ≤ m.size ∧
    ((∃ base a, σ.activeAllocs[base]? = some a ∧ a.id = m.allocId ∧ Covers base a.size m) ∨
      ∃ row ∈ σ.allocOFile, row.id = m.allocId ∧ Covers row.baseAddress row.size m)

theorem init_bounded (cfg : Config) : Bounded (.init cfg) where
  numbered := init_numbered cfg
  narrow base a ha := by simp [State.init] at ha
  inside m hm := by simp [State.accesses, State.init] at hm

/-- One access, seen after the allocations have changed. -/
theorem Bounded.moved {cfg : Config} {σ σ' : State} {e : Event} (h : Bounded σ) (hf : SizesFit σ e)
    (hst : step cfg σ e = .ok σ') {m : MemAccess} (hm : m ∈ σ.accesses) :
    (∃ base a, σ'.activeAllocs[base]? = some a ∧ a.id = m.allocId ∧ Covers base a.size m) ∨
      ∃ row ∈ σ'.allocOFile, row.id = m.allocId ∧ Covers row.baseAddress row.size m := by
  rcases (h.inside m hm).2 with ⟨b, a, hb, hid, hcov⟩ | ⟨row, hrow, hid, hcov⟩
  · rcases step_active hb hst with hactive | ⟨ts, size, rfl, hrow⟩
    · exact .inl ⟨b, a, hactive, hid, hcov⟩
    · exact .inr ⟨_, hrow, hid, hcov.1, hcov.2.trans (Int.add_le_add_left (hf a hb) b)⟩
  · exact .inr ⟨row, (step_allocRows hst).subset hrow, hid, hcov⟩

theorem step_narrow {cfg : Config} {σ σ' : State} {e : Event}
    (h : ∀ (base : Nat) (a : Allocation), σ.activeAllocs[base]? = some a → a.size < 2 ^ 31)
    (hst : step cfg σ e = .ok σ') (base : Nat) (a : Allocation) (hb : σ'.activeAllocs[base]? = some a) :
    a.size < 2 ^ 31 := by
  have ha := step_accounted hst
  change σ'.allocs.activeAllocs[base]? = some a at hb
  generalize σ'.allocs = v at ha hb
  cases ha with
  | rejected _ _ => exact h base a hb
  | admitted ts base' size typeStr i subclasses next hfree hc =>
    simp only [OrdMap.getElem?_insert_eq] at hb
    split at hb
    · rw [← Option.some.inj hb]
      dsimp only
      exact toInt_lt size
    · exact h base a hb
  | freed ts base' size c hc =>
    simp only [OrdMap.getElem?_erase_eq] at hb
    split at hb
    · cases hb
    · exact h base a hb

theorem Bounded.step {cfg : Config} {σ σ' : State} {e : Event} (h : Bounded σ) (hf : SizesFit σ e)
    (hst : step cfg σ e = .ok σ') : Bounded σ' := by
  refine ⟨h.numbered.step hst, step_narrow h.narrow hst, ?_⟩
  intro m hm
  rcases step_accesses hst hm with hm | ⟨ev, a, rfl, ha, hin, hid, hsize, haddr⟩
  · exact ⟨(h.inside m hm).1, h.moved hf hst hm⟩
  · obtain ⟨hw, hs⟩ := hf a ha hin
    obtain ⟨hpos, hlow, hhigh⟩ := inside_of_check hin hw hs (h.narrow _ a ha)
    have hacc := step_accounted hst
    have hsame : σ'.activeAllocs = σ.activeAllocs := by
      change σ'.allocs.activeAllocs = _
      generalize σ'.allocs = v at hacc
      cases hacc with
      | rejected _ _ => rfl
    refine ⟨hsize ▸ hpos, .inl ⟨ev.baseAddress, a, ?_, hid.symm, ?_⟩⟩
    · rw [hsame]
      exact ha
    · rw [Covers, hsize, haddr]
      exact ⟨hlow, hhigh⟩

/-- What follows the main loop writes accesses from the buffer, and no others. -/
theorem convert_accesses {cfg : Config} {trace : List Event} {σ τ : State} (h : convert cfg trace = .ok σ)
    (hτ : run (step cfg) trace (.init cfg) = .ok τ) {r : AccessRow} (hr : r ∈ σ.accessOFile) :
    r.access ∈ τ.accesses := by
  obtain ⟨τ', hτ', h⟩ := bind_ok.mp h
  rw [hτ, Except.ok.injEq] at hτ'
  subst hτ'
  obtain ⟨lm, -, h⟩ := bind_ok.mp h
  cases h
  have hsub := (writeMemAccesses_sublist cfg 'v' 0 { τ with allocOFile := τ.allocOFile ++ openAllocRows τ }).subset
  exact hsub (List.mem_append_left _ (List.mem_map_of_mem hr))

/-- In every conversion whose sizes fit, the rows of `accesses.csv` lie inside the rows of
their allocations. -/
theorem convert_rowsInside {cfg : Config} {trace : List Event} {σ : State} (h : convert cfg trace = .ok σ)
    (hf : Along (step cfg) SizesFit trace (.init cfg)) : RowsInside σ := by
  obtain ⟨τ, hτ, -, hfile⟩ := convert_allocs h
  have hb : Bounded τ := run_invariant (I := Bounded) (fun _ _ _ hI hc hst => hI.step hc hst) hf (init_bounded cfg) hτ
  intro r hr
  obtain ⟨hpos, hin⟩ := hb.inside _ (convert_accesses h hτ hr)
  have hd : (σ.allocOFile.map AllocRow.id).Nodup := by
    rw [hfile, convert_ids]
    exact hb.numbered.distinct
  have hrow : ∃ row ∈ σ.allocOFile, row.id = r.access.allocId ∧ Covers row.baseAddress row.size r.access := by
    rw [hfile]
    rcases hin with ⟨base, a, ha, hid, hcov⟩ | ⟨row, hrow, hid, hcov⟩
    · refine ⟨⟨a.id, subclassId τ a, base, a.size, a.start, none⟩, ?_, hid, hcov⟩
      refine List.mem_append_right _ (List.mem_map.mpr ⟨(base, a), ?_, rfl⟩)
      exact Std.ExtTreeMap.mem_toList_iff_getElem?_eq_some.mpr ha
    · exact ⟨row, List.mem_append_left _ hrow, hid, hcov⟩
  obtain ⟨row, hrow, hid, hcov⟩ := hrow
  refine ⟨hpos, ?_, row, hrow, hid, hcov⟩
  exact List.count_eq_one_of_mem hd (hid ▸ List.mem_map_of_mem hrow)

/-- An allocation with one access, freed with the size it was allocated with. -/
def accessedAlloc : List Event := [inodeAlloc, inodeAccess 2 1, .free 3 0x1000 64]

theorem accessedAlloc_rowsInside : ∃ σ, convert (.trackAll true) accessedAlloc = .ok σ ∧
    σ.accessOFile.length = 1 ∧ RowsInside σ := by
  have hfit : Along (step (.trackAll true)) SizesFit accessedAlloc (.init (.trackAll true)) := by
    have hcheck : checkAlong (step (.trackAll true)) (fun σ e => decide (SizesFit σ e)) accessedAlloc
        (.init (.trackAll true)) = true := by
      decide +kernel
    exact along_mono (fun _ _ _ h => of_decide_eq_true h) (along_of_check hcheck)
  exact ⟨_, rfl, by decide +kernel, convert_rowsInside rfl hfit⟩

/-- The same allocation, freed with a smaller size. -/
def shrunkFree : List Event := [inodeAlloc, inodeAccess 2 1, .free 3 0x1000 8]

/-- An access whose end wraps around to its own base address. -/
def wrappedAccess : List Event :=
  [inodeAlloc, .access ⟨.read, 2, 0x1008, 2 ^ 64 - 8, 0x1000, 0xc0de, "", 1⟩, .free 3 0x1000 64]

/-- The first access ends behind the row of its allocation, the second has a negative size. -/
theorem rowsInside_fails : (∃ σ, convert (.trackAll true) shrunkFree = .ok σ ∧ ¬RowsInside σ) ∧
    ∃ σ, convert (.trackAll true) wrappedAccess = .ok σ ∧ ¬RowsInside σ := by
  refine ⟨⟨_, rfl, fun h => ?_⟩, ⟨_, rfl, fun h => ?_⟩⟩
  · exact absurd h (by unfold RowsInside Covers; decide +kernel)
  · exact absurd h (by unfold RowsInside Covers; decide +kernel)

end LockDoc.Convert
