import LockDoc.Lib.Worklist
import LockDoc.Convert.Allocation
import LockDoc.Convert.Live

/-!
# The allocation a lock resides in

`handlePV` looks for the allocation around a lock once, when it creates the object, and
finds the object by its address from then on. The attribution stays right as long as no
allocation is admitted over a registered lock.
-/
namespace LockDoc.Convert

open FallibleRun
open Worklist (okAnd okAnd_iff)

/-- The address lies in the allocation, by its start and its recorded size. -/
def Allocation.contains (a : Allocation) (base x : Nat) : Prop := base ≤ x ∧ (x : Int) < base + a.size

instance (a : Allocation) (base x : Nat) : Decidable (a.contains base x) := inferInstanceAs (Decidable (_ ∧ _))

/-- No address lies in two active allocations. -/
def AllocsDisjoint (allocs : Std.ExtTreeMap Nat Allocation) : Prop :=
  ∀ (b c : Nat) (a d : Allocation), allocs[b]? = some a → allocs[c]? = some d →
    ∀ x, a.contains b x → d.contains c x → b = c

/-- Two allocations of a list share no address. -/
def Allocation.apart (p q : Nat × Allocation) : Bool :=
  p.1 = q.1 || p.2.size ≤ 0 || q.2.size ≤ 0 || p.1 + p.2.size ≤ q.1 || q.1 + q.2.size ≤ p.1

theorem Allocation.apart_iff {b c : Nat} {a d : Allocation} :
    Allocation.apart (b, a) (c, d) = true ↔ ∀ x, a.contains b x → d.contains c x → b = c := by
  simp only [Allocation.apart, Allocation.contains, Bool.or_eq_true, decide_eq_true_eq]
  constructor
  · intro h x hx hy
    omega
  · intro h
    have := h (max b c)
    omega

theorem allocsDisjoint_iff {allocs : Std.ExtTreeMap Nat Allocation} :
    AllocsDisjoint allocs ↔ ∀ p ∈ allocs.toList, ∀ q ∈ allocs.toList, Allocation.apart p q = true := by
  simp only [Prod.forall, Std.ExtTreeMap.mem_toList_iff_getElem?_eq_some, Allocation.apart_iff]
  constructor
  · exact fun h b a ha c d hd => h b c a d ha hd
  · exact fun h b c a d ha hd => h b a ha c d hd

instance (allocs : Std.ExtTreeMap Nat Allocation) : Decidable (AllocsDisjoint allocs) :=
  decidable_of_iff _ allocsDisjoint_iff.symm

/-- The id names the active allocation around the address, and outside of all of them it is
0 for a static or pseudo lock, or the pseudo allocation of `-u`. -/
structure AttributedNow (cfg : Config) (allocs : Std.ExtTreeMap Nat Allocation) (x id : Nat) : Prop where
  inside : ∀ (base : Nat) (a : Allocation), allocs[base]? = some a → a.contains base x → id = a.id
  outside : (∀ (base : Nat) (a : Allocation), allocs[base]? = some a → ¬a.contains base x) →
    (id = 0 ∧ (checkLockInSections cfg x = true ∨ isPseudoLock x = true)) ∨
      (cfg.includeAllLocks = true ∧ id = cfg.pseudoAllocID)

/-- Every lock operation that reaches a lock object finds one that is attributed to what is
around it now, and that did not exist before the allocation it resides in. -/
def LocksCurrent (cfg : Config) (events : List Event) : Prop :=
  ∀ pre ev post σ, events = pre ++ .lockOp ev :: post → run (step cfg) pre (.init cfg) = .ok σ →
    cfg.skips (.lockOp ev) = false →
    ∀ l σ₁, resolveLock cfg (attributed cfg σ (.lockOp ev)) ev = .ok (some l, σ₁) →
      AttributedNow cfg σ.activeAllocs ev.address (σ₁.lockManager.heap l).allocationId ∧
      ∀ before after τ, pre = before ++ after → run (step cfg) before (.init cfg) = .ok τ →
        ∀ (base : Nat) (a : Allocation), σ.activeAllocs[base]? = some a → a.contains base ev.address →
          τ.activeAllocs[base]? ≠ some a → τ.lockManager.objects ≤ l

/-- The arithmetic of an allocation does not wrap around, and its id is neither 0 nor the pseudo id. -/
structure Allocation.Fits (cfg : Config) (base : Nat) (a : Allocation) : Prop where
  size : 0 ≤ a.size
  stop : base + a.size < 2 ^ 64
  real : cfg.pseudoAllocID < a.id
  id : a.id < 2 ^ 32

theorem Allocation.Fits.addU64_eq {cfg : Config} {base : Nat} {a : Allocation} (h : a.Fits cfg base) :
    (addU64 base (toU64 a.size) : Int) = base + a.size := by
  have hs := h.size
  have hstop := h.stop
  unfold addU64 toU64
  omega

theorem Allocation.Fits.contains_iff {cfg : Config} {base x : Nat} {a : Allocation} (h : a.Fits cfg base) :
    a.contains base x ↔ base ≤ x ∧ x < addU64 base (toU64 a.size) := by
  have := h.addU64_eq
  unfold Allocation.contains
  omega

/-- `inArea` of a free is the area of the allocation. -/
theorem Allocation.Fits.inArea_iff {cfg : Config} {base x : Nat} {a : Allocation} (h : a.Fits cfg base) :
    LockManager.inArea base (toU64 a.size) x = true ↔ a.contains base x := by
  rw [h.contains_iff]
  simp [LockManager.inArea]

/-- No empty allocation starts between the allocation around the address and the address. -/
def NoneEmptyBetween (allocs : Std.ExtTreeMap Nat Allocation) (x : Nat) : Prop :=
  ∀ p ∈ allocs.toList, p.2.contains p.1 x → ∀ q ∈ allocs.toList, p.1 < q.1 → q.1 ≤ x → q.2.size ≠ 0

instance (allocs : Std.ExtTreeMap Nat Allocation) (x : Nat) : Decidable (NoneEmptyBetween allocs x) :=
  inferInstanceAs (Decidable (∀ p ∈ allocs.toList, _))

section Lookup

variable {cfg : Config} {allocs : Std.ExtTreeMap Nat Allocation} {x : Nat}
  (hf : ∀ (base : Nat) (a : Allocation), allocs[base]? = some a → a.Fits cfg base)

include hf

/-- What `upper_bound` and one step back find contains the address. -/
theorem contains_of_enclosing {a : Allocation} (h : enclosingAllocation allocs x = some a) :
    ∃ base : Nat, allocs[base]? = some a ∧ a.contains base x := by
  unfold enclosingAllocation at h
  split at h
  · rename_i base d hle
    split at h
    · rename_i hlt
      cases h
      obtain ⟨hd, hbx, -⟩ := OrdMap.getEntryLE?_eq_some hle
      have hbx := Nat.isLE_compare.mp hbx
      exact ⟨base, hd, (hf base a hd).contains_iff.mpr ⟨hbx, hlt⟩⟩
    · cases h
  · cases h

/-- The allocation around the address is found, unless an empty one is in the way. -/
theorem enclosing_of_contains (hd : AllocsDisjoint allocs) (he : NoneEmptyBetween allocs x) {base : Nat}
    {a : Allocation} (ha : allocs[base]? = some a) (hx : a.contains base x) :
    enclosingAllocation allocs x = some a := by
  unfold enclosingAllocation
  cases hle : allocs.getEntryLE? x with
  | none => exact absurd (Nat.isLE_compare.mpr hx.1) (OrdMap.getEntryLE?_eq_none hle ha)
  | some p =>
    obtain ⟨c, d⟩ := p
    obtain ⟨hc, hcx, hlast⟩ := OrdMap.getEntryLE?_eq_some hle
    have hcx := Nat.isLE_compare.mp hcx
    have hbc := Nat.isLE_compare.mp (hlast base a ha (Nat.isLE_compare.mpr hx.1))
    have hcb : c = base := by
      by_contra hne
      have hsize := (hf c d hc).size
      have hpos : d.size ≠ 0 :=
        he (base, a) (Std.ExtTreeMap.mem_toList_iff_getElem?_eq_some.mpr ha) hx (c, d)
          (Std.ExtTreeMap.mem_toList_iff_getElem?_eq_some.mpr hc) (by omega) hcx
      -- the start of the later one lies in both
      refine hne (hd c base d a hc ha c ?_ ?_)
      · unfold Allocation.contains
        omega
      · have := hx.2
        unfold Allocation.contains
        omega
    subst hcb
    rw [ha, Option.some.injEq] at hc
    subst hc
    exact if_pos ((hf c a ha).contains_iff.mp hx).2

/-- A new lock is attributed to what is around it. -/
theorem categorize_attributed {σ : State} (hσ : σ.activeAllocs = allocs) (hd : AllocsDisjoint allocs)
    (he : NoneEmptyBetween allocs x) {member : String} {id : Nat} {name : Option String}
    (h : categorize cfg σ x member = some (id, name)) : AttributedNow cfg allocs x id := by
  unfold categorize at h
  rw [hσ] at h
  cases hen : enclosingAllocation allocs x with
  | some a =>
    obtain ⟨base, ha, hx⟩ := contains_of_enclosing hf hen
    have hfit := hf base a ha
    have hid : a.id % 2 ^ 32 = a.id := Nat.mod_eq_of_lt hfit.id
    have hpos : a.id ≠ 0 := Nat.ne_of_gt (Nat.lt_of_le_of_lt (Nat.zero_le _) hfit.real)
    simp only [hen, hid, if_pos hpos, Option.some.injEq, Prod.mk.injEq] at h
    obtain ⟨rfl, -⟩ := h
    refine ⟨?_, fun hno => absurd hx (hno base a ha)⟩
    intro c d hc hcx
    rw [hd base c a d ha hc x hx hcx, hc, Option.some.injEq] at ha
    rw [ha]
  | none =>
    refine ⟨?_, ?_⟩
    · intro c d hc hcx
      rw [enclosing_of_contains hf hd he hc hcx] at hen
      cases hen
    · intro _
      simp only [hen, ne_eq, not_true_eq_false, if_false] at h
      split at h
      · rename_i hstatic
        simp only [Option.some.injEq, Prod.mk.injEq] at h
        obtain ⟨rfl, -⟩ := h
        simp only [Bool.or_eq_true, Bool.and_eq_true] at hstatic
        exact .inl ⟨rfl, hstatic.imp_right And.right⟩
      · split at h
        · rename_i hall
          simp only [Option.some.injEq, Prod.mk.injEq] at h
          obtain ⟨rfl, -⟩ := h
          refine .inr ⟨hall, ?_⟩
          simp [Config.pseudoAllocID, hall]
        · cases h

end Lookup

theorem AttributedNow.lt {cfg : Config} {allocs : Std.ExtTreeMap Nat Allocation} {x id n : Nat}
    (h : AttributedNow cfg allocs x id) (hp : cfg.pseudoAllocID < n)
    (ha : ∀ (base : Nat) (a : Allocation), allocs[base]? = some a → a.id < n) : id < n := by
  by_cases hin : ∃ (base : Nat) (a : Allocation), allocs[base]? = some a ∧ a.contains base x
  · obtain ⟨base, a, hb, hx⟩ := hin
    rw [h.inside base a hb hx]
    exact ha base a hb
  · rcases h.outside fun base a hb hx => hin ⟨base, a, hb, hx⟩ with ⟨rfl, -⟩ | ⟨-, rfl⟩
    · exact Nat.lt_of_le_of_lt (Nat.zero_le _) hp
    · exact hp

/-- An admitted allocation leaves the addresses outside of it as they were. -/
theorem AttributedNow.insert {cfg : Config} {allocs : Std.ExtTreeMap Nat Allocation} {x id base : Nat}
    {a : Allocation} (h : AttributedNow cfg allocs x id) (hfree : allocs[base]? = none) (hx : ¬a.contains base x) :
    AttributedNow cfg (allocs.insert base a) x id := by
  refine ⟨?_, fun hno => h.outside fun c d hc => hno c d ?_⟩
  · intro c d hc hcx
    rw [OrdMap.getElem?_insert_eq] at hc
    split at hc
    · rename_i he
      cases hc
      rw [he] at hcx
      exact absurd hcx hx
    · exact h.inside c d hc hcx
  · rw [OrdMap.getElem?_insert_eq, if_neg, hc]
    rintro rfl
    rw [hfree] at hc
    cases hc

/-- A freed allocation leaves the addresses outside of it as they were. -/
theorem AttributedNow.erase {cfg : Config} {allocs : Std.ExtTreeMap Nat Allocation} {x id base : Nat}
    {a : Allocation} (h : AttributedNow cfg allocs x id) (ha : allocs[base]? = some a) (hx : ¬a.contains base x) :
    AttributedNow cfg (allocs.erase base) x id := by
  refine ⟨?_, fun hno => h.outside fun c d hc hcx => ?_⟩
  · intro c d hc hcx
    rw [OrdMap.getElem?_erase_eq] at hc
    split at hc
    · cases hc
    · exact h.inside c d hc hcx
  · by_cases hcb : c = base
    · subst hcb
      rw [ha, Option.some.injEq] at hc
      exact hx (hc ▸ hcx)
    · exact hno c d (by rw [OrdMap.getElem?_erase_eq, if_neg hcb, hc]) hcx

/-- No lock was registered, unregistered or created, and none resides elsewhere. -/
structure LockManager.Unmoved (lm lm' : LockManager) : Prop where
  locks : lm'.locks = lm.locks
  objects : lm'.objects = lm.objects
  address : ∀ k, (lm'.heap k).lockAddress = (lm.heap k).lockAddress
  allocationId : ∀ k, (lm'.heap k).allocationId = (lm.heap k).allocationId

theorem LockManager.Framed.unmoved {l : LockPtr} {lm lm' : LockManager} (h : Framed l lm lm') : lm.Unmoved lm' where
  locks := h.locks
  objects := h.objects
  address k := by
    by_cases hk : k = l
    · rw [hk, h.address]
    · rw [h.heap k hk]
  allocationId k := by
    by_cases hk : k = l
    · rw [hk, h.allocationId]
    · rw [h.heap k hk]

theorem LockManager.Chatter.unmoved {lm lm' : LockManager} (h : lm.Chatter lm') : lm.Unmoved lm' := by
  obtain ⟨ms, -, rfl⟩ := h
  exact ⟨rfl, rfl, fun _ => rfl, fun _ => rfl⟩

theorem unmoved_attributed (cfg : Config) (σ : State) (e : Event) :
    σ.lockManager.Unmoved (attributed cfg σ e).lockManager := by
  rw [(kept_attributed cfg σ e).2]
  exact ⟨rfl, rfl, fun _ => rfl, fun _ => rfl⟩

theorem attributed_allocs (cfg : Config) (σ : State) (e : Event) : (attributed cfg σ e).allocs = σ.allocs := by
  rw [attributed_frame]
  rfl

/-- Every registered lock is attributed to what is around it now, and ids tell younger
allocations from all that a lock object can have been attributed to. -/
structure Embedded (cfg : Config) (v : AllocState) (lm : LockManager) : Prop where
  next : cfg.pseudoAllocID < v.curAllocID
  fits : ∀ (base : Nat) (a : Allocation), v.activeAllocs[base]? = some a → a.Fits cfg base
  below : ∀ (base : Nat) (a : Allocation), v.activeAllocs[base]? = some a → a.id < v.curAllocID
  registered : ∀ (x : Nat) (l : LockPtr), lm.locks[x]? = some l → l < lm.objects
  address : ∀ (x : Nat) (l : LockPtr), lm.locks[x]? = some l → (lm.heap l).lockAddress = x
  current : ∀ (x : Nat) (l : LockPtr), lm.locks[x]? = some l →
    AttributedNow cfg v.activeAllocs x (lm.heap l).allocationId
  older : ∀ l, l < lm.objects → (lm.heap l).allocationId < v.curAllocID

theorem init_embedded (cfg : Config) : Embedded cfg (State.init cfg).allocs (State.init cfg).lockManager where
  next := Nat.lt_succ_self _
  fits base a ha := by simp [State.allocs, State.init] at ha
  below base a ha := by simp [State.allocs, State.init] at ha
  registered x l hl := by simp [State.init, LockManager.init] at hl
  address x l hl := by simp [State.init, LockManager.init] at hl
  current x l hl := by simp [State.init, LockManager.init] at hl
  older l hl := by simp [State.init, LockManager.init] at hl

theorem Embedded.unmoved {cfg : Config} {v : AllocState} {lm lm' : LockManager} (h : Embedded cfg v lm)
    (hu : lm.Unmoved lm') : Embedded cfg v lm' where
  next := h.next
  fits := h.fits
  below := h.below
  registered x l hl := by
    rw [hu.objects]
    exact h.registered x l (hu.locks ▸ hl)
  address x l hl := by
    rw [hu.address]
    exact h.address x l (hu.locks ▸ hl)
  current x l hl := by
    rw [hu.allocationId]
    exact h.current x l (hu.locks ▸ hl)
  older l hl := by
    rw [hu.allocationId]
    exact h.older l (hu.objects ▸ hl)

/-- A lock that is created at a free address. -/
theorem Embedded.allocated {cfg : Config} {v : AllocState} {lm : LockManager} (h : Embedded cfg v lm)
    {cls : LockClass} {x id : Nat} {lockType name : String} {flags : Nat}
    (hx : AttributedNow cfg v.activeAllocs x id) :
    Embedded cfg v (lm.allocated cls x id lockType name flags) := by
  have hold := fun k hk => lm.heap_allocated_old cls x id lockType name flags (k := k) hk
  have hnew : ((lm.allocated cls x id lockType name flags).heap lm.objects).lockAddress = x ∧
      ((lm.allocated cls x id lockType name flags).heap lm.objects).allocationId = id := by
    rw [LockManager.heap_allocated_new]
    cases cls <;> exact ⟨rfl, rfl⟩
  have hlocks : ∀ (y : Nat) (l : LockPtr), (lm.allocated cls x id lockType name flags).locks[y]? = some l →
      (y = x ∧ l = lm.objects) ∨ lm.locks[y]? = some l := by
    intro y l hl
    simp only [LockManager.allocated, OrdMap.getElem?_insert_eq] at hl
    split at hl
    · rename_i hy
      cases hl
      exact .inl ⟨hy, rfl⟩
    · exact .inr hl
  refine ⟨h.next, h.fits, h.below, ?_, ?_, ?_, ?_⟩
  · intro y l hl
    rcases hlocks y l hl with ⟨rfl, rfl⟩ | hl
    · exact Nat.lt_succ_self _
    · exact Nat.lt_succ_of_lt (h.registered y l hl)
  · intro y l hl
    rcases hlocks y l hl with ⟨rfl, rfl⟩ | hl
    · exact hnew.1
    · rw [hold l (h.registered y l hl)]
      exact h.address y l hl
  · intro y l hl
    rcases hlocks y l hl with ⟨rfl, rfl⟩ | hl
    · rw [hnew.2]
      exact hx
    · rw [hold l (h.registered y l hl)]
      exact h.current y l hl
  · intro l hl
    rcases Nat.lt_succ_iff_lt_or_eq.mp hl with hl | rfl
    · rw [hold l hl]
      exact h.older l hl
    · rw [hnew.2]
      exact hx.lt h.next h.below

/-- An allocation that is admitted over no registered lock. -/
theorem Embedded.admitted {cfg : Config} {v : AllocState} {lm : LockManager} (h : Embedded cfg v lm)
    {ts base size i next : Nat} {subclasses : List Subclass} (hfree : v.activeAllocs[base]? = none)
    (hsize : size < 2 ^ 31) (hstop : base + size < 2 ^ 64) (hid : v.curAllocID < 2 ^ 32)
    (hno : ∀ (x : Nat) (l : LockPtr), lm.locks[x]? = some l → ¬(base ≤ x ∧ x < base + size)) :
    Embedded cfg ⟨v.activeAllocs.insert base ⟨ts, v.curAllocID, toInt size, i⟩, subclasses, v.curAllocID + 1, next,
      v.allocOFile⟩ lm := by
  have hint : toInt size = size := by
    unfold toInt
    rw [Int.bmod_eq_of_le] <;> omega
  have hcases : ∀ (b : Nat) (a : Allocation),
      (v.activeAllocs.insert base ⟨ts, v.curAllocID, toInt size, i⟩)[b]? = some a →
      (b = base ∧ a = ⟨ts, v.curAllocID, size, i⟩) ∨ v.activeAllocs[b]? = some a := by
    intro b a ha
    rw [OrdMap.getElem?_insert_eq] at ha
    split at ha
    · rename_i hb
      cases ha
      exact .inl ⟨hb, by rw [hint]⟩
    · exact .inr ha
  refine ⟨Nat.lt_succ_of_lt h.next, ?_, ?_, h.registered, h.address, ?_, fun l hl => Nat.lt_succ_of_lt (h.older l hl)⟩
  · intro b a ha
    rcases hcases b a ha with ⟨rfl, rfl⟩ | ha
    · exact ⟨Int.natCast_nonneg _, by dsimp only; omega, h.next, hid⟩
    · exact h.fits b a ha
  · intro b a ha
    rcases hcases b a ha with ⟨rfl, rfl⟩ | ha
    · exact Nat.lt_succ_self _
    · exact Nat.lt_succ_of_lt (h.below b a ha)
  · intro x l hl
    refine (h.current x l hl).insert hfree ?_
    rintro ⟨hle, hlt⟩
    rw [hint] at hlt
    exact hno x l hl ⟨hle, by dsimp only at hlt; omega⟩

/-- A freed allocation takes its locks along. -/
theorem Embedded.freed {cfg : Config} {v : AllocState} {lm : LockManager} (h : Embedded cfg v lm) {base : Nat}
    {a : Allocation} {rows : List AllocRow} (ha : v.activeAllocs[base]? = some a) :
    Embedded cfg { v with activeAllocs := v.activeAllocs.erase base, allocOFile := rows }
      (lm.deleteLockByArea base (toU64 a.size)) := by
  have hsub : ∀ (x : Nat) (l : LockPtr), (lm.deleteLockByArea base (toU64 a.size)).locks[x]? = some l →
      lm.locks[x]? = some l ∧ ¬a.contains base x := by
    intro x l hl
    simp only [LockManager.deleteLockByArea, Std.ExtTreeMap.getElem?_filter'] at hl
    obtain ⟨hl, hout⟩ := Option.filter_eq_some_iff.mp hl
    rw [h.address x l hl, Bool.not_eq_true', Bool.eq_false_iff] at hout
    exact ⟨hl, fun hx => hout ((h.fits base a ha).inArea_iff.mpr hx)⟩
  have herase : ∀ (b : Nat) (c : Allocation), (v.activeAllocs.erase base)[b]? = some c →
      v.activeAllocs[b]? = some c := by
    intro b c hc
    rw [OrdMap.getElem?_erase_eq] at hc
    split at hc
    · cases hc
    · exact hc
  refine ⟨h.next, fun b c hc => h.fits b c (herase b c hc), fun b c hc => h.below b c (herase b c hc), ?_, ?_, ?_,
    h.older⟩
  · exact fun x l hl => h.registered x l (hsub x l hl).1
  · exact fun x l hl => h.address x l (hsub x l hl).1
  · exact fun x l hl => (h.current x l (hsub x l hl).1).erase ha (hsub x l hl).2

/-- An allocation that is admitted has an id, a size and an end that their types hold, and no
registered lock resides in its area. -/
def AdmitsFresh (cfg : Config) (σ : State) (e : Event) : Prop :=
  ∀ ts base size typeStr, e = .alloc ts base size typeStr → ¬Rejected cfg σ e →
    size < 2 ^ 31 ∧ base + size < 2 ^ 64 ∧ σ.curAllocID < 2 ^ 32 ∧
      ∀ x ∈ σ.lockManager.locks.keys, ¬(base ≤ x ∧ x < base + size)

/-- An operation that creates a lock finds the allocation around it. -/
def FindsEnclosing (cfg : Config) (σ : State) (e : Event) : Prop :=
  ∀ ev, e = .lockOp ev → cfg.skips e = false → ev.op.isP = true → σ.lockManager.locks[ev.address]? = none →
    NoneEmptyBetween σ.activeAllocs ev.address

/-- The condition on one event of a run. -/
def KeepsAttribution (cfg : Config) (σ : State) (e : Event) : Prop :=
  Completed (step cfg) (AdmitsFresh cfg) σ e ∧ FindsEnclosing cfg σ e

/-- The first half of `handlePV`: the object that the operation acts on is the registered one,
and is attributed to what is around it. -/
theorem Embedded.resolved {cfg : Config} {σ σ₁ : State} {ev : LockEvent} {l : LockPtr}
    (h : Embedded cfg σ.allocs σ.lockManager) (hd : AllocsDisjoint σ.activeAllocs)
    (hs : cfg.skips (.lockOp ev) = false) (hf : FindsEnclosing cfg σ (.lockOp ev))
    (hr : resolveLock cfg (attributed cfg σ (.lockOp ev)) ev = .ok (some l, σ₁)) :
    σ₁.allocs = σ.allocs ∧ Embedded cfg σ.allocs σ₁.lockManager ∧
      σ₁.lockManager.locks[ev.address]? = some l := by
  have hu := unmoved_attributed cfg σ (.lockOp ev)
  have hallocs := attributed_allocs cfg σ (.lockOp ev)
  have h₁ := h.unmoved hu
  refine ⟨(resolveLock_allocs hr).trans hallocs, ?_⟩
  generalize attributed cfg σ (.lockOp ev) = τ at hr hu hallocs h₁
  unfold resolveLock LockManager.findLock at hr
  cases hl : τ.lockManager.locks[ev.address]? with
  | some k =>
    simp only [hl, Except.ok.injEq, Prod.mk.injEq, Option.some.injEq] at hr
    obtain ⟨rfl, rfl⟩ := hr
    exact ⟨h₁, hl⟩
  | none =>
    simp only [hl] at hr
    cases hcat : categorize cfg τ ev.address ev.lockMember with
    | none => simp [hcat] at hr
    | some p =>
      obtain ⟨id, name⟩ := p
      simp only [hcat] at hr
      split at hr
      · cases hr
      · rename_i hv
        obtain ⟨⟨k, lm⟩, hk, hr⟩ := bind_ok.mp hr
        cases hr
        obtain ⟨cls, -, rfl, rfl⟩ := LockManager.allocLock_ok hk
        have hP : ev.op.isP = true := by
          cases hop : ev.op <;> simp_all [LockOp.isP]
        have he := hf ev rfl hs hP (by rw [← hu.locks]; exact hl)
        have hact : τ.activeAllocs = σ.activeAllocs := congrArg AllocState.activeAllocs hallocs
        refine ⟨h₁.allocated (categorize_attributed h.fits hact hd he hcat), ?_⟩
        simp [LockManager.allocated]

/-- One iteration keeps the attribution. -/
theorem Embedded.step {cfg : Config} {σ σ' : State} {e : Event} (h : Embedded cfg σ.allocs σ.lockManager)
    (hd : AllocsDisjoint σ.activeAllocs) (hk : KeepsAttribution cfg σ e) (hst : step cfg σ e = .ok σ') :
    Embedded cfg σ'.allocs σ'.lockManager := by
  have hacc := step_accounted hst
  have h₁ := h.unmoved (unmoved_attributed cfg σ e)
  rcases step_ok hst with ⟨-, rfl⟩ | ⟨hs, hh⟩
  · exact h
  · cases e with
    | alloc ts base size typeStr =>
      have hfresh := hk.1 ⟨σ', hst⟩ ts base size typeStr rfl
      cases hh with
      | quiet _ _ hq _ _ =>
        have h₂ := h₁.unmoved hq.lm.unmoved
        have hlocks : σ'.lockManager.locks = σ.lockManager.locks :=
          hq.lm.unmoved.locks.trans (unmoved_attributed cfg σ _).locks
        generalize σ'.allocs = v at hacc
        cases hacc with
        | rejected _ _ => exact h₂
        | admitted _ _ _ _ i subclasses next hfree hc =>
          have hno : ¬Rejected cfg σ (.alloc ts base size typeStr) := by
            rintro (hocc | hun)
            · exact hocc hfree
            · refine hun ?_
              cases hc with
              | known _ hi => exact .inl (hasSubclass_iff.mpr ⟨_, hi⟩)
              | fresh d hi hd => exact .inr (knows_iff.mpr ⟨d, hd⟩)
          obtain ⟨hsize, hstop, hid, hout⟩ := hfresh hno
          refine h₂.admitted hfree hsize hstop hid ?_
          intro x l hl
          refine hout x (Std.ExtTreeMap.mem_keys.mpr ?_)
          rw [Std.ExtTreeMap.mem_iff_isSome_getElem?, ← hlocks, hl]
          rfl
    | free ts base size =>
      rw [← step_free hst]
      have hallocs := attributed_allocs cfg σ (.free ts base size)
      rw [← hallocs] at h₁
      generalize attributed cfg σ (.free ts base size) = τ at h₁
      unfold handleFree
      cases ha : τ.activeAllocs[base]? with
      | none => exact h₁.unmoved ⟨rfl, rfl, fun _ => rfl, fun _ => rfl⟩
      | some a => exact h₁.freed ha
    | lockOp ev =>
      have hallocs : σ'.allocs = σ.allocs := by
        generalize σ'.allocs = v at hacc
        cases hacc
        rfl
      rw [hallocs]
      cases hh with
      | quiet _ _ hq _ _ => exact h₁.unmoved hq.lm.unmoved
      | acted _ l σ₁ lm hres _ ht =>
        exact (h.resolved hd hs hk.2 hres).2.1.unmoved (LockManager.transition_framed ht).unmoved
    | access ev =>
      have hallocs : σ'.allocs = σ.allocs := by
        generalize σ'.allocs = v at hacc
        cases hacc
        rfl
      rw [hallocs]
      cases hh with
      | quiet _ _ hq _ _ => exact h₁.unmoved hq.lm.unmoved
      | buffered _ a trace next traces ha hin => exact h₁
    | other ts c =>
      have hallocs : σ'.allocs = σ.allocs := by
        generalize σ'.allocs = v at hacc
        cases hacc
        rfl
      rw [hallocs]
      cases hh with
      | quiet _ _ hq _ _ => exact h₁.unmoved hq.lm.unmoved

/-- Objects are only added, and the attribution of an old one never changes. -/
structure LockManager.Extends (lm lm' : LockManager) : Prop where
  objects : lm.objects ≤ lm'.objects
  kept : ∀ l, l < lm.objects → (lm'.heap l).allocationId = (lm.heap l).allocationId

theorem LockManager.Extends.trans {lm₁ lm₂ lm₃ : LockManager} (h : lm₁.Extends lm₂) (h' : lm₂.Extends lm₃) :
    lm₁.Extends lm₃ where
  objects := h.objects.trans h'.objects
  kept l hl := (h'.kept l (Nat.lt_of_lt_of_le hl h.objects)).trans (h.kept l hl)

theorem LockManager.Unmoved.extends {lm lm' : LockManager} (h : lm.Unmoved lm') : lm.Extends lm' where
  objects := h.objects.ge
  kept l _ := h.allocationId l

theorem Resolved.extends {cfg : Config} {σ σ' : State} {e : LockEvent} {l : LockPtr} (h : Resolved cfg σ e l σ') :
    σ.lockManager.Extends σ'.lockManager := by
  cases h with
  | known l hl => exact ⟨Nat.le_refl _, fun _ _ => rfl⟩
  | fresh cls id name hl isP hc rows =>
    refine ⟨Nat.le_succ _, fun k hk => ?_⟩
    rw [LockManager.heap_allocated_old _ _ _ _ _ _ _ hk]

theorem step_extends {cfg : Config} {σ σ' : State} {e : Event} (hst : step cfg σ e = .ok σ') :
    σ.lockManager.Extends σ'.lockManager := by
  rcases step_ok hst with ⟨-, rfl⟩ | ⟨-, hh⟩
  · exact ⟨Nat.le_refl _, fun _ _ => rfl⟩
  · refine (unmoved_attributed cfg σ e).extends.trans ?_
    cases hh with
    | quiet _ _ hq _ _ => exact hq.lm.unmoved.extends
    | freed ts base size a rows ha => exact ⟨Nat.le_refl _, fun _ _ => rfl⟩
    | buffered ev a trace next traces ha hin => exact ⟨Nat.le_refl _, fun _ _ => rfl⟩
    | acted ev l σ₁ lm hres hr ht => exact hr.extends.trans (LockManager.transition_framed ht).unmoved.extends

/-- What has come since an earlier state: allocations that were not active then are younger
than everything known then. -/
structure Since (τ σ : State) : Prop where
  lm : τ.lockManager.Extends σ.lockManager
  next : τ.curAllocID ≤ σ.curAllocID
  active : ∀ (base : Nat) (a : Allocation), σ.activeAllocs[base]? = some a →
    τ.activeAllocs[base]? = some a ∨ τ.curAllocID ≤ a.id

theorem Since.step {cfg : Config} {τ σ σ' : State} {e : Event} (h : Since τ σ) (hst : step cfg σ e = .ok σ') :
    Since τ σ' := by
  have hacc := step_accounted hst
  have hlm := h.lm.trans (step_extends hst)
  suffices hv : τ.curAllocID ≤ σ'.allocs.curAllocID ∧ ∀ (base : Nat) (a : Allocation),
      σ'.allocs.activeAllocs[base]? = some a → τ.activeAllocs[base]? = some a ∨ τ.curAllocID ≤ a.id from
    ⟨hlm, hv.1, hv.2⟩
  generalize σ'.allocs = v at hacc
  cases hacc with
  | rejected _ _ => exact ⟨h.next, h.active⟩
  | admitted ts base size typeStr i subclasses next hfree hc =>
    refine ⟨Nat.le_succ_of_le h.next, ?_⟩
    intro b a ha
    rw [OrdMap.getElem?_insert_eq] at ha
    split at ha
    · cases ha
      exact .inr h.next
    · exact h.active b a ha
  | freed ts base size d hd =>
    refine ⟨h.next, ?_⟩
    intro b a ha
    rw [OrdMap.getElem?_erase_eq] at ha
    split at ha
    · cases ha
    · exact h.active b a ha

theorem run_since {cfg : Config} {events : List Event} {τ σ : State} (h : run (step cfg) events τ = .ok σ) :
    Since τ σ :=
  run_invariant (C := fun _ _ => True) (I := Since τ) (fun _ _ _ hI _ hst => hI.step hst)
    (fun _ _ _ _ _ _ => trivial) ⟨⟨Nat.le_refl _, fun _ _ => rfl⟩, Nat.le_refl _, fun _ _ ha => .inl ha⟩ h

/-- Locks are attributed to what is around them now in every run that admits no allocation over
a registered lock and creates no lock behind an empty allocation. -/
theorem locks_current {cfg : Config} {events : List Event}
    (hd : Throughout (step cfg) (fun σ => AllocsDisjoint σ.activeAllocs) events (.init cfg))
    (hk : Along (step cfg) (KeepsAttribution cfg) events (.init cfg)) : LocksCurrent cfg events := by
  have hinv : ∀ pre post, events = pre ++ post → ∀ σ, run (step cfg) pre (.init cfg) = .ok σ →
      Embedded cfg σ.allocs σ.lockManager := by
    refine throughout_of_invariant (C := fun σ e => AllocsDisjoint σ.activeAllocs ∧ KeepsAttribution cfg σ e)
      (fun _ _ _ hI hC hst => hI.step hC.1 hC.2 hst) ?_ (init_embedded cfg)
    intro pre e post he σ hσ
    exact ⟨hd pre (e :: post) he σ hσ, hk pre e post he σ hσ⟩
  intro pre ev post σ he hσ hs l σ₁ hr
  obtain ⟨-, hemb, hreg⟩ := (hinv pre _ he σ hσ).resolved (hd pre _ he σ hσ) hs (hk pre _ post he σ hσ).2 hr
  have hcur := hemb.current ev.address l hreg
  refine ⟨hcur, ?_⟩
  rintro before after τ rfl hτ base a ha hx hold
  by_contra hlt
  have hlt : l < τ.lockManager.objects := Nat.lt_of_not_le hlt
  obtain ⟨τ', hτ', hrest⟩ := run_append_ok.mp hσ
  rw [hτ, Except.ok.injEq] at hτ'
  subst hτ'
  have hsince := run_since hrest
  have hext := hsince.lm.trans
    ((unmoved_attributed cfg σ (.lockOp ev)).extends.trans (resolveLock_some hr).extends)
  -- an object of that time names something older than the allocation
  have hid := (hinv before _ (by rw [he, List.append_assoc]) τ hτ).older l hlt
  rw [← hext.kept l hlt, hcur.inside base a ha hx] at hid
  rcases hsince.active base a ha with hact | hle
  · exact hold hact
  · exact absurd hid (Nat.not_lt_of_le hle)

/-- The condition as a test, which asks admission of every announced allocation. -/
def keepsAttribution (σ : State) : Event → Bool
  | .alloc _ base size _ => size < 2 ^ 31 && base + size < 2 ^ 64 && σ.curAllocID < 2 ^ 32 &&
      σ.lockManager.locks.keys.all (fun x => !(base ≤ x && x < base + size))
  | .lockOp ev => NoneEmptyBetween σ.activeAllocs ev.address
  | _ => true

theorem keepsAttribution_sound {cfg : Config} {σ : State} {e : Event} (h : keepsAttribution σ e = true) :
    KeepsAttribution cfg σ e := by
  refine ⟨?_, ?_⟩
  · rintro - ts base size typeStr rfl -
    simp only [keepsAttribution, Bool.and_eq_true, decide_eq_true_eq, List.all_eq_true, Bool.not_eq_true',
      Bool.and_eq_false_iff, decide_eq_false_iff_not] at h
    obtain ⟨⟨⟨hsize, hstop⟩, hid⟩, hno⟩ := h
    exact ⟨hsize, hstop, hid, fun x hx hin => (hno x hx).elim (· hin.1) (· hin.2)⟩
  · rintro ev rfl - - -
    simpa [keepsAttribution] using h

/-- An operation on a spin lock inside the fixed allocation. -/
def spinEvent (op : LockOp) (ts : Nat) : LockEvent :=
  ⟨op, ts, 0x1008, "/linux/fs/inode.c", ts, "i_lock", "raw_spinlock_t", 0, 0⟩

def spinOp (op : LockOp) (ts : Nat) : Event := .lockOp (spinEvent op ts)

/-- The memory of a lock is freed and allocated again. -/
def reallocated : List Event :=
  [inodeAlloc, spinOp .pWrite 2, spinOp .vWrite 3, .free 4 0x1000 64, .alloc 5 0x1000 64 "inode", spinOp .pWrite 6]

theorem reallocated_current : LocksCurrent (.trackAll false) reallocated :=
  locks_current
    (fun pre post he σ hσ => of_decide_eq_true (throughout_of_check
      (p := fun σ => decide (AllocsDisjoint σ.activeAllocs)) (by decide +kernel) pre post he σ hσ))
    (fun pre e post he σ hσ => keepsAttribution_sound (along_of_check
      (c := fun σ e => keepsAttribution σ e) (by decide +kernel) pre e post he σ hσ))

/-- A lock is used before the allocation it resides in is announced. -/
def staleLock : List Event := [spinOp .pWrite 1, spinOp .vWrite 2, .alloc 3 0x1000 64 "inode", spinOp .pWrite 4]

/-- The last operation acts on the old object, which is attributed to the pseudo allocation. -/
theorem staleLock_not_current :
    Throughout (step (.trackAll false)) (fun σ => AllocsDisjoint σ.activeAllocs) staleLock (.init (.trackAll false)) ∧
      staleLock.length < 2 ^ 32 ∧ ¬LocksCurrent (.trackAll false) staleLock := by
  refine ⟨?_, by decide, ?_⟩
  · intro pre post he σ hσ
    exact of_decide_eq_true (throughout_of_check
      (p := fun σ => decide (AllocsDisjoint σ.activeAllocs)) (by decide +kernel) pre post he σ hσ)
  · intro h
    have hcheck : okAnd (run (step (.trackAll false)) (staleLock.take 3) (.init (.trackAll false))) (fun σ =>
        decide (σ.activeAllocs[0x1000]? = some ⟨3, 2, 64, 0⟩) && okAnd (resolveLock (.trackAll false)
          (attributed (.trackAll false) σ (spinOp .pWrite 4)) (spinEvent .pWrite 4)) (fun r =>
            decide (r.1 = some 0 ∧ (r.2.lockManager.heap 0).allocationId = 1))) = true := by decide +kernel
    obtain ⟨σ, hσ, hσ'⟩ := okAnd_iff.mp hcheck
    obtain ⟨ha, hr⟩ := Bool.and_eq_true_iff.mp hσ'
    obtain ⟨⟨l, σ₁⟩, hr, hl⟩ := okAnd_iff.mp hr
    obtain ⟨rfl, hone⟩ := of_decide_eq_true hl
    have := (h (staleLock.take 3) _ [] σ rfl hσ (by decide) 0 σ₁ hr).1.inside 0x1000 _ (of_decide_eq_true ha) (by decide)
    rw [hone] at this
    exact absurd this (by decide)

end LockDoc.Convert
