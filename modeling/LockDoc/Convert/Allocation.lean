import LockDoc.Convert.Attribute

/-!
# Allocations over a run

What one iteration of the main loop does to the allocations, the subclasses and the rows
of `allocations.csv`. An `alloc` event is admitted or rejected, a `free` event finds its
allocation or not, and every other event leaves all of this alone. Ids are handed out
once, and a subclass keeps its place in the vector.
-/
namespace LockDoc.Convert

open FallibleRun

/-- The part of the state that `alloc` and `free` events work on. -/
structure AllocState where
  activeAllocs : Std.ExtTreeMap Nat Allocation
  subclasses : List Subclass
  curAllocID : Nat
  curSubclassID : Nat
  allocOFile : List AllocRow

def State.allocs (σ : State) : AllocState :=
  ⟨σ.activeAllocs, σ.subclasses, σ.curAllocID, σ.curSubclassID, σ.allocOFile⟩

def dataTypeName (typeStr : String) : String := (splitType typeStr).1

def subclassName (typeStr : String) : String := (splitType typeStr).2.1

def realSubclass (typeStr : String) : Bool := (splitType typeStr).2.2

/-- The data type of a type string is one of the data types. -/
def Config.knows (cfg : Config) (typeStr : String) : Prop := ∃ t ∈ cfg.types, t.name = dataTypeName typeStr

/-- The vector already holds a subclass of that name, of whatever data type. -/
def State.hasSubclass (σ : State) (typeStr : String) : Prop := ∃ s ∈ σ.subclasses, s.name = subclassName typeStr

/-- The subclass index of an admitted allocation, and the vector of subclasses afterwards. -/
inductive Classified (cfg : Config) (σ : State) (typeStr : String) : Nat → List Subclass → Nat → Prop
  | known (i : Nat) (hi : σ.subclasses.findIdx? (fun s => s.name = subclassName typeStr) = some i) :
      Classified cfg σ typeStr i σ.subclasses σ.curSubclassID
  | fresh (d : Nat) (hi : σ.subclasses.findIdx? (fun s => s.name = subclassName typeStr) = none)
      (hd : cfg.types.findIdx? (fun t => t.name = dataTypeName typeStr) = some d) :
      Classified cfg σ typeStr σ.subclasses.length
        (σ.subclasses ++ [⟨σ.curSubclassID, subclassName typeStr, d, realSubclass typeStr⟩])
        (σ.curSubclassID + 1)

/-- The event changes no allocation. -/
def Rejected (cfg : Config) (σ : State) : Event → Prop
  | .alloc _ base _ typeStr => σ.activeAllocs[base]? ≠ none ∨ ¬(σ.hasSubclass typeStr ∨ cfg.knows typeStr)
  | .free _ base _ => σ.activeAllocs[base]? = none
  | _ => True

/-- The row of a freed allocation. -/
def freedRow (σ : State) (a : Allocation) (ts base size : Nat) : AllocRow :=
  ⟨a.id, subclassId σ a, base, size, a.start, some ts⟩

/-- Everything an iteration can do to the allocations. -/
inductive Accounted (cfg : Config) (σ : State) : Event → AllocState → Prop
  | rejected (e : Event) (hr : Rejected cfg σ e) : Accounted cfg σ e σ.allocs
  | admitted (ts base size : Nat) (typeStr : String) (i : Nat) (subclasses : List Subclass) (next : Nat)
      (hfree : σ.activeAllocs[base]? = none) (hc : Classified cfg σ typeStr i subclasses next) :
      Accounted cfg σ (.alloc ts base size typeStr)
        ⟨σ.activeAllocs.insert base ⟨ts, σ.curAllocID, toInt size, i⟩, subclasses, σ.curAllocID + 1, next,
          σ.allocOFile⟩
  | freed (ts base size : Nat) (a : Allocation) (ha : σ.activeAllocs[base]? = some a) :
      Accounted cfg σ (.free ts base size)
        { σ.allocs with
          activeAllocs := σ.activeAllocs.erase base
          allocOFile := σ.allocOFile ++ [freedRow σ a ts base size] }

theorem knows_iff {cfg : Config} {typeStr : String} :
    cfg.knows typeStr ↔ ∃ d, cfg.types.findIdx? (fun t => t.name = dataTypeName typeStr) = some d := by
  rw [← Option.isSome_iff_exists, List.findIdx?_isSome, List.any_eq_true]
  simp [Config.knows]

theorem hasSubclass_iff {σ : State} {typeStr : String} :
    σ.hasSubclass typeStr ↔ ∃ i, σ.subclasses.findIdx? (fun s => s.name = subclassName typeStr) = some i := by
  rw [← Option.isSome_iff_exists, List.findIdx?_isSome, List.any_eq_true]
  simp [State.hasSubclass]

theorem handleAlloc_accounted {cfg : Config} {σ σ' : State} {ts base size : Nat} {typeStr : String}
    (h : handleAlloc cfg σ ts base size typeStr = .ok σ') :
    Accounted cfg σ (.alloc ts base size typeStr) σ'.allocs := by
  unfold handleAlloc at h
  split at h
  · rename_i hocc
    cases h
    refine .rejected _ (.inl ?_)
    rw [Std.ExtTreeMap.contains_eq_isSome_getElem?, Option.isSome_iff_ne_none] at hocc
    exact hocc
  · rename_i hocc
    rw [Std.ExtTreeMap.contains_eq_isSome_getElem?, Bool.not_eq_true, Option.isSome_eq_false_iff,
      Option.isNone_iff_eq_none] at hocc
    obtain ⟨⟨idx, σ₁⟩, h₁, h⟩ := bind_ok.mp h
    unfold findSubclass at h₁
    simp only at h₁
    split at h₁
    · rename_i i hi
      cases h₁
      cases h
      exact .admitted ts base size typeStr i _ _ hocc (.known i hi)
    · rename_i hi
      split at h₁
      · rename_i hd
        cases h₁
        cases h
        refine .rejected _ (.inr ?_)
        rw [hasSubclass_iff, knows_iff]
        rintro (⟨i, hi'⟩ | ⟨d, hd'⟩)
        · exact absurd (hi.symm.trans hi') (by simp)
        · exact absurd (hd.symm.trans hd') (by simp)
      · rename_i d hd
        split at h₁
        · cases h₁
        · cases h₁
          cases h
          exact .admitted ts base size typeStr _ _ _ hocc (.fresh d hi hd)

theorem resolveLock_allocs {cfg : Config} {σ σ' : State} {e : LockEvent} {l : Option LockPtr}
    (h : resolveLock cfg σ e = .ok (l, σ')) : σ'.allocs = σ.allocs := by
  unfold resolveLock at h
  split at h
  · cases h
    rfl
  · split at h
    · cases h
      rfl
    · split at h
      · cases h
        rfl
      · obtain ⟨⟨k, lm⟩, -, h⟩ := bind_ok.mp h
        cases h
        rfl

theorem handleAccess_allocs {σ σ' : State} {e : AccessEvent} (h : handleAccess σ e = .ok σ') :
    σ'.allocs = σ.allocs := by
  unfold handleAccess at h
  split at h
  · cases h
    rfl
  · split at h
    · cases h
    · obtain ⟨trace, traces, next, hst⟩ := addStacktrace_eq σ e.instrPtr e.stacktrace
      simp only [hst] at h
      cases h
      rfl

theorem handlePV_allocs {cfg : Config} {σ σ' : State} {e : LockEvent} (h : handlePV cfg σ e = .ok σ') :
    σ'.allocs = σ.allocs := by
  obtain ⟨⟨lock, σ₁⟩, h₁, h⟩ := bind_ok.mp h
  have hsame := resolveLock_allocs h₁
  cases lock with
  | none =>
    cases h
    exact hsame
  | some l =>
    obtain ⟨lm, -, h⟩ := bind_ok.mp h
    cases h
    exact hsame

theorem dispatch_accounted {cfg : Config} {σ σ' : State} {e : Event} (h : dispatch cfg σ e = .ok σ') :
    Accounted cfg σ e σ'.allocs := by
  cases e with
  | alloc ts base size typeStr => exact handleAlloc_accounted h
  | free ts base size =>
    cases h
    unfold handleFree
    split
    · rename_i ha
      exact .rejected _ ha
    · rename_i a ha
      exact .freed ts base size a ha
  | lockOp e =>
    rw [handlePV_allocs h]
    exact .rejected _ trivial
  | access e =>
    rw [handleAccess_allocs h]
    exact .rejected _ trivial
  | other ts c =>
    cases h
    exact .rejected _ trivial

/-- One iteration, on the allocations. -/
theorem step_accounted {cfg : Config} {σ σ' : State} {e : Event} (h : step cfg σ e = .ok σ') :
    Accounted cfg σ e σ'.allocs := by
  unfold step at h
  by_cases hs : !cfg.processSeqlock && e.isSeqlock
  · rw [if_pos hs] at h
    cases h
    cases e with
    | lockOp ev => exact .rejected _ trivial
    | alloc ts base size typeStr => simp [Event.isSeqlock] at hs
    | free ts base size => simp [Event.isSeqlock] at hs
    | access ev => simp [Event.isSeqlock] at hs
    | other ts c => simp [Event.isSeqlock] at hs
  · rw [if_neg hs] at h
    change dispatch cfg (attributed cfg σ e) e = .ok σ' at h
    have ha := dispatch_accounted h
    -- the attribution of accesses changes nothing that the rules mention
    rw [attributed_frame] at ha
    generalize σ'.allocs = v at ha
    cases ha with
    | rejected _ hr => exact .rejected _ hr
    | admitted ts base size typeStr i subclasses next hfree hc =>
      refine .admitted ts base size typeStr i subclasses next hfree ?_
      cases hc with
      | known _ hi => exact .known _ hi
      | fresh d hi hd => exact .fresh d hi hd
    | freed ts base size a ha => exact .freed ts base size a ha

/-- The ids of all allocations so far, freed or active. -/
def AllocState.ids (v : AllocState) : List Nat :=
  v.allocOFile.map AllocRow.id ++ v.activeAllocs.toList.map (fun kv => kv.2.id)

/-- Ids are handed out in order, and an allocation knows its subclass. -/
structure Numbered (v : AllocState) : Prop where
  next : v.curSubclassID = v.subclasses.length + 1
  place : ∀ (i : Nat) (s : Subclass), v.subclasses[i]? = some s → s.id = i + 1
  index : ∀ (base : Nat) (a : Allocation), v.activeAllocs[base]? = some a → a.subclassIdx < v.subclasses.length
  distinct : v.ids.Nodup
  below : ∀ i ∈ v.ids, i < v.curAllocID

theorem init_numbered (cfg : Config) : Numbered (State.init cfg).allocs where
  next := rfl
  place i s hs := by simp [State.allocs, State.init] at hs
  index base a ha := by simp [State.allocs, State.init] at ha
  distinct := by
    have : (State.init cfg).allocs.ids = if cfg.includeAllLocks then [1] else [] := by
      simp only [AllocState.ids, State.allocs, State.init, Config.pseudoAllocID]
      cases cfg.includeAllLocks <;> simp
    rw [this]
    split <;> simp
  below i hi := by
    simp only [AllocState.ids, State.allocs, State.init, Config.pseudoAllocID] at hi ⊢
    cases hu : cfg.includeAllLocks with
    | false => simp [hu] at hi
    | true => simp [hu] at hi ⊢; omega

theorem Classified.index_lt {cfg : Config} {σ : State} {typeStr : String} {i next : Nat} {subclasses : List Subclass}
    (h : Classified cfg σ typeStr i subclasses next) : i < subclasses.length := by
  cases h with
  | known _ hi => exact (List.findIdx?_eq_some_iff_getElem.mp hi).1
  | fresh d hi hd => simp

theorem Classified.isPrefix {cfg : Config} {σ : State} {typeStr : String} {i next : Nat} {subclasses : List Subclass}
    (h : Classified cfg σ typeStr i subclasses next) : σ.subclasses <+: subclasses := by
  cases h with
  | known _ hi => exact List.prefix_rfl
  | fresh d hi hd => exact List.prefix_append _ _

/-- A new allocation has the next id. -/
theorem Numbered.admitted {cfg : Config} {σ : State} (h : Numbered σ.allocs) {ts base size : Nat} {typeStr : String}
    {i next : Nat} {subclasses : List Subclass} (hfree : σ.activeAllocs[base]? = none)
    (hc : Classified cfg σ typeStr i subclasses next) :
    Numbered ⟨σ.activeAllocs.insert base ⟨ts, σ.curAllocID, toInt size, i⟩, subclasses, σ.curAllocID + 1, next,
      σ.allocOFile⟩ := by
  have hids : (AllocState.ids ⟨σ.activeAllocs.insert base ⟨ts, σ.curAllocID, toInt size, i⟩, subclasses,
      σ.curAllocID + 1, next, σ.allocOFile⟩).Perm (σ.curAllocID :: σ.allocs.ids) := by
    have hp := (OrdMap.toList_insert_perm hfree ⟨ts, σ.curAllocID, toInt size, i⟩).map
      (fun kv : Nat × Allocation => kv.2.id)
    exact ((List.Perm.refl _).append hp).trans List.perm_middle
  refine ⟨?_, ?_, ?_, ?_, ?_⟩
  · cases hc with
    | known _ hi => exact h.next
    | fresh d hi hd =>
      have := h.next
      simp only [State.allocs, List.length_append, List.length_singleton] at this ⊢
      omega
  · intro j s hs
    cases hc with
    | known _ hi => exact h.place j s hs
    | fresh d hi hd =>
      rcases Nat.lt_trichotomy j σ.subclasses.length with hj | rfl | hj
      · rw [List.getElem?_append_left hj] at hs
        exact h.place j s hs
      · simp only [List.getElem?_concat_length, Option.some.injEq] at hs
        rw [← hs]
        exact h.next
      · rw [List.getElem?_eq_none (by simp; omega)] at hs
        cases hs
  · intro b a ha
    simp only [OrdMap.getElem?_insert_eq] at ha
    split at ha
    · cases ha
      exact hc.index_lt
    · exact lt_of_lt_of_le (h.index b a ha) hc.isPrefix.length_le
  · rw [hids.nodup_iff, List.nodup_cons]
    refine ⟨?_, h.distinct⟩
    intro hm
    exact absurd (h.below _ hm) (Nat.lt_irrefl _)
  · intro j hj
    rcases List.mem_cons.mp (hids.mem_iff.mp hj) with rfl | hj
    · exact Nat.lt_succ_self _
    · exact Nat.lt_succ_of_lt (h.below j hj)

/-- The row of a freed allocation takes its id along. -/
theorem Numbered.freed {σ : State} (h : Numbered σ.allocs) {ts base size : Nat} {a : Allocation}
    (ha : σ.activeAllocs[base]? = some a) :
    Numbered { σ.allocs with
      activeAllocs := σ.activeAllocs.erase base
      allocOFile := σ.allocOFile ++ [freedRow σ a ts base size] } := by
  have hids : (AllocState.ids { σ.allocs with
      activeAllocs := σ.activeAllocs.erase base
      allocOFile := σ.allocOFile ++ [freedRow σ a ts base size] }).Perm σ.allocs.ids := by
    have hp := (OrdMap.toList_perm_cons σ.activeAllocs ha).map (fun kv : Nat × Allocation => kv.2.id)
    simp only [AllocState.ids, State.allocs, List.map_append, List.map_cons, List.map_nil, List.append_assoc,
      List.singleton_append]
    exact ((List.Perm.refl _).append hp).symm
  refine ⟨h.next, h.place, ?_, hids.nodup_iff.mpr h.distinct, fun i hi => h.below i (hids.mem_iff.mp hi)⟩
  intro b c hc
  simp only [OrdMap.getElem?_erase_eq] at hc
  split at hc
  · cases hc
  · exact h.index b c hc

theorem Numbered.step {cfg : Config} {σ σ' : State} {e : Event} (h : Numbered σ.allocs)
    (hst : step cfg σ e = .ok σ') : Numbered σ'.allocs := by
  have ha := step_accounted hst
  generalize σ'.allocs = v at ha
  cases ha with
  | rejected _ _ => exact h
  | admitted ts base size typeStr i subclasses next hfree hc => exact h.admitted hfree hc
  | freed ts base size a ha => exact h.freed ha

theorem run_numbered {cfg : Config} {trace : List Event} {σ : State}
    (h : run (step cfg) trace (.init cfg) = .ok σ) : Numbered σ.allocs :=
  run_invariant (C := fun _ _ => True) (I := fun σ => Numbered σ.allocs) (fun _ _ _ hI _ hst => hI.step hst)
    (fun _ _ _ _ _ _ => trivial) (init_numbered cfg) h

/-- The subclass id of an active allocation is the place of its subclass, counted from one. -/
theorem Numbered.subclassId_eq {σ : State} (h : Numbered σ.allocs) {base : Nat} {a : Allocation}
    (ha : σ.activeAllocs[base]? = some a) : subclassId σ a = a.subclassIdx + 1 := by
  have hs := List.getElem?_eq_getElem (h.index base a ha)
  unfold subclassId
  change σ.subclasses[a.subclassIdx]? = _ at hs
  rw [hs]
  exact h.place _ _ hs

theorem step_subclasses {cfg : Config} {σ σ' : State} {e : Event} (h : step cfg σ e = .ok σ') :
    σ.subclasses <+: σ'.subclasses := by
  have ha := step_accounted h
  change σ.subclasses <+: σ'.allocs.subclasses
  generalize σ'.allocs = v at ha
  cases ha with
  | rejected _ _ => exact List.prefix_rfl
  | admitted ts base size typeStr i subclasses next hfree hc => exact hc.isPrefix
  | freed ts base size a ha => exact List.prefix_rfl

/-- An allocation is still active, or has its row. -/
def Traced (base : Nat) (a : Allocation) (σ : State) : Prop :=
  σ.activeAllocs[base]? = some a ∨ ∃ row ∈ σ.allocOFile, row.id = a.id ∧ row.subclassId = a.subclassIdx + 1

/-- What happens to an active allocation in one iteration: it stays, or is freed and gets its row. -/
theorem step_active {cfg : Config} {σ σ' : State} {e : Event} {base : Nat} {a : Allocation}
    (ha : σ.activeAllocs[base]? = some a) (hst : step cfg σ e = .ok σ') :
    σ'.activeAllocs[base]? = some a ∨
      ∃ ts size, e = .free ts base size ∧ freedRow σ a ts base size ∈ σ'.allocOFile := by
  have hacc := step_accounted hst
  change σ'.allocs.activeAllocs[base]? = some a ∨ ∃ ts size, _ ∧ _ ∈ σ'.allocs.allocOFile
  generalize σ'.allocs = v at hacc
  cases hacc with
  | rejected _ _ => exact .inl ha
  | admitted ts base' size typeStr i subclasses next hfree hc =>
    refine .inl ?_
    simp only [OrdMap.getElem?_insert_eq]
    rw [if_neg, ha]
    rintro rfl
    rw [ha] at hfree
    cases hfree
  | freed ts base' size b hb =>
    by_cases hbase : base = base'
    · subst hbase
      rw [hb, Option.some.injEq] at ha
      subst ha
      exact .inr ⟨ts, size, rfl, by simp⟩
    · refine .inl ?_
      simp only [OrdMap.getElem?_erase_eq]
      rw [if_neg hbase, ha]

/-- Rows of allocations stay. -/
theorem step_allocRows {cfg : Config} {σ σ' : State} {e : Event} (hst : step cfg σ e = .ok σ') :
    σ.allocOFile <+: σ'.allocOFile := by
  have hacc := step_accounted hst
  change σ.allocOFile <+: σ'.allocs.allocOFile
  generalize σ'.allocs = v at hacc
  cases hacc with
  | rejected _ _ => exact List.prefix_rfl
  | admitted ts base' size typeStr i subclasses next hfree hc => exact List.prefix_rfl
  | freed ts base' size b hb => exact List.prefix_append _ _

theorem Traced.step {cfg : Config} {σ σ' : State} {e : Event} {base : Nat} {a : Allocation} (hn : Numbered σ.allocs)
    (h : Traced base a σ) (hst : step cfg σ e = .ok σ') : Traced base a σ' := by
  rcases h with h | ⟨row, hrow, hid⟩
  · rcases step_active h hst with hactive | ⟨ts, size, -, hrow⟩
    · exact .inl hactive
    · exact .inr ⟨_, hrow, rfl, hn.subclassId_eq h⟩
  · exact .inr ⟨row, (step_allocRows hst).subset hrow, hid⟩

/-- What becomes of an allocation, and of its subclass, in the rest of a run. -/
theorem run_traced {cfg : Config} {trace : List Event} {σ τ : State} {base : Nat} {a : Allocation}
    (hn : Numbered σ.allocs) (ha : σ.activeAllocs[base]? = some a) (h : run (step cfg) trace σ = .ok τ) :
    Traced base a τ ∧ σ.subclasses <+: τ.subclasses := by
  have hinv := run_invariant (C := fun _ _ => True)
    (I := fun τ => Numbered τ.allocs ∧ Traced base a τ ∧ σ.subclasses <+: τ.subclasses)
    (fun _ _ _ ⟨hN, hT, hS⟩ _ hst => ⟨hN.step hst, hT.step hN hst, hS.trans (step_subclasses hst)⟩)
    (fun _ _ _ _ _ _ => trivial) ⟨hn, .inl ha, List.prefix_rfl⟩ h
  exact hinv.2

/-- What follows the main loop adds the rows of the open allocations. -/
theorem convert_allocs {cfg : Config} {trace : List Event} {σ : State} (h : convert cfg trace = .ok σ) :
    ∃ τ, run (step cfg) trace (.init cfg) = .ok τ ∧ σ.subclasses = τ.subclasses ∧
      σ.allocOFile = τ.allocOFile ++ openAllocRows τ := by
  obtain ⟨τ, hτ, h⟩ := bind_ok.mp h
  obtain ⟨lm, -, h⟩ := bind_ok.mp h
  cases h
  refine ⟨τ, hτ, ?_⟩
  unfold writeMemAccesses
  simp only [show ¬('v' = 'r' ∨ 'v' = 'w') by decide, if_false]
  rw [writeMemAccesses_frame]
  exact ⟨rfl, rfl⟩

/-- The ids in `allocations.csv` are those of all allocations. -/
theorem convert_ids {τ : State} : (τ.allocOFile ++ openAllocRows τ).map AllocRow.id = τ.allocs.ids := by
  simp [AllocState.ids, State.allocs, openAllocRows, Function.comp_def]

/-- Every allocation that is admitted has its row in the end. -/
theorem convert_row {τ : State} {base : Nat} {a : Allocation} (hn : Numbered τ.allocs) (h : Traced base a τ) :
    ∃ row ∈ τ.allocOFile ++ openAllocRows τ, row.id = a.id ∧ row.subclassId = a.subclassIdx + 1 := by
  rcases h with h | ⟨row, hrow, hid⟩
  · refine ⟨⟨a.id, subclassId τ a, base, a.size, a.start, none⟩, ?_, rfl, hn.subclassId_eq h⟩
    refine List.mem_append_right _ (List.mem_map.mpr ⟨(base, a), ?_, rfl⟩)
    exact Std.ExtTreeMap.mem_toList_iff_getElem?_eq_some.mpr h
  · exact ⟨row, List.mem_append_left _ hrow, hid⟩

end LockDoc.Convert
