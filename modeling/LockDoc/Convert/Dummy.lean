import LockDoc.Lib.Worklist
import LockDoc.Convert.Allocation

/-!
# Dummy and real subclasses

A data type whose `alloc` events name no subclass has a single dummy subclass, named like
the data type itself. The sanity check of `LOCKDOC_ALLOC` looks for that name, so it
notices a real subclass that comes after the dummy one, but not the other way round.
-/
namespace LockDoc.Convert

open FallibleRun
open Worklist (okAnd okAnd_iff)

/-- The registered subclasses of each data type are all real, or a single dummy one. -/
def Unmixed (subclasses : List Subclass) : Prop :=
  ∀ d, (∀ s ∈ subclasses, s.dataTypeIdx = d → s.realSubclass = true) ∨
    ∃ s, subclasses.filter (fun s => s.dataTypeIdx = d) = [s] ∧ s.realSubclass = false

/-- No `alloc` event registers a dummy subclass for a data type that has subclasses already. -/
def NoLateDummy (cfg : Config) (σ : State) (e : Event) : Prop :=
  ∀ ts base size typeStr d, e = .alloc ts base size typeStr → σ.activeAllocs[base]? = none →
    realSubclass typeStr = false → ¬σ.hasSubclass typeStr →
    cfg.types.findIdx? (fun t => t.name = dataTypeName typeStr) = some d → ∀ s ∈ σ.subclasses, s.dataTypeIdx ≠ d

theorem dataTypeName_of_dummy {typeStr : String} (h : realSubclass typeStr = false) :
    dataTypeName typeStr = subclassName typeStr := by
  unfold realSubclass splitType at h
  unfold dataTypeName subclassName splitType
  split at h
  · cases h
  · rename_i hc
    rw [if_neg hc]

theorem handleAlloc_sane {cfg : Config} {σ σ' : State} {ts base size : Nat} {typeStr : String}
    (h : handleAlloc cfg σ ts base size typeStr = .ok σ') (hne : σ'.subclasses ≠ σ.subclasses) :
    ∀ s ∈ σ.subclasses, s.name ≠ dataTypeName typeStr := by
  unfold handleAlloc at h
  split at h
  · cases h
    exact absurd rfl hne
  · obtain ⟨⟨idx, σ₁⟩, h₁, h⟩ := bind_ok.mp h
    have hsame : σ'.subclasses = σ₁.subclasses := by
      cases idx with
      | none =>
        cases h
        rfl
      | some i =>
        cases h
        rfl
    rw [hsame] at hne
    unfold findSubclass at h₁
    simp only at h₁
    split at h₁
    · cases h₁
      exact absurd rfl hne
    · split at h₁
      · cases h₁
        exact absurd rfl hne
      · split at h₁
        · cases h₁
        · rename_i hno
          intro s hs he
          exact hno (List.any_eq_true.mpr ⟨s, hs, decide_eq_true he⟩)

/-- An iteration registers at most one subclass, for an event that names a new one. -/
inductive Registered (cfg : Config) (σ : State) : Event → List Subclass → Prop
  | same (e : Event) (hno : ∀ ts base size typeStr, e = .alloc ts base size typeStr →
      σ.activeAllocs[base]? = none → ¬σ.hasSubclass typeStr →
      cfg.types.findIdx? (fun t => t.name = dataTypeName typeStr) = none) : Registered cfg σ e σ.subclasses
  | new (ts base size : Nat) (typeStr : String) (d : Nat) (free : σ.activeAllocs[base]? = none)
      (fresh : ¬σ.hasSubclass typeStr)
      (known : cfg.types.findIdx? (fun t => t.name = dataTypeName typeStr) = some d)
      (sane : ∀ s ∈ σ.subclasses, s.name ≠ dataTypeName typeStr) :
      Registered cfg σ (.alloc ts base size typeStr)
        (σ.subclasses ++ [⟨σ.curSubclassID, subclassName typeStr, d, realSubclass typeStr⟩])

theorem step_registered {cfg : Config} {σ σ' : State} {e : Event} (h : step cfg σ e = .ok σ') :
    Registered cfg σ e σ'.subclasses := by
  have ha := step_accounted h
  change Registered cfg σ e σ'.allocs.subclasses
  have hsane : ∀ ts base size typeStr, e = .alloc ts base size typeStr → σ'.allocs.subclasses ≠ σ.subclasses →
      ∀ s ∈ σ.subclasses, s.name ≠ dataTypeName typeStr := by
    rintro ts base size typeStr rfl hne
    have hskip : ¬(!cfg.processSeqlock && (Event.alloc ts base size typeStr).isSeqlock) = true := by
      simp [Event.isSeqlock]
    rw [step, if_neg hskip] at h
    change dispatch cfg (attributed cfg σ _) _ = .ok σ' at h
    rw [attributed_frame] at h
    have hs := handleAlloc_sane (show handleAlloc cfg _ ts base size typeStr = .ok σ' from h) hne
    exact hs
  generalize σ'.allocs = v at ha hsane
  cases ha with
  | rejected _ hr =>
    refine .same _ ?_
    rintro ts base size typeStr rfl hfree hfresh
    rcases hr with hr | hr
    · exact absurd hfree hr
    · by_contra hknown
      obtain ⟨d, hd⟩ := Option.ne_none_iff_exists'.mp hknown
      exact hr (.inr (knows_iff.mpr ⟨d, hd⟩))
  | admitted ts base size typeStr i subclasses next hfree hc =>
    cases hc with
    | known _ hi =>
      refine .same _ ?_
      rintro ts' base' size' typeStr' he - hfresh
      cases he
      exact absurd (hasSubclass_iff.mpr ⟨i, hi⟩) hfresh
    | fresh d hi hd =>
      refine .new ts base size typeStr d hfree ?_ hd (hsane ts base size typeStr rfl (by simp))
      rintro ⟨s, hs, hname⟩
      have hno := List.findIdx?_eq_none_iff.mp hi s hs
      simp [hname] at hno
  | freed ts base size a ha => exact .same _ (by simp)

/-- A dummy subclass has the name of its data type. -/
def DummiesNamed (cfg : Config) (subclasses : List Subclass) : Prop :=
  ∀ s ∈ subclasses, s.realSubclass = false → (cfg.types[s.dataTypeIdx]?).map DataType.name = some s.name

theorem name_of_findIdx {types : List DataType} {name : String} {d : Nat}
    (h : types.findIdx? (fun t => t.name = name) = some d) : (types[d]?).map DataType.name = some name := by
  obtain ⟨hlt, hname, -⟩ := List.findIdx?_eq_some_iff_getElem.mp h
  rw [List.getElem?_eq_getElem hlt, Option.map_some]
  simpa using hname

theorem filter_concat (xs : List Subclass) (x : Subclass) (d : Nat) :
    (xs ++ [x]).filter (fun s => s.dataTypeIdx = d) =
      xs.filter (fun s => s.dataTypeIdx = d) ++ if x.dataTypeIdx = d then [x] else [] := by
  rw [List.filter_append]
  by_cases h : x.dataTypeIdx = d <;> simp [h]

/-- A real subclass joins the others of its data type, if none of them is a dummy. -/
theorem Unmixed.real {xs : List Subclass} (h : Unmixed xs) {x : Subclass} (hx : x.realSubclass = true)
    (hno : ∀ s ∈ xs, s.dataTypeIdx = x.dataTypeIdx → s.realSubclass = true) : Unmixed (xs ++ [x]) := by
  intro d
  by_cases hd : x.dataTypeIdx = d
  · left
    intro s hs hsd
    rcases List.mem_append.mp hs with hs | hs
    · exact hno s hs (hsd.trans hd.symm)
    · rw [List.mem_singleton.mp hs]
      exact hx
  · rcases h d with hall | ⟨s, hs, hdummy⟩
    · left
      intro s hs hsd
      rcases List.mem_append.mp hs with hs | hs
      · exact hall s hs hsd
      · rw [List.mem_singleton.mp hs] at hsd
        exact absurd hsd hd
    · exact .inr ⟨s, by rw [filter_concat, if_neg hd, List.append_nil, hs], hdummy⟩

/-- A dummy subclass has to be alone. -/
theorem Unmixed.dummy_iff {xs : List Subclass} (h : Unmixed xs) {x : Subclass} (hx : x.realSubclass = false) :
    Unmixed (xs ++ [x]) ↔ ∀ s ∈ xs, s.dataTypeIdx ≠ x.dataTypeIdx := by
  constructor
  · intro h' s hs hsd
    rcases h' x.dataTypeIdx with hall | ⟨t, ht, -⟩
    · have := hall x (by simp) rfl
      rw [hx] at this
      cases this
    · rw [filter_concat, if_pos rfl] at ht
      have hnil : xs.filter (fun s => s.dataTypeIdx = x.dataTypeIdx) = [] := by
        have hlen := congrArg List.length ht
        simp only [List.length_append, List.length_singleton] at hlen
        exact List.length_eq_zero_iff.mp (by omega)
      exact List.filter_eq_nil_iff.mp hnil s hs (decide_eq_true hsd)
  · intro hno d
    by_cases hd : x.dataTypeIdx = d
    · subst hd
      have hnil : xs.filter (fun s => s.dataTypeIdx = x.dataTypeIdx) = [] := by
        rw [List.filter_eq_nil_iff]
        intro s hs he
        exact hno s hs (of_decide_eq_true he)
      exact .inr ⟨x, by rw [filter_concat, if_pos rfl, hnil, List.nil_append], hx⟩
    · rcases h d with hall | ⟨s, hs, hdummy⟩
      · left
        intro s hs hsd
        rcases List.mem_append.mp hs with hs | hs
        · exact hall s hs hsd
        · rw [List.mem_singleton.mp hs] at hsd
          exact absurd hsd hd
      · exact .inr ⟨s, by rw [filter_concat, if_neg hd, List.append_nil, hs], hdummy⟩

/-- One iteration keeps the subclasses unmixed exactly if it registers no late dummy. -/
theorem step_unmixed_iff {cfg : Config} {σ σ' : State} {e : Event}
    (hI : Unmixed σ.subclasses ∧ DummiesNamed cfg σ.subclasses) (h : step cfg σ e = .ok σ') :
    (Unmixed σ'.subclasses ↔ NoLateDummy cfg σ e) ∧
      (NoLateDummy cfg σ e → Unmixed σ'.subclasses ∧ DummiesNamed cfg σ'.subclasses) := by
  obtain ⟨hu, hn⟩ := hI
  have hr := step_registered h
  generalize σ'.subclasses = subclasses at hr
  cases hr with
  | same _ hno =>
    have hlate : NoLateDummy cfg σ e := by
      intro ts base size typeStr d he hfree _ hfresh hd
      rw [hno ts base size typeStr he hfree hfresh] at hd
      cases hd
    exact ⟨⟨fun _ => hlate, fun _ => hu⟩, fun _ => ⟨hu, hn⟩⟩
  | new ts base size typeStr d free fresh known sane =>
    have hname := name_of_findIdx known
    have hnamed : DummiesNamed cfg
        (σ.subclasses ++ [⟨σ.curSubclassID, subclassName typeStr, d, realSubclass typeStr⟩]) := by
      intro s hs hdummy
      rcases List.mem_append.mp hs with hs | hs
      · exact hn s hs hdummy
      · rw [List.mem_singleton.mp hs] at hdummy ⊢
        rw [hname, dataTypeName_of_dummy hdummy]
    have hiff : Unmixed (σ.subclasses ++ [⟨σ.curSubclassID, subclassName typeStr, d, realSubclass typeStr⟩]) ↔
        NoLateDummy cfg σ (.alloc ts base size typeStr) := by
      cases hreal : realSubclass typeStr with
      | false =>
        rw [hu.dummy_iff rfl]
        constructor
        · rintro hall ts' base' size' typeStr' d' he - - - hd'
          cases he
          rw [known, Option.some.injEq] at hd'
          subst hd'
          exact hall
        · intro hlate
          exact hlate ts base size typeStr d rfl free hreal fresh known
      | true =>
        have hlate : NoLateDummy cfg σ (.alloc ts base size typeStr) := by
          rintro ts' base' size' typeStr' d' he - hdummy
          cases he
          rw [hreal] at hdummy
          cases hdummy
        refine ⟨fun _ => hlate, fun _ => hu.real rfl ?_⟩
        -- A dummy of the data type would have its name, and the check would have found it.
        intro s hs hsd
        by_contra hdummy
        have hs' := hn s hs (by simpa using hdummy)
        rw [hsd, hname, Option.some.injEq] at hs'
        exact sane s hs hs'.symm
    exact ⟨hiff, fun hlate => ⟨hiff.mpr hlate, hnamed⟩⟩

/-- The subclasses of every data type are unmixed throughout exactly those runs in which no
dummy subclass is registered for a data type that has subclasses already. -/
theorem unmixed_iff_noLateDummy (cfg : Config) (trace : List Event) :
    Throughout (step cfg) (fun σ => Unmixed σ.subclasses) trace (.init cfg) ↔
      Along (step cfg) (Completed (step cfg) (NoLateDummy cfg)) trace (.init cfg) :=
  throughout_iff_along (I := fun σ => Unmixed σ.subclasses ∧ DummiesNamed cfg σ.subclasses) (E := fun _ => True)
    (fun _ h => h.1) (fun _ _ _ hI _ hst => step_unmixed_iff hI hst) (fun _ _ => trivial)
    ⟨fun _ => .inl (by simp [State.init]), by simp [DummiesNamed, State.init]⟩

/-- The data type is announced with a subclass first, and without one later. -/
def lateDummy : List Event := [.alloc 1 0x1000 64 "inode:ext4", .alloc 2 0x2000 64 "inode"]

/-- Both subclasses are registered for `inode`. -/
theorem lateDummy_mixed :
    ¬Throughout (step (.trackAll false)) (fun σ => Unmixed σ.subclasses) lateDummy (.init (.trackAll false)) := by
  intro h
  have hcheck : okAnd (run (step (.trackAll false)) lateDummy (.init (.trackAll false))) (fun σ =>
      σ.subclasses = [⟨1, "ext4", 0, true⟩, ⟨2, "inode", 0, false⟩]) = true := by decide +kernel
  obtain ⟨σ, hσ, hsub⟩ := okAnd_iff.mp hcheck
  have hmix : Unmixed σ.subclasses := h lateDummy [] (by simp) σ hσ
  rw [of_decide_eq_true hsub] at hmix
  rcases hmix 0 with hall | ⟨s, hs, -⟩
  · have := hall ⟨2, "inode", 0, false⟩ (by simp) rfl
    cases this
  · simp at hs

end LockDoc.Convert
