import LockDoc.Lib.Worklist
import LockDoc.Convert.Allocation

/-!
# Data types and subclasses of allocations

An `alloc` event announces `D` or `D:S`. The subclass is looked up by its name alone, in
one vector for all data types, so an allocation can be filed under a subclass that
another data type has introduced. The dump `subclasses.csv` shows what it was filed under.
-/
namespace LockDoc.Convert

open FallibleRun
open Worklist (okAnd okAnd_iff)

/-- The data types as `main` reads them: one per line after the header, numbered from one. -/
def loadDataTypes (lines : List String) : List DataType := lines.tail.mapIdx (fun i name => ⟨i + 1, name⟩)

/-- A row of `subclasses.csv`; `name` is `none` for `\N`. -/
structure SubclassRow where
  id : Nat
  dataTypeId : Nat
  name : Option String
  deriving DecidableEq, Repr

/-- The dump of the subclasses at the end of `main`. -/
def subclassRows (cfg : Config) (σ : State) : List SubclassRow :=
  σ.subclasses.mapIdx (fun i s =>
    ⟨i + 1, ((cfg.types[s.dataTypeIdx]?).map DataType.id).getD 0, if s.realSubclass then some s.name else none⟩)

/-- The id refers to a row for the data type and the subclass that the type string names. -/
def Announced (cfg : Config) (σ : State) (typeStr : String) (subclassId : Nat) : Prop :=
  ∃ row ∈ subclassRows cfg σ, row.id = subclassId ∧
    (∃ t ∈ cfg.types, t.id = row.dataTypeId ∧ t.name = dataTypeName typeStr) ∧
    row.name = if realSubclass typeStr then some (subclassName typeStr) else none

/-- Every admitted `alloc` event of the trace got the data type and subclass it announced:
the row of its allocation in `allocations.csv` refers to them. -/
def AllAnnounced (cfg : Config) (trace : List Event) (σ : State) : Prop :=
  ∀ pre ts base size typeStr post τ τ' a, trace = pre ++ .alloc ts base size typeStr :: post →
    run (step cfg) pre (.init cfg) = .ok τ → step cfg τ (.alloc ts base size typeStr) = .ok τ' →
    τ.activeAllocs[base]? = none → τ'.activeAllocs[base]? = some a →
    ∃ row ∈ σ.allocOFile, row.id = a.id ∧ Announced cfg σ typeStr row.subclassId

/-- Where the subclass name of an `alloc` event is known already, it is known for the data
type of the event, and with or without a subclass as in the event. -/
def SameType (cfg : Config) (σ : State) (e : Event) : Prop :=
  ∀ ts base size typeStr i s, e = .alloc ts base size typeStr → σ.activeAllocs[base]? = none →
    σ.subclasses.findIdx? (fun s => s.name = subclassName typeStr) = some i → σ.subclasses[i]? = some s →
    (cfg.types[s.dataTypeIdx]?).map DataType.name = some (dataTypeName typeStr) ∧
      s.realSubclass = realSubclass typeStr

theorem loadDataTypes_id {lines : List String} {i : Nat} {t : DataType} (h : (loadDataTypes lines)[i]? = some t) :
    t.id = i + 1 := by
  simp only [loadDataTypes, List.getElem?_mapIdx, Option.map_eq_some_iff] at h
  obtain ⟨name, -, rfl⟩ := h
  rfl

/-- An id in the dump leads back to the data type at its place. -/
theorem dataTypeId_iff {cfg : Config} {lines : List String} (hl : cfg.types = loadDataTypes lines) {d : Nat}
    {name : String} :
    (∃ t ∈ cfg.types, t.id = ((cfg.types[d]?).map DataType.id).getD 0 ∧ t.name = name) ↔
      (cfg.types[d]?).map DataType.name = some name := by
  constructor
  · rintro ⟨t, ht, hid, rfl⟩
    obtain ⟨j, hj⟩ := List.mem_iff_getElem?.mp ht
    have htid := loadDataTypes_id (hl ▸ hj)
    cases hd : cfg.types[d]? with
    | none =>
      rw [hd, htid] at hid
      simp at hid
    | some u =>
      have huid := loadDataTypes_id (hl ▸ hd)
      simp only [hd, Option.map_some, Option.getD_some, htid, huid] at hid
      obtain rfl : j = d := by omega
      rw [hj, Option.some.injEq] at hd
      rw [hd]
      rfl
  · intro h
    obtain ⟨t, ht, rfl⟩ := Option.map_eq_some_iff.mp h
    exact ⟨t, List.mem_of_getElem? ht, by simp [ht], rfl⟩

/-- What a row of the dump announces is what the subclass at its place says. -/
theorem announced_iff {cfg : Config} {lines : List String} (hl : cfg.types = loadDataTypes lines) {σ : State}
    {typeStr : String} {i : Nat} {s : Subclass} (hs : σ.subclasses[i]? = some s) :
    Announced cfg σ typeStr (i + 1) ↔
      (cfg.types[s.dataTypeIdx]?).map DataType.name = some (dataTypeName typeStr) ∧
        (if s.realSubclass then some s.name else none) =
          if realSubclass typeStr then some (subclassName typeStr) else none := by
  rw [← dataTypeId_iff hl]
  constructor
  · rintro ⟨row, hrow, hid, ht, hname⟩
    obtain ⟨j, hj⟩ := List.mem_iff_getElem?.mp hrow
    simp only [subclassRows, List.getElem?_mapIdx, Option.map_eq_some_iff] at hj
    obtain ⟨s', hs', rfl⟩ := hj
    simp only [Nat.add_right_cancel_iff] at hid
    subst hid
    rw [hs, Option.some.injEq] at hs'
    subst hs'
    exact ⟨ht, hname⟩
  · rintro ⟨ht, hname⟩
    refine ⟨⟨i + 1, ((cfg.types[s.dataTypeIdx]?).map DataType.id).getD 0,
      if s.realSubclass then some s.name else none⟩, List.mem_iff_getElem?.mpr ⟨i, ?_⟩, rfl, ht, hname⟩
    simp only [subclassRows, List.getElem?_mapIdx, hs, Option.map_some]

/-- One admitted event: it gets what it announced exactly if the lookup by name does not go
to a subclass of another type. -/
theorem classified_iff {cfg : Config} {lines : List String} (hl : cfg.types = loadDataTypes lines) {τ σ : State}
    {ts base size : Nat} {typeStr : String} {i next : Nat} {subclasses : List Subclass}
    (hfree : τ.activeAllocs[base]? = none) (hc : Classified cfg τ typeStr i subclasses next)
    (hsub : subclasses <+: σ.subclasses) :
    Announced cfg σ typeStr (i + 1) ↔ SameType cfg τ (.alloc ts base size typeStr) := by
  have hplace : σ.subclasses[i]? = subclasses[i]? := by
    obtain ⟨more, hm⟩ := hsub
    rw [← hm, List.getElem?_append_left hc.index_lt]
  cases hc with
  | known _ hi =>
    obtain ⟨hlt, hname, -⟩ := List.findIdx?_eq_some_iff_getElem.mp hi
    have hs := List.getElem?_eq_getElem hlt
    have hname : τ.subclasses[i].name = subclassName typeStr := by simpa using hname
    rw [announced_iff hl (hplace.trans hs), hname]
    constructor
    · rintro ⟨ht, hr⟩ ts' base' size' typeStr' i' s he hf hi' hs'
      cases he
      rw [hi, Option.some.injEq] at hi'
      subst hi'
      rw [hs, Option.some.injEq] at hs'
      subst hs'
      refine ⟨ht, ?_⟩
      cases h₁ : τ.subclasses[i].realSubclass <;> cases h₂ : realSubclass typeStr <;> simp [h₁, h₂] at hr ⊢
    · intro h
      obtain ⟨ht, hr⟩ := h ts base size typeStr i _ rfl hfree hi hs
      exact ⟨ht, by rw [hr]⟩
  | fresh d hi hd =>
    obtain ⟨hlt, hname, -⟩ := List.findIdx?_eq_some_iff_getElem.mp hd
    have hs : σ.subclasses[τ.subclasses.length]? =
        some ⟨τ.curSubclassID, subclassName typeStr, d, realSubclass typeStr⟩ := by
      rw [hplace, List.getElem?_concat_length]
    have hann : Announced cfg σ typeStr (τ.subclasses.length + 1) := by
      refine (announced_iff hl hs).mpr ⟨?_, rfl⟩
      simp only [List.getElem?_eq_getElem hlt, Option.map_some]
      simpa using hname
    refine ⟨fun _ => ?_, fun _ => hann⟩
    intro ts' base' size' typeStr' i' s he hf hi' hs'
    cases he
    rw [hi] at hi'
    cases hi'

/-- What an iteration does with an `alloc` event at a free base address. -/
theorem step_alloc {cfg : Config} {σ σ' : State} {ts base size : Nat} {typeStr : String}
    (h : step cfg σ (.alloc ts base size typeStr) = .ok σ') (hfree : σ.activeAllocs[base]? = none) :
    (¬σ.hasSubclass typeStr ∧ σ'.activeAllocs[base]? = none) ∨
      ∃ i subclasses next, Classified cfg σ typeStr i subclasses next ∧ σ'.subclasses = subclasses ∧
        σ'.activeAllocs[base]? = some ⟨ts, σ.curAllocID, toInt size, i⟩ := by
  have ha := step_accounted h
  change _ ∧ σ'.allocs.activeAllocs[base]? = none ∨ ∃ i subclasses next, _ ∧ σ'.allocs.subclasses = _ ∧
    σ'.allocs.activeAllocs[base]? = _
  generalize σ'.allocs = v at ha
  cases ha with
  | rejected _ hr =>
    rcases hr with hr | hr
    · exact absurd hfree hr
    · exact .inl ⟨fun hs => hr (.inl hs), hfree⟩
  | admitted _ _ _ _ i subclasses next _ hc => exact .inr ⟨i, subclasses, next, hc, rfl, by simp⟩

/-- In a complete conversion the allocation of an admitted event has one row, and that row
refers to the place of its subclass. -/
theorem convert_subclass {cfg : Config} {pre post : List Event} {e : Event} {σ τ τ' : State} {base : Nat}
    {a : Allocation} (h : convert cfg (pre ++ e :: post) = .ok σ) (hτ : run (step cfg) pre (.init cfg) = .ok τ)
    (hst : step cfg τ e = .ok τ') (ha : τ'.activeAllocs[base]? = some a) :
    τ'.subclasses <+: σ.subclasses ∧ (∃ row ∈ σ.allocOFile, row.id = a.id ∧ row.subclassId = a.subclassIdx + 1) ∧
      ∀ row ∈ σ.allocOFile, row.id = a.id → row.subclassId = a.subclassIdx + 1 := by
  obtain ⟨ω, hω, hsub, hrows⟩ := convert_allocs h
  obtain ⟨τ₁, hτ₁, hω'⟩ := run_append_ok.mp hω
  rw [hτ, Except.ok.injEq] at hτ₁
  subst hτ₁
  obtain ⟨τ₂, hst', hω'⟩ := run_cons_ok.mp hω'
  rw [hst, Except.ok.injEq] at hst'
  subst hst'
  have hn := run_numbered hω
  obtain ⟨htr, hpre⟩ := run_traced ((run_numbered hτ).step hst) ha hω'
  obtain ⟨row, hrow, hid, hsc⟩ := convert_row hn htr
  rw [hsub, hrows]
  refine ⟨hpre, ⟨row, hrow, hid, hsc⟩, ?_⟩
  intro row' hrow' hid'
  have hd : ((ω.allocOFile ++ openAllocRows ω).map AllocRow.id).Nodup := convert_ids ▸ hn.distinct
  rw [List.inj_on_of_nodup_map hd hrow' hrow (hid'.trans hid.symm)]
  exact hsc

/-- Allocations get the data type and subclass they were announced with in exactly those
conversions in which no name of a known subclass is announced for another type. -/
theorem allAnnounced_iff_same_type {cfg : Config} {lines : List String} {trace : List Event} {σ : State}
    (hl : cfg.types = loadDataTypes lines) (h : convert cfg trace = .ok σ) :
    AllAnnounced cfg trace σ ↔ Along (step cfg) (SameType cfg) trace (.init cfg) := by
  constructor
  · rintro hall pre e post rfl τ hτ ts base size typeStr i s rfl hfree hi hs
    obtain ⟨ω, hω, -, -⟩ := convert_allocs h
    obtain ⟨τ₁, hτ₁, hω'⟩ := run_append_ok.mp hω
    rw [hτ, Except.ok.injEq] at hτ₁
    subst hτ₁
    obtain ⟨τ', hst, -⟩ := run_cons_ok.mp hω'
    rcases step_alloc hst hfree with ⟨hno, -⟩ | ⟨j, subclasses, next, hc, hsub, ha⟩
    · exact absurd (hasSubclass_iff.mpr ⟨i, hi⟩) hno
    · obtain ⟨hpre, -, huniq⟩ := convert_subclass h hτ hst ha
      obtain ⟨row, hrow, hid, hann⟩ := hall pre ts base size typeStr post τ τ' _ rfl hτ hst hfree ha
      rw [huniq row hrow hid] at hann
      rw [hsub] at hpre
      exact (classified_iff hl hfree hc hpre).mp hann ts base size typeStr i s rfl hfree hi hs
  · rintro hC pre ts base size typeStr post τ τ' a rfl hτ hst hfree ha
    rcases step_alloc hst hfree with ⟨-, hnone⟩ | ⟨j, subclasses, next, hc, hsub, ha'⟩
    · rw [hnone] at ha
      cases ha
    · rw [ha, Option.some.injEq] at ha'
      subst ha'
      obtain ⟨hpre, ⟨row, hrow, hid, hsc⟩, -⟩ := convert_subclass h hτ hst ha
      rw [hsub] at hpre
      refine ⟨row, hrow, hid, ?_⟩
      rw [hsc]
      exact (classified_iff hl hfree hc hpre).mpr (hC pre _ post rfl τ hτ)

/-- A configuration with two data types. -/
def Config.twoTypes : Config :=
  { Config.trackAll true with types := loadDataTypes ["data_type", "inode", "dentry"] }

/-- Two allocations of one data type and subclass. -/
def sameSubclass : List Event := [.alloc 1 0x1000 64 "inode:ext4", .alloc 2 0x2000 64 "inode:ext4"]

theorem allAnnounced_iff_sameSubclass : ∃ σ, convert .twoTypes sameSubclass = .ok σ ∧
    (AllAnnounced .twoTypes sameSubclass σ ↔
      Along (step .twoTypes) (SameType .twoTypes) sameSubclass (.init .twoTypes)) :=
  ⟨_, rfl, @allAnnounced_iff_same_type _ ["data_type", "inode", "dentry"] _ _ rfl rfl⟩

/-- The same subclass name for two data types. -/
def sharedSubclass : List Event := [.alloc 1 0x1000 64 "inode:ext4", .alloc 2 0x2000 64 "dentry:ext4"]

/-- The second allocation is filed as an `inode`. -/
theorem sharedSubclass_misfiled : ∃ σ, convert .twoTypes sharedSubclass = .ok σ ∧
    ¬AllAnnounced .twoTypes sharedSubclass σ := by
  have hend : okAnd (convert .twoTypes sharedSubclass) (fun σ =>
      σ.allocOFile.all (fun row => row.id ≠ 3 ∨ row.subclassId = 1) &&
        subclassRows .twoTypes σ = [⟨1, 1, some "ext4"⟩]) = true := by
    decide +kernel
  have hmid : okAnd (run (step .twoTypes) [.alloc 1 0x1000 64 "inode:ext4"] (.init .twoTypes)) (fun τ =>
      τ.activeAllocs[0x2000]? = none && okAnd (step .twoTypes τ (.alloc 2 0x2000 64 "dentry:ext4"))
        (fun τ' => τ'.activeAllocs[0x2000]? = some ⟨2, 3, 64, 0⟩)) = true := by
    decide +kernel
  obtain ⟨σ, hσ, hend⟩ := okAnd_iff.mp hend
  obtain ⟨τ, hτ, hmid⟩ := okAnd_iff.mp hmid
  rw [Bool.and_eq_true, decide_eq_true_eq] at hmid
  obtain ⟨τ', hτ', ha⟩ := okAnd_iff.mp hmid.2
  rw [Bool.and_eq_true, List.all_eq_true, decide_eq_true_eq] at hend
  refine ⟨σ, hσ, fun h => ?_⟩
  obtain ⟨row, hrow, hid, sub, hsub, hsid, ⟨t, ht, htid, hname⟩, -⟩ :=
    h [.alloc 1 0x1000 64 "inode:ext4"] 2 0x2000 64 "dentry:ext4" [] τ τ' _ rfl hτ hτ' hmid.1 (of_decide_eq_true ha)
  rw [hend.2, List.mem_singleton] at hsub
  subst hsub
  have hnames : ∀ t ∈ Config.twoTypes.types, t.id = 1 → t.name = "inode" := by decide
  have := (hnames t ht htid).symm.trans hname
  exact absurd this (by decide +kernel)

end LockDoc.Convert
