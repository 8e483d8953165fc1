import LockDoc.Convert.Frame
import LockDoc.Convert.Step

/-!
# Well-formed lock managers

Every entry on a stack belongs to an allocated lock object and to a side that its
class uses. This holds on every run, legal or not. A run alternates between moves
that keep counters, positions and labels (`Kept`) and transitions.
-/
namespace LockDoc.Convert

namespace LockManager

structure WellFormed (lm : LockManager) : Prop where
  fresh : ∀ l, lm.objects ≤ l → (∀ s, (lm.heap l).count s = 0) ∧ (lm.heap l).lastNPos = []
  entry : ∀ c, ∀ x ∈ labels (lm.stack c), x.1 < lm.objects ∧ (lm.heap x.1).cls.has x.2
  registered : ∀ (a : Nat) (l : LockPtr), lm.locks[a]? = some l → l < lm.objects

/-- Counters, positions and labels are the same, and no object is lost. -/
structure Kept (lm lm' : LockManager) : Prop where
  count : ∀ l s, (lm'.heap l).count s = (lm.heap l).count s
  pos : ∀ l, (lm'.heap l).lastNPos = (lm.heap l).lastNPos
  cls : ∀ l, l < lm.objects → (lm'.heap l).cls = (lm.heap l).cls
  labels : ∀ c, labels (lm'.stack c) = labels (lm.stack c)
  held : ∀ x, lm'.held x = lm.held x
  objects : lm.objects ≤ lm'.objects

theorem Kept.refl (lm : LockManager) : Kept lm lm :=
  ⟨fun _ _ => rfl, fun _ => rfl, fun _ _ => rfl, fun _ => rfl, fun _ => rfl, Nat.le_refl _⟩

theorem Kept.trans {lm₁ lm₂ lm₃ : LockManager} (h : Kept lm₁ lm₂) (h' : Kept lm₂ lm₃) : Kept lm₁ lm₃ where
  count l s := (h'.count l s).trans (h.count l s)
  pos l := (h'.pos l).trans (h.pos l)
  cls l hl := (h'.cls l (Nat.lt_of_lt_of_le hl h.objects)).trans (h.cls l hl)
  labels c := (h'.labels c).trans (h.labels c)
  held x := (h'.held x).trans (h.held x)
  objects := Nat.le_trans h.objects h'.objects

/-- What is kept along with well-formedness follows from the new registrations. -/
theorem Kept.wellFormed {lm lm' : LockManager} (h : Kept lm lm') (hw : lm.WellFormed)
    (hr : ∀ (a : Nat) (l : LockPtr), lm'.locks[a]? = some l → l < lm'.objects) : lm'.WellFormed where
  fresh l hl := by
    have hf := hw.fresh l (Nat.le_trans h.objects hl)
    exact ⟨fun s => by rw [h.count, hf.1 s], by rw [h.pos, hf.2]⟩
  entry c x hx := by
    rw [h.labels] at hx
    have he := hw.entry c x hx
    exact ⟨Nat.lt_of_lt_of_le he.1 h.objects, by rw [h.cls _ he.1]; exact he.2⟩
  registered := hr

theorem kept_stderr (lm : LockManager) (msgs : List Msg) : Kept lm { lm with stderr := msgs } :=
  ⟨fun _ _ => rfl, fun _ => rfl, fun _ _ => rfl, fun _ => rfl, fun _ => rfl, Nat.le_refl _⟩

theorem Chatter.kept {lm lm' : LockManager} (h : lm.Chatter lm') : Kept lm lm' := by
  obtain ⟨ms, -, rfl⟩ := h
  exact kept_stderr lm _

theorem kept_deleteLockByArea (lm : LockManager) (address size : Nat) :
    Kept lm (lm.deleteLockByArea address size) :=
  ⟨fun _ _ => rfl, fun _ => rfl, fun _ _ => rfl, fun _ => rfl, fun _ => rfl, Nat.le_refl _⟩

theorem kept_updateFlags (lm : LockManager) (l : LockPtr) (flags : Nat) : Kept lm (lm.updateFlags l flags) where
  count k s := by
    simp only [updateFlags, heap_setLock]
    split
    · subst k
      cases s <;> rfl
    · rfl
  pos k := by
    simp only [updateFlags, heap_setLock]
    split
    · subst k
      rfl
    · rfl
  cls k _ := by
    simp only [updateFlags, heap_setLock]
    split
    · subst k
      rfl
    · rfl
  labels _ := rfl
  held _ := rfl
  objects := Nat.le_refl _

theorem kept_setStack {lm : LockManager} {c : Int} {s : List TXN}
    (h : Convert.labels s = Convert.labels (lm.stack c)) : Kept lm (lm.setStack c s) where
  count _ _ := rfl
  pos _ := rfl
  cls _ _ := rfl
  labels d := by
    rw [stack_insert]
    split
    · subst d
      exact h
    · rfl
  held x := by
    have := held_setStack lm c s x
    rw [h] at this
    omega
  objects := Nat.le_refl _

/-- A new object takes the place of a blank cell. -/
theorem kept_allocated {lm : LockManager} (hw : lm.WellFormed) (cls : LockClass) (address allocID : Nat)
    (lockType name : String) (flags : Nat) :
    Kept lm (lm.allocated cls address allocID lockType name flags) where
  count k s := by
    simp only [allocated, heap_setLock]
    split
    · subst k
      rw [(hw.fresh _ (Nat.le_refl _)).1 s]
      cases cls <;> cases s <;> rfl
    · rfl
  pos k := by
    simp only [allocated, heap_setLock]
    split
    · subst k
      rw [(hw.fresh _ (Nat.le_refl _)).2]
      cases cls <;> rfl
    · rfl
  cls k hk := by
    simp only [allocated, heap_setLock]
    rw [if_neg (Nat.ne_of_lt hk)]
  labels _ := rfl
  held _ := rfl
  objects := Nat.le_succ _

theorem WellFormed.allocated {lm : LockManager} (hw : lm.WellFormed) (cls : LockClass) (address allocID : Nat)
    (lockType name : String) (flags : Nat) : (lm.allocated cls address allocID lockType name flags).WellFormed := by
  refine (kept_allocated hw cls address allocID lockType name flags).wellFormed hw ?_
  intro a l hl
  simp only [LockManager.allocated, Std.ExtTreeMap.getElem?_insert] at hl
  split at hl
  · cases hl
    exact Nat.lt_succ_self _
  · exact Nat.lt_succ_of_lt (hw.registered a l hl)

theorem init_wellFormed : LockManager.init.WellFormed where
  fresh _ _ := ⟨fun s => by cases s <;> rfl, rfl⟩
  entry c x hx := by simp [init, stack, OrdMap.getD_eq] at hx
  registered a l hl := by simp [init] at hl

/-- A transition of an allocated lock keeps the manager well-formed. -/
theorem WellFormed.transition {lm lm' : LockManager} {l : LockPtr} {e : LockEvent} {kernelDir : String}
    {ctx : Int} (hw : lm.WellFormed) (hl : l < lm.objects)
    (h : lm.transition l e kernelDir ctx = .ok lm') : lm'.WellFormed := by
  have hf := transition_framed h
  have hcls : ∀ k, (lm'.heap k).cls = (lm.heap k).cls := by
    intro k
    by_cases hk : k = l
    · rw [hk, hf.cls]
    · rw [hf.heap k hk]
  refine ⟨?_, ?_, ?_⟩
  · intro k hk
    rw [hf.objects] at hk
    rw [hf.heap k (Nat.ne_of_gt (Nat.lt_of_lt_of_le hl hk))]
    exact hw.fresh k hk
  · intro c x hx
    rw [hf.objects, hcls]
    rcases transition_labels h hx with hx | rfl
    · exact hw.entry c x hx
    · exact ⟨hl, (transition_ok h).1⟩
  · rw [hf.locks, hf.objects]
    exact hw.registered

end LockManager

/-- Attributing accesses changes nothing of the lock manager but counters of transactions. -/
theorem kept_writeMemAccess (cfg : Config) (σ : State) (a : MemAccess) :
    σ.lockManager.Kept (σ.writeMemAccess cfg a).lockManager ∧
      (σ.writeMemAccess cfg a).lockManager =
        { σ.lockManager with activeTXNs := (σ.writeMemAccess cfg a).lockManager.activeTXNs } := by
  unfold State.writeMemAccess
  split
  · exact ⟨LockManager.Kept.refl _, rfl⟩
  · rename_i txn below hs
    exact ⟨LockManager.kept_setStack (by rw [hs]; rfl), rfl⟩

theorem kept_writeMemAccesses (cfg : Config) (σ : State) (pending : List MemAccess) :
    σ.lockManager.Kept (pending.foldl (State.writeMemAccess cfg) σ).lockManager ∧
      (pending.foldl (State.writeMemAccess cfg) σ).lockManager =
        { σ.lockManager with
          activeTXNs := (pending.foldl (State.writeMemAccess cfg) σ).lockManager.activeTXNs } := by
  induction pending generalizing σ with
  | nil => exact ⟨LockManager.Kept.refl _, rfl⟩
  | cons a pending ih =>
    obtain ⟨hk, he⟩ := kept_writeMemAccess cfg σ a
    obtain ⟨hk', he'⟩ := ih (σ.writeMemAccess cfg a)
    refine ⟨hk.trans hk', ?_⟩
    rw [List.foldl_cons, he', he]

theorem kept_attributed (cfg : Config) (σ : State) (e : Event) :
    σ.lockManager.Kept (attributed cfg σ e).lockManager ∧
      (attributed cfg σ e).lockManager =
        { σ.lockManager with activeTXNs := (attributed cfg σ e).lockManager.activeTXNs } := by
  unfold attributed writeMemAccesses
  split
  · exact ⟨LockManager.Kept.refl _, rfl⟩
  · exact kept_writeMemAccesses cfg { σ with ts := e.ts } _

/-- A move of the lock manager during one iteration of the main loop. -/
inductive Moved (cfg : Config) (lm : LockManager) : Event → LockManager → Prop
  | kept (e : Event) (lm' : LockManager) (hk : lm.Kept lm') (hm : ∀ m ∈ lm'.stderr, m.internal → m ∈ lm.stderr)
      (hr : ∀ (a : Nat) (l : LockPtr), lm'.locks[a]? = some l → lm.locks[a]? = some l)
      (idle : ∀ ev, e = .lockOp ev → cfg.skips e = false → lm.locks[ev.address]? = none) : Moved cfg lm e lm'
  | acted (e : LockEvent) (l : LockPtr) (lm₁ lm' : LockManager) (hk : lm.Kept lm₁)
      (hm : lm₁.stderr = lm.stderr) (hw : lm₁.WellFormed) (hl : l < lm₁.objects)
      (hs : cfg.skips (.lockOp e) = false)
      (hreg : lm.locks[e.address]? = some l ∨
        (lm.objects = l ∧ lm.locks[e.address]? = none ∧ e.op.isP = true))
      (ht : lm₁.transition l e cfg.kernelBaseDir (cfg.ctxOf e.ctx) = .ok lm') :
      Moved cfg lm (.lockOp e) lm'

theorem moved_of_kept {cfg : Config} {lm lm₁ lm₂ : LockManager} {e : Event} (hk : lm.Kept lm₁)
    (he : lm₁ = { lm with activeTXNs := lm₁.activeTXNs }) (hk' : lm₁.Kept lm₂)
    (hm : ∀ m ∈ lm₂.stderr, m.internal → m ∈ lm₁.stderr)
    (hr : ∀ (a : Nat) (l : LockPtr), lm₂.locks[a]? = some l → lm₁.locks[a]? = some l)
    (idle : ∀ ev, e = .lockOp ev → lm₁.locks[ev.address]? = none) : Moved cfg lm e lm₂ := by
  refine .kept e lm₂ (hk.trans hk') ?_ ?_ ?_
  · intro m hm₂ hi
    have := hm m hm₂ hi
    rwa [he] at this
  · intro a l hl
    have := hr a l hl
    rwa [he] at this
  · intro ev hev _
    have := idle ev hev
    rwa [he] at this

/-- Every completed iteration is one of these moves. -/
theorem step_moved {cfg : Config} {σ σ' : State} {e : Event} (hw : σ.lockManager.WellFormed)
    (h : step cfg σ e = .ok σ') : Moved cfg σ.lockManager e σ'.lockManager := by
  rcases step_ok h with ⟨hs, rfl⟩ | ⟨hs, h⟩
  · exact .kept e _ (LockManager.Kept.refl _) (fun _ hm _ => hm) (fun _ _ hl => hl) (by simp [hs])
  · obtain ⟨hk, he⟩ := kept_attributed cfg σ e
    generalize attributed cfg σ e = σ₁ at h hk he
    cases h with
    | quiet e σ' hq idle unknown =>
      have hc := hq.lm
      refine moved_of_kept hk he hc.kept ?_ ?_ (fun ev hev => (idle ev hev).1)
      · obtain ⟨ms, hms, hlm⟩ := hc
        rw [hlm]
        intro m hm hi
        rcases List.mem_append.mp hm with hm | hm
        · exact hm
        · exact absurd hi (hms m hm)
      · obtain ⟨ms, hms, hlm⟩ := hc
        rw [hlm]
        exact fun _ _ hl => hl
    | freed ts base size a rows ha =>
      refine moved_of_kept hk he (LockManager.kept_deleteLockByArea _ _ _) ?_ ?_ (by simp)
      · intro m hm hi
        rcases List.mem_append.mp hm with hm | hm
        · exact hm
        · obtain ⟨kv, -, rfl⟩ := List.mem_map.mp hm
          simp [Msg.internal] at hi
      · intro a l hl
        rw [LockManager.deleteLockByArea, Std.ExtTreeMap.getElem?_filter'] at hl
        exact (Option.filter_eq_some_iff.mp hl).1
    | buffered ev a trace next traces ha hin =>
      exact moved_of_kept hk he (LockManager.Kept.refl _) (fun _ hm _ => hm) (fun _ _ hl => hl) (by simp)
    | acted ev l σ₂ lm hres hr ht =>
      have hw₁ : σ₁.lockManager.WellFormed := by
        refine hk.wellFormed hw ?_
        rw [he]
        exact hw.registered
      have hlocks : σ₁.lockManager.locks = σ.lockManager.locks := by rw [he]
      have hobj : σ₁.lockManager.objects = σ.lockManager.objects := by rw [he]
      cases hr with
      | known l hl =>
        exact .acted ev l _ lm hk (by rw [he]) hw₁ (hw₁.registered _ _ hl) hs (.inl (hlocks ▸ hl)) ht
      | fresh cls allocID name hl isP hc rows =>
        have hk' := LockManager.kept_allocated hw₁ cls ev.address allocID ev.lockType name ev.flags
        exact .acted ev _ _ lm (hk.trans hk') (by rw [he]; rfl) (hw₁.allocated _ _ _ _ _ _) (Nat.lt_succ_self _) hs
          (.inr ⟨hobj.symm, hlocks ▸ hl, isP⟩) ht

theorem Moved.wellFormed {cfg : Config} {lm lm' : LockManager} {e : Event} (h : Moved cfg lm e lm')
    (hw : lm.WellFormed) : lm'.WellFormed := by
  cases h with
  | kept _ _ hk _ hr _ =>
    exact hk.wellFormed hw (fun a l hl => Nat.lt_of_lt_of_le (hw.registered a l (hr a l hl)) hk.objects)
  | acted ev l lm₁ _ hk hm hw₁ hl hs hreg ht => exact hw₁.transition hl ht

end LockDoc.Convert
