import LockDoc.Convert.HeldSet

/-!
# Where acquisition data comes from

Every row of `locks_held.csv` carries the topmost position of a lock, and positions are
shared by all contexts. As long as no `P()` finds its lock held by another context, the
positions of a lock are those of the holds of one context, and every row shows an
unreleased acquisition of the context in which its transaction ran.
-/
namespace LockDoc.Convert

open FallibleRun LockManager

/-- The position that the acquisition of a hold has pushed. -/
def Hold.pos (cfg : Config) (h : Hold) : LockPos := h.event.pos cfg.kernelBaseDir h.side

/-- At some moment of the run the transaction of the row was open in a context which held
the sub lock of the row, by a `P()` of its own with the timestamp, file and line of the row. -/
def Justified (cfg : Config) (trace : List Event) (row : LockHeldRow) : Prop :=
  ∃ pre post σ r, trace = pre ++ post ∧ run (trackStep cfg) pre (.init cfg, .init) = .ok (σ, r) ∧
    ∃ c, ∃ t ∈ σ.lockManager.stack c, t.id = row.txnId ∧
      ∃ h ∈ r.heldBy c, .lockOp h.event ∈ pre ∧ cfg.ctxOf h.event.ctx = c ∧ h.event.op.isP = true ∧
        h.event.op.side = h.side ∧ σ.lockManager.lockId h.label = row.lockId ∧
        (h.pos cfg).start = row.start ∧ (h.pos cfg).lastFile = row.lastFile ∧ (h.pos cfg).lastLine = row.lastLine

/-- A `P()` finds its lock held by no other context. -/
def notShared (cfg : Config) (s : State × Reference) : Event → Bool
  | .lockOp ev => cfg.skips (.lockOp ev) ||
      match resolveLock cfg (attributed cfg s.1 (.lockOp ev)) ev with
      | .ok (some l, _) => !ev.op.isP || s.2.isExclusive l (cfg.ctxOf ev.ctx)
      | _ => true
  | _ => true

/-- The positions of a lock are those of the holds of one context. -/
def Owned (cfg : Config) (lm : LockManager) (r : Reference) (l : LockPtr) : Prop :=
  ∃ c, (∀ d, d ≠ c → ∀ h ∈ r.heldBy d, h.lock ≠ l) ∧
    (lm.heap l).lastNPos = ((r.heldBy c).filter (fun h => h.lock = l)).map (Hold.pos cfg)

/-- Every hold goes back to a `P()` of its context. -/
def FromTrace (cfg : Config) (pre : List Event) (r : Reference) : Prop :=
  ∀ c, ∀ h ∈ r.heldBy c, .lockOp h.event ∈ pre ∧ cfg.ctxOf h.event.ctx = c ∧ h.event.op.isP = true ∧
    h.event.op.side = h.side

theorem heldBy_acquire (r : Reference) (l : LockPtr) (e : LockEvent) (c d : Int) :
    (r.acquire l e c).heldBy d = if d = c then ⟨l, e.op.side, e⟩ :: r.heldBy c else r.heldBy d :=
  Reference.heldBy_insert r c d _

theorem heldBy_release (r : Reference) (x : LockPtr × SubLock) (c d : Int) : (r.release x c).heldBy d =
    if d = r.releaser x c then (r.heldBy (r.releaser x c)).eraseP (fun h => h.label = x) else r.heldBy d :=
  Reference.heldBy_insert r _ d _

theorem mem_heldBy_release {r : Reference} {x : LockPtr × SubLock} {c d : Int} {h : Hold}
    (hm : h ∈ (r.release x c).heldBy d) : h ∈ r.heldBy d := by
  rw [heldBy_release] at hm
  split at hm
  · rename_i hd
    rw [hd]
    exact List.mem_of_mem_eraseP hm
  · exact hm

theorem refStep_fromTrace {cfg : Config} {σ : State} {r : Reference} {e : Event} {pre : List Event}
    (h : FromTrace cfg pre r) : FromTrace cfg (pre ++ [e]) (refStep cfg σ r e) := by
  have old : FromTrace cfg (pre ++ [e]) r := by
    intro c k hk
    obtain ⟨hm, hrest⟩ := h c k hk
    exact ⟨List.mem_append_left _ hm, hrest⟩
  cases e with
  | lockOp ev =>
    simp only [refStep]
    split
    · exact old
    · split
      · rename_i l σ₂ _
        split
        · rename_i hP
          intro c k hk
          rw [heldBy_acquire] at hk
          split at hk
          · rename_i hc
            rcases List.mem_cons.mp hk with rfl | hk
            · exact ⟨by simp, hc.symm, hP, rfl⟩
            · exact old c k (by rw [hc]; exact hk)
          · exact old c k hk
        · exact fun c k hk => old c k (mem_heldBy_release hk)
      · exact old
  | access ev =>
    simp only [refStep]
    split
    · exact old
    · exact old
  | _ => exact old

theorem run_fromTrace {cfg : Config} {pre : List Event} {s : State × Reference}
    (h : run (trackStep cfg) pre (.init cfg, .init) = .ok s) : FromTrace cfg pre s.2 := by
  induction pre using List.reverseRecOn generalizing s with
  | nil =>
    cases h
    intro c k hk
    simp [Reference.init, Reference.heldBy, OrdMap.getD_eq] at hk
  | append_singleton pre e ih =>
    obtain ⟨u, hu, he⟩ := run_append_ok.mp h
    rw [run_singleton] at he
    rw [(trackStep_ok he).2]
    exact refStep_fromTrace (ih hu)

theorem Owned.of_pos {cfg : Config} {lm lm' : LockManager} {r : Reference} {l : LockPtr}
    (h : Owned cfg lm r l) (hp : (lm'.heap l).lastNPos = (lm.heap l).lastNPos) : Owned cfg lm' r l := by
  obtain ⟨c, hc, hl⟩ := h
  exact ⟨c, hc, hp.trans hl⟩

theorem filter_eq_nil_of_lock_ne {hs : List Hold} {l : LockPtr} (h : ∀ k ∈ hs, k.lock ≠ l) :
    hs.filter (fun k => k.lock = l) = [] := by
  rw [List.filter_eq_nil_iff]
  intro k hk
  simpa using h k hk

/-- With an exclusive `P()` the issuing context owns the lock. -/
theorem Owned.acquire {cfg : Config} {lm : LockManager} {r : Reference} {k l : LockPtr} {e : LockEvent} {ctx : Int}
    (h : Owned cfg lm r k) (hx : ∀ d, d ≠ ctx → ∀ x ∈ r.sublocks d, x.1 ≠ l) :
    Owned cfg (lm.acquire l (e.pos cfg.kernelBaseDir e.op.side) ctx) (r.acquire l e ctx) k := by
  have hheap : ∀ j, ((lm.acquire l (e.pos cfg.kernelBaseDir e.op.side) ctx).heap j).lastNPos =
      if j = l then e.pos cfg.kernelBaseDir e.op.side :: (lm.heap l).lastNPos else (lm.heap j).lastNPos := by
    intro j
    simp only [LockManager.acquire, startTXN, setStack, heap_setLock]
    split <;> rfl
  obtain ⟨c, hc, hl⟩ := h
  by_cases hk : k = l
  · subst hk
    have hx' : ∀ d, d ≠ ctx → ∀ j ∈ r.heldBy d, j.lock ≠ k :=
      fun d hd j hj => hx d hd j.label (List.mem_map_of_mem hj)
    have hl' : (lm.heap k).lastNPos = ((r.heldBy ctx).filter (fun h => h.lock = k)).map (Hold.pos cfg) := by
      by_cases hcc : c = ctx
      · rw [← hcc]
        exact hl
      · rw [hl, filter_eq_nil_of_lock_ne (hx' c hcc), filter_eq_nil_of_lock_ne (hc ctx (Ne.symm hcc))]
    refine ⟨ctx, ?_, ?_⟩
    · intro d hd
      rw [heldBy_acquire, if_neg hd]
      exact hx' d hd
    · rw [hheap, if_pos rfl, heldBy_acquire, if_pos rfl, List.filter_cons_of_pos (by simp), List.map_cons, ← hl']
      rfl
  · refine ⟨c, ?_, ?_⟩
    · intro d hd j hj
      rw [heldBy_acquire] at hj
      split at hj
      · rename_i hdc
        rcases List.mem_cons.mp hj with rfl | hj
        · exact Ne.symm hk
        · exact hc d hd j (by rw [hdc]; exact hj)
      · exact hc d hd j hj
    · rw [hheap, if_neg hk, hl, heldBy_acquire]
      split
      · rename_i hcc
        rw [List.filter_cons_of_neg (by simpa using Ne.symm hk), hcc]
      · rfl

/-- When all holds of a lock are of one side, giving up the latest one of that side gives
up the latest one of the lock. -/
theorem filter_eraseP_tail {hs : List Hold} {l : LockPtr} {s : SubLock} (h : ∀ k ∈ hs, k.lock = l → k.side = s) :
    (hs.eraseP (fun k => k.label = (l, s))).filter (fun k => k.lock = l) = (hs.filter (fun k => k.lock = l)).tail := by
  induction hs with
  | nil => rfl
  | cons k hs ih =>
    have hrest : ∀ j ∈ hs, j.lock = l → j.side = s := fun j hj => h j (List.mem_cons_of_mem _ hj)
    by_cases hk : k.lock = l
    · have hlab : k.label = (l, s) := Prod.ext hk (h k List.mem_cons_self hk)
      rw [List.eraseP_cons_of_pos (by simpa using hlab), List.filter_cons_of_pos (by simpa using hk), List.tail_cons]
    · have hlab : k.label ≠ (l, s) := fun he => hk (congrArg Prod.fst he)
      rw [List.eraseP_cons_of_neg (by simpa using hlab), List.filter_cons_of_neg (by simpa using hk),
        List.filter_cons_of_neg (by simpa using hk), ih hrest]

theorem filter_eraseP_other {hs : List Hold} {k l : LockPtr} {s : SubLock} (hk : k ≠ l) :
    (hs.eraseP (fun h => h.label = (l, s))).filter (fun h => h.lock = k) = hs.filter (fun h => h.lock = k) := by
  induction hs with
  | nil => rfl
  | cons j hs ih =>
    by_cases hj : j.label = (l, s)
    · have hl : j.lock = l := congrArg Prod.fst hj
      rw [List.eraseP_cons_of_pos (by simpa using hj), List.filter_cons_of_neg (by simpa [hl] using Ne.symm hk)]
    · rw [List.eraseP_cons_of_neg (by simpa using hj), List.filter_cons, List.filter_cons, ih]

/-- In agreement with the reference, all holds of a lock are of the side of any of them. -/
theorem LockManager.Agrees.hold_side {lm : LockManager} {r : Reference} (h : lm.Agrees r) {l : LockPtr}
    {s : SubLock} {c d : Int} (hx : (l, s) ∈ r.sublocks c) : ∀ k ∈ r.heldBy d, k.lock = l → k.side = s := by
  intro k hk hl
  have hmem : (l, k.side) ∈ r.sublocks d := by
    rw [← hl]
    exact List.mem_map_of_mem hk
  rw [← h.sublocks] at hx hmem
  have h₁ := held_pos_of_mem hx
  have h₂ := held_pos_of_mem hmem
  have := h.oneSide l
  cases hs : k.side <;> cases s <;> simp_all <;> omega

/-- A `V()` takes the same acquisition from the positions and from the holds. -/
theorem Owned.release {cfg : Config} {lm lm' : LockManager} {r : Reference} {k l : LockPtr} {s : SubLock} {ts : Nat}
    {ctx : Int} (h : Owned cfg lm r k) (ha : lm.Agrees r) (hx : r.isHeld (l, s)) (hr : Released lm l ts ctx s lm') :
    Owned cfg lm' (r.release (l, s) ctx) k := by
  obtain ⟨c, hc, hl⟩ := h
  have hothers : ∀ d, d ≠ c → ∀ j ∈ (r.release (l, s) ctx).heldBy d, j.lock ≠ k :=
    fun d hd j hj => hc d hd j (mem_heldBy_release hj)
  by_cases hk : k = l
  · subst hk
    obtain ⟨c', hc'⟩ := Reference.isHeld_iff.mp hx
    have hrel : (k, s) ∈ r.sublocks (r.releaser (k, s) ctx) := by
      rw [← ha.releaseCtx, ← ha.sublocks]
      exact releaseCtx_mem ctx (by rw [ha.sublocks]; exact hc')
    have hcc : r.releaser (k, s) ctx = c := by
      by_contra hne
      obtain ⟨j, hj, he⟩ := List.mem_map.mp hrel
      exact hc _ hne j hj (congrArg Prod.fst he)
    refine ⟨c, hothers, ?_⟩
    cases hr with
    | closed lm₁ p ps msgs top fin =>
      rw [heldBy_release, hcc, if_pos rfl, filter_eraseP_tail (ha.hold_side hc'), List.map_tail, ← hl, top]
      simp
    | unclosed lm₁ msgs some fin =>
      rw [← ha.sublocks] at hc'
      exact absurd (releaseCtx_mem ctx hc') fin.not_mem_of_missing
    | empty msgs none =>
      rw [← ha.sublocks] at hc'
      have hpos := held_pos_of_mem hc'
      have hp := ha.positions k
      rw [none, List.length_nil] at hp
      cases s <;> omega
  · refine ⟨c, hothers, ?_⟩
    rw [hr.framed.heap k hk, hl, heldBy_release]
    split
    · rename_i hcc
      rw [filter_eraseP_other hk, ← hcc]
    · rfl

/-- The row belongs to an open transaction of a context and shows a hold of that context. -/
def Shown (cfg : Config) (lm : LockManager) (r : Reference) (row : LockHeldRow) : Prop :=
  ∃ c, ∃ t ∈ lm.stack c, t.id = row.txnId ∧ ∃ h ∈ r.heldBy c, lm.lockId h.label = row.lockId ∧
    (h.pos cfg).start = row.start ∧ (h.pos cfg).lastFile = row.lastFile ∧ (h.pos cfg).lastLine = row.lastLine

theorem Shown.congr {cfg : Config} {lm lm' : LockManager} {r : Reference} {row : LockHeldRow}
    (h : Shown cfg lm' r row) (hs : ∀ c, (lm'.stack c).map TXN.id = (lm.stack c).map TXN.id)
    (hi : ∀ x, lm'.lockId x = lm.lockId x) : Shown cfg lm r row := by
  obtain ⟨c, t, ht, hid, k, hk, hlock, hrest⟩ := h
  have hmem : t.id ∈ (lm.stack c).map TXN.id := by
    rw [← hs]
    exact List.mem_map_of_mem ht
  obtain ⟨u, hu, hut⟩ := List.mem_map.mp hmem
  exact ⟨c, u, hu, hut.trans hid, k, hk, by rw [← hi]; exact hlock, hrest⟩

theorem Shown.justified {cfg : Config} {pre post : List Event} {s : State × Reference} {row : LockHeldRow}
    (hrun : run (trackStep cfg) pre (.init cfg, .init) = .ok s) (h : Shown cfg s.1.lockManager s.2 row) :
    Justified cfg (pre ++ post) row := by
  obtain ⟨c, t, ht, hid, k, hk, hrest⟩ := h
  obtain ⟨hm, hc, hP, hside⟩ := run_fromTrace hrun c k hk
  exact ⟨pre, post, s.1, s.2, rfl, hrun, c, t, ht, hid, k, hk, hm, hc, hP, hside, hrest⟩

theorem closedHeldRows_source {heap : LockPtr → RWLock} {popped below : List TXN} :
    ∀ row ∈ closedHeldRows heap popped below, ∃ t ∈ popped, t.id = row.txnId ∧ ∃ u ∈ popped ++ below, ∃ pos ps,
      (heap u.lock).lastNPos = pos :: ps ∧
        row = ⟨row.txnId, (heap u.lock).idOf u.subLock, pos.start, pos.lastFile, pos.lastLine⟩ := by
  induction popped with
  | nil => simp [closedHeldRows]
  | cons t popped ih =>
    intro row hrow
    rw [closedHeldRows, List.mem_append] at hrow
    rcases hrow with hrow | hrow
    · split at hrow
      · obtain ⟨u, hu, pos, ps, hp, rfl⟩ := heldRows_source row hrow
        exact ⟨t, List.mem_cons_self, rfl, u, List.mem_reverse.mp hu, pos, ps, hp, rfl⟩
      · simp at hrow
    · obtain ⟨v, hv, hid, u, hu, hrest⟩ := ih row hrow
      exact ⟨v, List.mem_cons_of_mem _ hv, hid, u, List.mem_cons_of_mem _ hu, hrest⟩

/-- The topmost position of a lock on the stack of a context is that of a hold of the context. -/
theorem Owned.top {cfg : Config} {lm : LockManager} {r : Reference} {c : Int} {u : TXN} {pos : LockPos}
    {ps : List LockPos} (h : Owned cfg lm r u.lock) (ha : lm.Agrees r) (hu : u ∈ lm.stack c)
    (hp : (lm.heap u.lock).lastNPos = pos :: ps) :
    ∃ k ∈ r.heldBy c, k.label = u.label ∧ k.pos cfg = pos := by
  have hx : (u.lock, u.subLock) ∈ r.sublocks c := by
    rw [← ha.sublocks]
    exact mem_labels.mpr ⟨u, hu, rfl⟩
  obtain ⟨d, hd, hl⟩ := h
  have hcd : c = d := by
    by_contra hne
    obtain ⟨j, hj, he⟩ := List.mem_map.mp hx
    exact hd c hne j hj (congrArg Prod.fst he)
  subst hcd
  rw [hp] at hl
  have hmem : pos ∈ ((r.heldBy c).filter (fun h => h.lock = u.lock)).map (Hold.pos cfg) := by
    rw [← hl]
    exact List.mem_cons_self
  obtain ⟨k, hk, he⟩ := List.mem_map.mp hmem
  obtain ⟨hk, hlock⟩ := List.mem_filter.mp hk
  have hlock' : k.lock = u.lock := by simpa using hlock
  exact ⟨k, hk, Prod.ext hlock' (ha.hold_side hx k hk hlock'), he⟩

/-- Closing transactions of a context from the top writes rows of that context. -/
theorem shown_of_closed {cfg : Config} {lm : LockManager} {r : Reference} {c : Int} {popped below : List TXN}
    (ha : lm.Agrees r) (ho : ∀ l, Owned cfg lm r l) (hs : lm.stack c = popped ++ below) :
    ∀ row ∈ closedHeldRows lm.heap popped below, Shown cfg lm r row := by
  intro row hrow
  obtain ⟨t, ht, hid, u, hu, pos, ps, hp, he⟩ := closedHeldRows_source row hrow
  rw [← hs] at hu
  obtain ⟨k, hk, hlab, hpos⟩ := (ho u.lock).top ha hu hp
  refine ⟨c, t, by rw [hs]; exact List.mem_append_left _ ht, hid, k, hk, ?_⟩
  rw [hlab, hpos, he]
  exact ⟨rfl, rfl, rfl, rfl⟩

/-- A legal transition on a lock that no other context holds keeps the lock owned, and only
a `V()` writes rows. -/
theorem transition_owned {cfg : Config} {lm lm' : LockManager} {r : Reference} {l : LockPtr} {e : LockEvent}
    {ctx : Int} (ha : lm.Agrees r) (ho : ∀ k, Owned cfg lm r k) (hleg : legalOp cfg r l e = true)
    (hx : e.op.isP = true → r.isExclusive l ctx = true)
    (ht : lm.transition l e cfg.kernelBaseDir ctx = .ok lm') :
    (∀ k, Owned cfg lm' (if e.op.isP then r.acquire l e ctx else r.release (l, e.op.side) ctx) k) ∧
      ∀ row ∈ lm'.locksHeldOFile, row ∈ lm.locksHeldOFile ∨ e.op.isP = false ∧ Shown cfg lm r row := by
  have hfr := updateFlags_framed lm l e.flags
  have h₀ := ha.updateFlags l e.flags
  have ho₀ : ∀ k, Owned cfg (lm.updateFlags l e.flags) r k :=
    fun k => (ho k).of_pos ((kept_updateFlags lm l e.flags).pos k)
  obtain ⟨-, ⟨hP, lm₁, hp, rfl⟩ | ⟨hV, hrel⟩⟩ := transition_ok ht
  · have he := h₀.prepared hP hleg (by simp [LockManager.updateFlags, RWLock.updateFlags]) hp
    subst he
    rw [if_pos hP]
    exact ⟨fun k => (ho₀ k).acquire (Reference.isExclusive_iff.mp (hx hP)), fun row hrow => .inl hrow⟩
  · rw [if_neg (by simp [hV])]
    refine ⟨fun k => (ho₀ k).release h₀ (legal_release hV hleg) hrel, ?_⟩
    intro row hrow
    have back : Shown cfg (lm.updateFlags l e.flags) r row → Shown cfg lm r row :=
      fun h => h.congr (fun _ => rfl) hfr.lockId
    cases hrel with
    | closed lm₁ p ps msgs top fin =>
      cases fin with
      | found above t below msgs split above_ne label =>
        rcases List.mem_append.mp hrow with hrow | hrow
        · exact .inl hrow
        · exact .inr ⟨hV, back (shown_of_closed h₀ ho₀ (by simpa using split) row hrow)⟩
    | unclosed lm₁ msgs some fin =>
      cases fin with
      | missing msgs none =>
        rcases List.mem_append.mp hrow with hrow | hrow
        · exact .inl hrow
        · exact .inr ⟨hV, back (shown_of_closed h₀ ho₀ (List.append_nil _).symm row hrow)⟩
    | empty msgs none => exact .inl hrow

/-- One legal event on locks that no other context holds. -/
theorem step_owned {cfg : Config} {s t : State × Reference} {e : Event} (h : Tracks cfg s)
    (ho : ∀ l, Owned cfg s.1.lockManager s.2 l) (hleg : legalStep cfg s e = true) (hns : notShared cfg s e = true)
    (ht : trackStep cfg s e = .ok t) :
    (∀ l, Owned cfg t.1.lockManager t.2 l) ∧
      ∀ row ∈ t.1.lockManager.locksHeldOFile, row ∈ s.1.lockManager.locksHeldOFile ∨
        Shown cfg s.1.lockManager s.2 row := by
  obtain ⟨σ, r⟩ := s
  obtain ⟨σ', r'⟩ := t
  obtain ⟨hst, hr⟩ := trackStep_ok ht
  simp only at hst hr ho ⊢
  subst hr
  rcases step_ok hst with ⟨hskip, rfl⟩ | ⟨hskip, hh⟩
  · obtain ⟨ev, rfl⟩ := skips_lockOp hskip
    simp only [refStep, hskip, if_true]
    exact ⟨ho, fun row hrow => .inl hrow⟩
  · have hk := (kept_attributed cfg σ e).1
    have hrows : (attributed cfg σ e).lockManager.locksHeldOFile = σ.lockManager.locksHeldOFile := by
      rw [(kept_attributed cfg σ e).2]
    have ho₁ : ∀ l, Owned cfg (attributed cfg σ e).lockManager r l := fun l => (ho l).of_pos (hk.pos l)
    -- Only lock operations change what the reference holds.
    have idle : (∀ c, (refStep cfg σ r e).heldBy c = r.heldBy c) →
        (∀ l, (σ'.lockManager.heap l).lastNPos = ((attributed cfg σ e).lockManager.heap l).lastNPos) →
        σ'.lockManager.locksHeldOFile = (attributed cfg σ e).lockManager.locksHeldOFile →
        (∀ l, Owned cfg σ'.lockManager (refStep cfg σ r e) l) ∧ ∀ row ∈ σ'.lockManager.locksHeldOFile,
          row ∈ σ.lockManager.locksHeldOFile ∨ Shown cfg σ.lockManager r row := by
      intro hheld hpos hfile
      refine ⟨?_, fun row hrow => .inl (by rw [← hrows, ← hfile]; exact hrow)⟩
      intro l
      obtain ⟨c, hc, hl⟩ := (ho₁ l).of_pos (hpos l)
      exact ⟨c, fun d hd => by rw [hheld]; exact hc d hd, by rw [hheld]; exact hl⟩
    obtain ⟨h₁, hallocs⟩ := h.dispatched hleg
    generalize hσ₁ : attributed cfg σ e = σ₁ at hh hk hrows ho₁ idle h₁ hallocs
    cases hh with
    | quiet e σ' hq noLock unknown =>
      obtain ⟨ms, -, hlm⟩ := hq.lm
      refine idle ?_ (fun l => by rw [hlm]) (by rw [hlm])
      cases e with
      | lockOp ev =>
        obtain ⟨-, σ₂, hres⟩ := noLock ev rfl
        simp only [refStep, hskip, hσ₁, hres]
        exact fun _ => rfl
      | access ev =>
        simp only [refStep]
        split <;> exact fun _ => rfl
      | _ => exact fun _ => rfl
    | freed ts base size a rows ha => exact idle (fun _ => rfl) (fun _ => rfl) rfl
    | buffered ev a trace next traces ha hin =>
      refine idle ?_ (fun _ => rfl) rfl
      simp only [refStep]
      split <;> exact fun _ => rfl
    | acted ev l σ₂ lm hres hrl htr =>
      have hop : legalOp cfg r l ev = true := by
        simp only [legalStep, hskip, Bool.false_or, hσ₁, hres, Bool.and_eq_true] at hleg
        exact hleg.2
      have hx : ev.op.isP = true → r.isExclusive l (cfg.ctxOf ev.ctx) = true := by
        intro hP
        simpa [notShared, hskip, hσ₁, hres, hP] using hns
      have href : refStep cfg σ r (.lockOp ev) =
          if ev.op.isP then r.acquire l ev (cfg.ctxOf ev.ctx) else r.release (l, ev.op.side) (cfg.ctxOf ev.ctx) := by
        simp only [refStep, hskip, hσ₁, hres]
        rfl
      rw [href]
      cases hrl with
      | known l hl =>
        obtain ⟨ho', hnew⟩ := transition_owned h₁.agrees ho₁ hop hx htr
        refine ⟨ho', ?_⟩
        intro row hrow
        rcases hnew row hrow with hrow | ⟨-, hrow⟩
        · exact .inl (by rw [← hrows]; exact hrow)
        · refine .inr (hrow.congr ?_ ?_)
          · intro c
            obtain ⟨k, hk⟩ := attributed_stack cfg σ (.lockOp ev) c
            rw [← hσ₁, hk, map_id_bump]
          · intro x
            unfold lockId
            rw [← hσ₁, (kept_attributed cfg σ (.lockOp ev)).2]
      | fresh cls allocID name hl isP hc rows =>
        have hk' := kept_allocated h₁.agrees.wellFormed cls ev.address allocID ev.lockType name ev.flags
        obtain ⟨ho', hnew⟩ := transition_owned (h₁.agrees.allocated cls ev.address allocID ev.lockType name ev.flags).1
          (fun k => (ho₁ k).of_pos (hk'.pos k)) hop hx htr
        refine ⟨ho', ?_⟩
        intro row hrow
        rcases hnew row hrow with hrow | ⟨hV, -⟩
        · exact .inl (by rw [← hrows]; exact hrow)
        · rw [isP] at hV
          cases hV

theorem init_owned (cfg : Config) (l : LockPtr) : Owned cfg LockManager.init .init l := by
  have hnil : ∀ c, Reference.init.heldBy c = [] := by simp [Reference.init, Reference.heldBy, OrdMap.getD_eq]
  exact ⟨0, by simp [hnil], by rw [hnil]; rfl⟩

theorem Justified.mono {cfg : Config} {pre : List Event} {row : LockHeldRow} (h : Justified cfg pre row)
    (post : List Event) : Justified cfg (pre ++ post) row := by
  obtain ⟨pre', post', σ, r, rfl, hrest⟩ := h
  exact ⟨pre', post' ++ post, σ, r, List.append_assoc .., hrest⟩

theorem run_owned {cfg : Config} {pre : List Event} {s : State × Reference} (hlegal : Legal cfg pre)
    (hns : Along (trackStep cfg) (fun s e => notShared cfg s e = true) pre (.init cfg, .init))
    (hrun : run (trackStep cfg) pre (.init cfg, .init) = .ok s) :
    Tracks cfg s ∧ (∀ l, Owned cfg s.1.lockManager s.2 l) ∧
      ∀ row ∈ s.1.lockManager.locksHeldOFile, Justified cfg pre row := by
  induction pre using List.reverseRecOn generalizing s with
  | nil =>
    cases hrun
    exact ⟨init_tracks cfg, init_owned cfg, by simp [State.init, LockManager.init]⟩
  | append_singleton pre e ih =>
    obtain ⟨u, hu, he⟩ := run_append_ok.mp hrun
    rw [run_singleton] at he
    obtain ⟨hT, hO, hJ⟩ := ih (along_append_left hlegal) (along_append_left hns) hu
    have hleg := hlegal pre e [] rfl u hu
    obtain ⟨hO', hnew⟩ := step_owned hT hO hleg (hns pre e [] rfl u hu) he
    refine ⟨step_tracks hT hleg he, hO', ?_⟩
    intro row hrow
    rcases hnew row hrow with hrow | hrow
    · exact (hJ row hrow).mono [e]
    · exact hrow.justified hu

/-- The rows of the final flush. -/
theorem finish_shown {cfg : Config} {σ σ' : State} {r : Reference} (ha : σ.lockManager.Agrees r)
    (ho : ∀ l, Owned cfg σ.lockManager r l) (h : finish cfg σ = .ok σ') :
    ∀ row ∈ σ'.lockManager.locksHeldOFile, row ∈ σ.lockManager.locksHeldOFile ∨ Shown cfg σ.lockManager r row := by
  obtain ⟨lm, hlm, h⟩ := bind_ok.mp h
  cases h
  obtain ⟨pending, hpend⟩ : ∃ pending : List MemAccess, writeMemAccesses cfg 'v' 0
      { σ with allocOFile := σ.allocOFile ++ openAllocRows σ } =
      { pending.foldl (State.writeMemAccess cfg) { σ with allocOFile := σ.allocOFile ++ openAllocRows σ } with
        lastMemAccesses := [] } := ⟨_, rfl⟩
  obtain ⟨hk, he⟩ := kept_writeMemAccesses cfg { σ with allocOFile := σ.allocOFile ++ openAllocRows σ } pending
  obtain ⟨hst, -⟩ := writeMemAccesses_fold cfg { σ with allocOFile := σ.allocOFile ++ openAllocRows σ } pending
  rw [hpend] at hlm
  change LockManager.closeAllTXNs (pending.foldl (State.writeMemAccess cfg)
    { σ with allocOFile := σ.allocOFile ++ openAllocRows σ }).lockManager _ = .ok lm at hlm
  generalize (pending.foldl (State.writeMemAccess cfg)
    { σ with allocOFile := σ.allocOFile ++ openAllocRows σ }).lockManager = lm₁ at hlm hk he hst
  obtain ⟨ha₁, -⟩ := ha.bumped he hk (fun c => ⟨_, hst c⟩)
  have hc := closeAllTXNs_ok hlm
  intro row hrow
  change row ∈ lm.locksHeldOFile at hrow
  rw [hc.locks, List.mem_append, List.mem_flatMap] at hrow
  rcases hrow with hrow | ⟨c, -, hrow⟩
  · rw [he] at hrow
    exact .inl hrow
  · refine .inr ((shown_of_closed ha₁ (fun l => (ho l).of_pos (hk.pos l)) (List.append_nil _).symm row hrow).congr ?_ ?_)
    · intro d
      rw [hst, map_id_bump]
    · intro x
      unfold lockId
      rw [he]

/-- On a legal trace on which no `P()` finds its lock held by another context, every row of
`locks_held.csv` shows an unreleased acquisition of the context of its transaction. -/
theorem acquisitions_own_context (cfg : Config) (trace : List Event) (σ : State) (hlegal : Legal cfg trace)
    (hns : Along (trackStep cfg) (fun s e => notShared cfg s e = true) trace (.init cfg, .init))
    (hconv : convert cfg trace = .ok σ) : ∀ row ∈ σ.lockManager.locksHeldOFile, Justified cfg trace row := by
  obtain ⟨σ₁, hrun, hfin⟩ := bind_ok.mp hconv
  obtain ⟨r, hr⟩ := run_trackStep (r := .init) hrun
  obtain ⟨hT, hO, hJ⟩ := run_owned hlegal hns hr
  intro row hrow
  rcases finish_shown hT.agrees hO hfin row hrow with hrow | hrow
  · exact hJ row hrow
  · have := @Shown.justified cfg trace [] (σ₁, r) row hr hrow
    rwa [List.append_nil] at this

/-- Two contexts write under one lock, one after the other. -/
def writersInTurn : List Event :=
  [inodeAlloc, rwlockOp .pWrite 2 1, inodeAccess 3 1, rwlockOp .vWrite 4 1, rwlockOp .pWrite 5 2, inodeAccess 6 2]

theorem writersInTurn_own : ∃ σ, convert (.trackAll true) writersInTurn = .ok σ ∧
    σ.lockManager.locksHeldOFile.map LockHeldRow.start = [2, 5] ∧
    ∀ row ∈ σ.lockManager.locksHeldOFile, Justified (.trackAll true) writersInTurn row := by
  have hl : checkAlong (trackStep (.trackAll true)) (legalStep (.trackAll true)) writersInTurn
      (.init (.trackAll true), .init) = true := by decide +kernel
  have hn : checkAlong (trackStep (.trackAll true)) (notShared (.trackAll true)) writersInTurn
      (.init (.trackAll true), .init) = true := by decide +kernel
  exact ⟨_, rfl, by decide +kernel,
    acquisitions_own_context (.trackAll true) writersInTurn _ (along_of_check hl) (along_of_check hn) rfl⟩

/-- A second context reads under the lock before the first one is done with it. -/
def readersOverlap : List Event :=
  [inodeAlloc, rwlockOp .pRead 2 1, inodeAccess 3 1, rwlockOp .pRead 4 2, rwlockOp .vRead 5 1]

/-- The transaction of the first context is recorded with the acquisition of the second. -/
theorem readersOverlap_foreign : Legal (.trackAll true) readersOverlap ∧
    ∃ σ, convert (.trackAll true) readersOverlap = .ok σ ∧
      ∃ row ∈ σ.lockManager.locksHeldOFile, ¬Justified (.trackAll true) readersOverlap row := by
  have hl : checkAlong (trackStep (.trackAll true)) (legalStep (.trackAll true)) readersOverlap
      (.init (.trackAll true), .init) = true := by decide +kernel
  refine ⟨along_of_check hl, _, rfl, _, List.mem_singleton.mpr rfl, ?_⟩
  rintro ⟨pre, post, σ, r, hpre, hrun, c, t, ht, hid, h, hh, hm, hc, hP, hside, hlock, hstart, -, -⟩
  -- The only event at the time of the row is the `P()` of the second context.
  have hev : ∀ e ∈ readersOverlap,
      (match e with | .lockOp ev => ev.ts ≠ 4 || ev.ctx = 2 | _ => true) = true := by decide +kernel
  have hts : h.event.ts = 4 := hstart
  have hctx : h.event.ctx = 2 := by
    simpa [hts] using hev (.lockOp h.event) (by rw [hpre]; exact List.mem_append_left _ hm)
  have hnone : ∀ pre ∈ readersOverlap.inits,
      (run (trackStep (.trackAll true)) pre (.init (.trackAll true), .init)).toOption.all
        (fun s => (s.1.lockManager.stack 2).all (fun t => t.id ≠ 1)) = true := by decide +kernel
  have := hnone pre ((List.mem_inits _ _).mpr ⟨post, hpre.symm⟩)
  rw [hrun] at this
  rw [hctx] at hc
  have hc2 : c = 2 := hc.symm
  rw [hc2] at ht
  have hne := List.all_eq_true.mp this t ht
  simp only [decide_eq_true_eq] at hne
  exact hne hid

end LockDoc.Convert
