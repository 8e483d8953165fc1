import LockDoc.Convert.Agree

/-!
# Held-set exactness

On a legal trace every access is attributed to a transaction whose recorded locks are
exactly the distinct sub locks that the reference says its context held at that
moment. The invariant ties every open transaction id to the part of its stack from
the transaction downwards, through nesting, restarts and out-of-order releases.
-/
namespace LockDoc.Convert

open FallibleRun

/-- The recorded access is the one of the event. -/
structure Describes (e : AccessEvent) (a : MemAccess) : Prop where
  ts : a.ts = e.ts
  kind : a.kind = e.kind
  size : a.size = toInt e.size
  address : a.address = e.address
  ctx : a.ctx = e.ctx

/-- The row of an admitted access: no transaction if nothing was held, else one that is
backed in the sense of `B` by what was held. -/
structure RowOf (B : Nat → List (LockPtr × SubLock) → Prop) (ad : Admitted) (row : AccessRow) : Prop where
  describes : Describes ad.event row.access
  null : row.txnId = none ↔ ad.held = []
  backed : ∀ i, row.txnId = some i → B i ad.held

/-- A buffered access whose context still holds what it held at the access. -/
structure Waits (cfg : Config) (r : Reference) (ad : Admitted) (a : MemAccess) : Prop where
  describes : Describes ad.event a
  held : ad.held = r.sublocks (cfg.ctxOf a.ctx)
  address : a.address ≠ 0

/-- The ids of all accesses so far, written or buffered. -/
def State.accessIds (σ : State) : List Nat :=
  σ.accessOFile.map (fun row => row.access.id) ++ σ.lastMemAccesses.map MemAccess.id

structure Tracks (cfg : Config) (s : State × Reference) : Prop where
  agrees : s.1.lockManager.Agrees s.2
  rows : ∃ done pend, s.2.admitted = done ++ pend ∧
    List.Forall₂ (RowOf s.1.lockManager.Backed) done s.1.accessOFile ∧
    List.Forall₂ (Waits cfg s.2) pend s.1.lastMemAccesses
  nodup : s.1.accessIds.Nodup
  fresh : ∀ i ∈ s.1.accessIds, i < s.1.curAccessID

theorem RowOf.mono {B B' : Nat → List (LockPtr × SubLock) → Prop} (h : ∀ i H, B i H → B' i H) {ad : Admitted}
    {row : AccessRow} (hr : RowOf B ad row) : RowOf B' ad row :=
  ⟨hr.describes, hr.null, fun i hi => h i _ (hr.backed i hi)⟩

namespace LockManager

/-- Counting accesses on top of the stacks keeps the agreement and the backing. -/
theorem Agrees.bumped {lm lm' : LockManager} {r : Reference} (h : lm.Agrees r)
    (he : lm' = { lm with activeTXNs := lm'.activeTXNs }) (hk : Kept lm lm')
    (hs : ∀ c, ∃ k, lm'.stack c = bump k (lm.stack c)) :
    lm'.Agrees r ∧ ∀ i H, lm.Backed i H → lm'.Backed i H := by
  have hh : lm'.heap = lm.heap := by rw [he]
  have ho : lm'.objects = lm.objects := by rw [he]
  have hn : lm'.nextTXNID = lm.nextTXNID := by rw [he]
  have hl : lm'.nextLockID = lm.nextLockID := by rw [he]
  have ht : lm'.txnsOFile = lm.txnsOFile := by rw [he]
  have hlk : lm'.locksHeldOFile = lm.locksHeldOFile := by rw [he]
  have hreg : lm'.locks = lm.locks := by rw [he]
  refine ⟨h.kept hk (hk.wellFormed h.wellFormed ?_) (h.ids.congr hs hn ht hlk) (h.lockIds.congr hh ho hl), ?_⟩
  · rw [hreg, ho]
    exact h.wellFormed.registered
  · intro i H hb
    refine hb.congr hs ht hlk ?_
    intro x hx
    exact ⟨hx.congr hh ho, by unfold lockId; rw [hh]⟩

/-- Messages change nothing. -/
theorem Agrees.chatter {lm lm' : LockManager} {r : Reference} (h : lm.Agrees r) (hc : lm.Chatter lm') :
    lm'.Agrees r ∧ ∀ i H, lm.Backed i H → lm'.Backed i H := by
  obtain ⟨ms, -, rfl⟩ := hc
  have hk := kept_stderr lm (lm.stderr ++ ms)
  refine ⟨h.kept hk (hk.wellFormed h.wellFormed h.wellFormed.registered)
    (h.ids.same (fun _ => rfl) rfl rfl rfl) (h.lockIds.congr rfl rfl rfl), ?_⟩
  intro i H hb
  refine Backed.same ?_ ?_ ?_ ?_ hb
  · exact fun _ => rfl
  · rfl
  · rfl
  · exact fun x hx => ⟨⟨hx.allocated, hx.has⟩, rfl⟩

/-- Unregistering locks changes nothing that is held. -/
theorem Agrees.deleteLockByArea {lm : LockManager} {r : Reference} (h : lm.Agrees r) (address size : Nat) :
    (lm.deleteLockByArea address size).Agrees r ∧
      ∀ i H, lm.Backed i H → (lm.deleteLockByArea address size).Backed i H := by
  have hk := kept_deleteLockByArea lm address size
  refine ⟨h.kept hk (hk.wellFormed h.wellFormed ?_) (h.ids.same (fun _ => rfl) rfl rfl rfl)
    (h.lockIds.congr rfl rfl rfl), ?_⟩
  · intro a l hl
    rw [LockManager.deleteLockByArea, Std.ExtTreeMap.getElem?_filter'] at hl
    exact h.wellFormed.registered a l (Option.filter_eq_some_iff.mp hl).1
  · intro i H hb
    refine Backed.same ?_ ?_ ?_ ?_ hb
    · exact fun _ => rfl
    · rfl
    · rfl
    · exact fun x hx => ⟨⟨hx.allocated, hx.has⟩, rfl⟩

/-- A new lock is held by nobody. -/
theorem Agrees.allocated {lm : LockManager} {r : Reference} (h : lm.Agrees r) (cls : LockClass)
    (address allocID : Nat) (lockType name : String) (flags : Nat) :
    (lm.allocated cls address allocID lockType name flags).Agrees r ∧
      ∀ i H, lm.Backed i H → (lm.allocated cls address allocID lockType name flags).Backed i H := by
  have hk := kept_allocated h.wellFormed cls address allocID lockType name flags
  refine ⟨h.kept hk (h.wellFormed.allocated cls address allocID lockType name flags)
    (h.ids.same (fun _ => rfl) rfl rfl rfl) (h.lockIds.allocated lm cls address allocID lockType name flags), ?_⟩
  intro i H hb
  refine Backed.same ?_ ?_ ?_ ?_ hb
  · exact fun _ => rfl
  · rfl
  · rfl
  · intro x hx
    refine ⟨⟨Nat.lt_succ_of_lt hx.allocated, ?_⟩, lockId_allocated _ _ _ _ _ _ _ hx.allocated⟩
    rw [heap_allocated_old _ _ _ _ _ _ _ hx.allocated]
    exact hx.has

end LockManager

open LockManager

/-- Attributing the whole buffer writes one row for each waiting access. -/
theorem Tracks.flush {cfg : Config} {σ : State} {r : Reference} (h : Tracks cfg (σ, r)) :
    Tracks cfg ({ σ.lastMemAccesses.foldl (State.writeMemAccess cfg) σ with lastMemAccesses := [] }, r) := by
  obtain ⟨hst, hrows⟩ := writeMemAccesses_fold cfg σ σ.lastMemAccesses
  obtain ⟨hk, he⟩ := kept_writeMemAccesses cfg σ σ.lastMemAccesses
  have hframe := writeMemAccesses_frame cfg σ σ.lastMemAccesses
  obtain ⟨ha, hb⟩ := h.agrees.bumped he hk (fun c => ⟨_, hst c⟩)
  have hids : State.accessIds
      { σ.lastMemAccesses.foldl (State.writeMemAccess cfg) σ with lastMemAccesses := [] } = σ.accessIds := by
    simp [State.accessIds, hrows, accessRow, Function.comp_def]
  obtain ⟨done, pend, had, hdone, hpend⟩ := h.rows
  refine ⟨ha, ⟨done ++ pend, [], by simpa using had, ?_, .nil⟩, by rw [hids]; exact h.nodup, ?_⟩
  · change List.Forall₂ _ _ (σ.lastMemAccesses.foldl (State.writeMemAccess cfg) σ).accessOFile
    rw [hrows]
    refine List.rel_append (hdone.imp fun _ _ hr => hr.mono hb) ?_
    rw [List.forall₂_map_right_iff]
    rw [List.forall₂_iff_zip] at hpend ⊢
    refine ⟨hpend.1, ?_⟩
    intro ad a hm
    have hw := hpend.2 hm
    have hmem := (List.of_mem_zip hm).2
    have hlab := h.agrees.sublocks (cfg.ctxOf a.ctx)
    refine ⟨hw.describes, ?_, ?_⟩
    · rw [hw.held, ← hlab]
      cases hs : σ.lockManager.stack (cfg.ctxOf a.ctx) <;> simp [accessRow, hs]
    · intro i hi
      cases hs : σ.lockManager.stack (cfg.ctxOf a.ctx) with
      | nil => simp [accessRow, hs] at hi
      | cons t below =>
        simp only [accessRow, hs, List.head?_cons, Option.map_some, Option.some.injEq] at hi
        have hpos : 0 < σ.lastMemAccesses.countP (fun b => cfg.ctxOf b.ctx = cfg.ctxOf a.ctx) :=
          List.countP_pos_iff.mpr ⟨a, hmem, by simp⟩
        have htop := hst (cfg.ctxOf a.ctx)
        rw [hs, bump] at htop
        refine .inr ⟨cfg.ctxOf a.ctx, [], _, below, htop, hi, Nat.add_pos_right _ hpos, ?_⟩
        rw [hw.held, ← hlab, hs]
        rfl
  · rw [hids]
    change ∀ i ∈ σ.accessIds, i < (σ.lastMemAccesses.foldl (State.writeMemAccess cfg) σ).curAccessID
    rw [hframe]
    exact h.fresh

/-- The state in which a legal event is dispatched. -/
theorem Tracks.attribution {cfg : Config} {σ : State} {r : Reference} (h : Tracks cfg (σ, r)) (e : Event)
    (hp : e.action ≠ 'p') (hv : e.action ≠ 'v') :
    Tracks cfg (attributed cfg σ e, r) ∧ (attributed cfg σ e).activeAllocs = σ.activeAllocs ∧
      (¬(e.action = 'r' ∨ e.action = 'w') → (attributed cfg σ e).lastMemAccesses = []) := by
  have h₀ : Tracks cfg ({ σ with ts := e.ts }, r) := ⟨h.agrees, h.rows, h.nodup, h.fresh⟩
  rcases attributed_eq cfg σ e with ⟨he, ha⟩ | ⟨ha, pending, hpend, he⟩
  · rw [he]
    exact ⟨h₀, rfl, fun hn => absurd ha hn⟩
  · rw [if_neg (by simp [hp, hv])] at hpend
    subst hpend
    rw [he]
    refine ⟨h₀.flush, ?_, fun _ => rfl⟩
    have hf := congrArg State.activeAllocs (writeMemAccesses_frame cfg { σ with ts := e.ts } σ.lastMemAccesses)
    exact hf

/-- A legal event is dispatched in a state on track. -/
theorem Tracks.dispatched {cfg : Config} {σ : State} {r : Reference} {e : Event} (h : Tracks cfg (σ, r))
    (hleg : legalStep cfg (σ, r) e = true) :
    Tracks cfg (attributed cfg σ e, r) ∧ (attributed cfg σ e).activeAllocs = σ.activeAllocs ∧
      (¬(e.action = 'r' ∨ e.action = 'w') → (attributed cfg σ e).lastMemAccesses = []) := by
  have hact : e.action ≠ 'p' ∧ e.action ≠ 'v' := by
    cases e with
    | access ev => cases hk : ev.kind <;> simp [Event.action, AccessKind.action, hk]
    | other ts c => simp [legalStep] at hleg
    | _ => simp [Event.action]
  exact h.attribution e hact.1 hact.2

/-- Only lock operations are dropped by the seqlock filter. -/
theorem skips_lockOp {cfg : Config} {e : Event} (h : cfg.skips e = true) : ∃ ev, e = .lockOp ev := by
  cases e with
  | lockOp ev => exact ⟨ev, rfl⟩
  | _ => simp [Config.skips, Event.isSeqlock] at h

theorem Tracks.of_lm {cfg : Config} {σ σ' : State} {r : Reference} (h : Tracks cfg (σ, r))
    (hlm : σ'.lockManager.Agrees r ∧ ∀ i H, σ.lockManager.Backed i H → σ'.lockManager.Backed i H)
    (hacc : σ'.accessOFile = σ.accessOFile) (hpend : σ'.lastMemAccesses = σ.lastMemAccesses)
    (hnext : σ'.curAccessID = σ.curAccessID) : Tracks cfg (σ', r) := by
  have hids : σ'.accessIds = σ.accessIds := by unfold State.accessIds; rw [hacc, hpend]
  obtain ⟨done, pend, had, hd, hp⟩ := h.rows
  refine ⟨hlm.1, ⟨done, pend, had, ?_, ?_⟩, ?_, ?_⟩
  · rw [hacc]
    exact hd.imp fun _ _ hr => hr.mono hlm.2
  · rw [hpend]
    exact hp
  · rw [hids]
    exact h.nodup
  · rw [hids, hnext]
    exact h.fresh

/-- One legal event keeps the converter on track. -/
theorem step_tracks {cfg : Config} {s t : State × Reference} {e : Event} (h : Tracks cfg s)
    (hleg : legalStep cfg s e = true) (ht : trackStep cfg s e = .ok t) : Tracks cfg t := by
  obtain ⟨σ, r⟩ := s
  obtain ⟨σ', r'⟩ := t
  obtain ⟨hst, hr⟩ := trackStep_ok ht
  simp only at hst hr
  subst hr
  rcases step_ok hst with ⟨hskip, rfl⟩ | ⟨hskip, hh⟩
  · obtain ⟨ev, rfl⟩ := skips_lockOp hskip
    simp only [refStep, hskip, if_true]
    exact ⟨h.agrees, h.rows, h.nodup, h.fresh⟩
  · obtain ⟨h₁, hallocs, hempty⟩ := h.dispatched hleg
    generalize hσ₁ : attributed cfg σ e = σ₁ at hh h₁ hallocs hempty
    cases hh with
    | quiet e σ' hq idle unknown =>
      have hsame : refStep cfg σ r e = r := by
        cases e with
        | lockOp ev =>
          obtain ⟨-, σ₂, hres⟩ := idle ev rfl
          simp only [refStep, hskip, hσ₁, hres]
          rfl
        | access ev =>
          have hn := unknown ev rfl
          rw [hallocs] at hn
          have hc : σ.activeAllocs.contains ev.baseAddress = false := by
            rw [← Bool.not_eq_true, Std.ExtTreeMap.contains_iff_mem, Std.ExtTreeMap.mem_iff_isSome_getElem?, hn]
            simp
          simp [refStep, hc]
        | _ => rfl
      rw [hsame]
      exact h₁.of_lm (h₁.agrees.chatter hq.lm) hq.access hq.pending hq.nextId
    | freed ts base size a rows ha =>
      exact h₁.of_lm (h₁.agrees.deleteLockByArea _ _) rfl rfl rfl
    | buffered ev a trace next traces ha hin =>
      have hc : σ.activeAllocs.contains ev.baseAddress = true := by
        rw [hallocs] at ha
        rw [Std.ExtTreeMap.contains_iff_mem, Std.ExtTreeMap.mem_iff_isSome_getElem?, ha]
        rfl
      simp only [refStep, hc, if_true]
      obtain ⟨done, pend, had, hd, hp⟩ := h₁.rows
      have hagree : σ₁.lockManager.Agrees { r with admitted := r.admitted ++ [⟨ev, r.sublocks (cfg.ctxOf ev.ctx)⟩] } :=
        ⟨h₁.agrees.wellFormed, h₁.agrees.ids, h₁.agrees.lockIds, h₁.agrees.sublocks, h₁.agrees.counts,
          h₁.agrees.positions, h₁.agrees.oneSide⟩
      have hnew : ev.address ≠ 0 := by simpa [legalStep] using hleg
      refine ⟨hagree, ⟨done, pend ++ [⟨ev, r.sublocks (cfg.ctxOf ev.ctx)⟩], ?_, hd, ?_⟩, ?_, ?_⟩
      · change r.admitted = done ++ pend at had
        rw [had, List.append_assoc]
      · have hdesc : Describes ev ⟨σ₁.curAccessID, ev.ts, a.id, ev.kind, toInt ev.size, ev.address, trace, ev.ctx⟩ :=
          ⟨rfl, rfl, by simp only, rfl, rfl⟩
        refine List.rel_append (hp.imp fun _ _ hw => ⟨hw.describes, hw.held, hw.address⟩) ?_
        refine List.Forall₂.cons ⟨hdesc, ?_, hnew⟩ .nil
        rfl
      · have hlt := h₁.fresh
        have hnd := h₁.nodup
        simp only [State.accessIds, List.map_append, List.map_cons, List.map_nil, ← List.append_assoc] at hlt hnd ⊢
        rw [List.nodup_append]
        refine ⟨hnd, by simp, ?_⟩
        intro i hi j hj he
        have := hlt i hi
        simp only [List.mem_singleton] at hj
        omega
      · have hlt := h₁.fresh
        intro i hi
        simp only [State.accessIds, List.map_append, List.map_cons, List.map_nil, ← List.append_assoc] at hlt hi ⊢
        rcases List.mem_append.mp hi with hi | hi
        · exact Nat.lt_succ_of_lt (hlt i hi)
        · simp only [List.mem_singleton] at hi
          rw [hi]
          exact Nat.lt_succ_self _
    | acted ev l σ₂ lm hres hrl htr =>
      have hop : legalOp cfg r l ev = true := by
        simp only [legalStep, hskip, Bool.false_or, hσ₁, hres, Bool.and_eq_true] at hleg
        exact hleg.2
      have hpend : σ₁.lastMemAccesses = [] := hempty (by simp [Event.action])
      -- The lock was known, or it is new and held by nobody.
      have h₂ : Tracks cfg (σ₂, r) ∧ l < σ₂.lockManager.objects ∧ σ₂.lastMemAccesses = [] := by
        cases hrl with
        | known l hl => exact ⟨h₁, h₁.agrees.wellFormed.registered _ _ hl, hpend⟩
        | fresh cls allocID name hl isP hc rows =>
          exact ⟨h₁.of_lm (h₁.agrees.allocated cls _ _ _ _ _) rfl rfl rfl, Nat.lt_succ_self _, hpend⟩
      obtain ⟨h₂, hl, hpend₂⟩ := h₂
      obtain ⟨ha, hb⟩ := h₂.agrees.transition hl hop htr
      have href : refStep cfg σ r (.lockOp ev) =
          if ev.op.isP then r.acquire l ev (cfg.ctxOf ev.ctx) else r.release (l, ev.op.side) (cfg.ctxOf ev.ctx) := by
        simp only [refStep, hskip, hσ₁, hres]
        rfl
      have had : (refStep cfg σ r (.lockOp ev)).admitted = r.admitted := by
        rw [href]
        split <;> rfl
      obtain ⟨done, pend, hadm, hd, hp⟩ := h₂.rows
      simp only at hp
      rw [hpend₂] at hp
      cases hp
      refine ⟨by rw [href]; exact ha, ⟨done, [], by rw [had]; exact hadm, hd.imp fun _ _ hr => hr.mono hb, ?_⟩,
        h₂.nodup, h₂.fresh⟩
      simp only [hpend₂]
      exact .nil

namespace LockManager

/-- What the final flush needs and keeps. -/
structure Closing (lm : LockManager) : Prop where
  ids : lm.IdsFresh
  lockIds : lm.LockIds
  reportable : ∀ c, ∀ t ∈ lm.stack c, Reportable lm.heap t
  used : ∀ c, ∀ x ∈ labels (lm.stack c), lm.Used x

theorem Agrees.closing {lm : LockManager} {r : Reference} (h : lm.Agrees r) : lm.Closing :=
  ⟨h.ids, h.lockIds, h.reportable, h.used⟩

theorem Closing.log {lm : LockManager} (h : lm.Closing) (m : Msg) : (lm.log m).Closing where
  ids := h.ids.same (fun _ => rfl) rfl rfl rfl
  lockIds := h.lockIds.congr rfl rfl rfl
  reportable := h.reportable
  used c x hx := ⟨(h.used c x hx).allocated, (h.used c x hx).has⟩

theorem Closing.closed {lm : LockManager} (h : lm.Closing) (ts : Nat) {ctx : Int} {t : TXN} {below : List TXN}
    (msgs : List Msg) (hs : lm.stack ctx = t :: below) :
    (lm.closed ts ctx ctx [] [t] below below msgs).Closing ∧
      ∀ i H, lm.Backed i H → (lm.closed ts ctx ctx [] [t] below below msgs).Backed i H := by
  have hs' : lm.stack ctx = [t] ++ below := hs
  have hsub : ∀ c, ∀ u ∈ (lm.closed ts ctx ctx [] [t] below below msgs).stack c, u ∈ lm.stack c := by
    intro c u hu
    rw [stack_closed] at hu
    split at hu
    · subst c
      rw [hs]
      exact List.mem_cons_of_mem _ hu
    · exact hu
  refine ⟨⟨h.ids.closed hs' (List.Sublist.refl _), h.lockIds.congr rfl rfl rfl,
    fun c u hu => h.reportable c u (hsub c u hu), ?_⟩, ?_⟩
  · intro c x hx
    obtain ⟨u, hu, rfl⟩ := mem_labels.mp hx
    have := h.used c u.label (mem_labels.mpr ⟨u, hsub c u hu, rfl⟩)
    exact ⟨this.allocated, this.has⟩
  · exact fun i H hb => hb.closed h.ids h.lockIds hs' (h.reportable ctx) (h.used ctx)

theorem backed_log {lm : LockManager} {m : Msg} {i : Nat} {H : List (LockPtr × SubLock)} (hb : lm.Backed i H) :
    (lm.log m).Backed i H := by
  refine Backed.same ?_ ?_ ?_ ?_ hb
  · exact fun _ => rfl
  · rfl
  · rfl
  · exact fun x hx => ⟨⟨hx.allocated, hx.has⟩, rfl⟩

/-- The final flush keeps every access backed. -/
theorem Closing.closeAllTXNs {lm lm' : LockManager} {ts : Nat} (h : lm.Closing) (hc : lm.closeAllTXNs ts = .ok lm')
    {i : Nat} {H : List (LockPtr × SubLock)} (hb : lm.Backed i H) : lm'.Backed i H := by
  refine (closeAllTXNs_rule (I := fun m => m.Closing ∧ m.Backed i H) ?_ ?_ hc ⟨h, hb⟩).2
  · rintro m msg ⟨hm, hb⟩
    exact ⟨hm.log msg, backed_log hb⟩
  · rintro m ts ctx t below msgs hs ⟨hm, hb⟩
    obtain ⟨hcl, hbk⟩ := hm.closed ts msgs hs
    exact ⟨hcl, hbk i H hb⟩

/-- After the final flush everything that was backed is recorded. -/
theorem Closing.settled {lm lm' : LockManager} {ts : Nat} (h : lm.Closing) (hc : lm.closeAllTXNs ts = .ok lm')
    {i : Nat} {H : List (LockPtr × SubLock)} (hb : lm.Backed i H) : lm'.Settled i H := by
  rcases h.closeAllTXNs hc hb with hset | ⟨c, above, t, below, hst, -⟩
  · exact hset
  · rw [(closeAllTXNs_ok hc).stack] at hst
    split at hst
    · simp at hst
    · rename_i hn
      rw [stack_of_not_mem_keys hn] at hst
      simp at hst

theorem closeCtx_total (ts : Nat) {ctx : Int} {lm : LockManager}
    (hs : ∀ t ∈ lm.stack ctx, (lm.heap t.lock).cls.has t.subLock) :
    ∃ lm', closeCtx ts ctx (lm.stack ctx).length lm = .ok lm' := by
  generalize hn : (lm.stack ctx).length = n
  induction n generalizing lm with
  | zero =>
    have hnil := List.length_eq_zero_iff.mp hn
    exact ⟨lm, by unfold closeCtx; simp [hnil]⟩
  | succ n ih =>
    cases hst : lm.stack ctx with
    | nil => simp [hst] at hn
    | cons t below =>
      have hs' : (lm.log (.stillActive ctx (below.length + 1))).stack ctx = t :: below := hst
      obtain ⟨found, lm₁, h₁⟩ : ∃ found lm₁, (lm.log (.stillActive ctx (below.length + 1))).finishTXN
          t.lock ts t.subLock false ctx ctx = .ok (found, lm₁) :=
        finishTXN_total ts ctx hs (hs t (by simp [hst]))
      obtain ⟨msgs, rfl⟩ := finishTXN_top hs' h₁
      have hnew : ((lm.log (.stillActive ctx (below.length + 1))).closed ts ctx ctx [] [t] below below msgs).stack ctx =
          below := by
        rw [stack_closed, if_pos rfl]
        rfl
      obtain ⟨lm₂, h₂⟩ := @ih
        ((lm.log (.stillActive ctx (below.length + 1))).closed ts ctx ctx [] [t] below below msgs)
        (by
          rw [hnew]
          exact fun u hu => hs u (by simp [hst, hu]))
        (by
          rw [hnew]
          simpa [hst] using hn)
      refine ⟨lm₂, ?_⟩
      unfold closeCtx
      simp only [hst, h₁, bind, Except.bind]
      exact h₂

theorem closeFold_total {ts : Nat} {cs : List Int} {lm : LockManager}
    (hs : ∀ c, ∀ t ∈ lm.stack c, (lm.heap t.lock).cls.has t.subLock) :
    ∃ lm', cs.foldlM (fun lm ctx => closeCtx ts ctx (lm.stack ctx).length lm) lm = .ok lm' := by
  induction cs generalizing lm with
  | nil => exact ⟨lm, rfl⟩
  | cons c cs ih =>
    obtain ⟨lm₁, h₁⟩ := closeCtx_total ts (hs c)
    have hc := closeCtx_ok h₁
    obtain ⟨lm₂, h₂⟩ := @ih lm₁ (by
      intro d t ht
      rw [hc.heap]
      rw [hc.stack] at ht
      split at ht
      · simp at ht
      · exact hs d t ht)
    refine ⟨lm₂, ?_⟩
    rw [List.foldlM_cons]
    exact bind_ok.mpr ⟨lm₁, h₁, h₂⟩

end LockManager

theorem init_tracks (cfg : Config) : Tracks cfg (.init cfg, .init) where
  agrees := init_agrees
  rows := ⟨[], [], rfl, .nil, .nil⟩
  nodup := by simp [State.init, State.accessIds]
  fresh := by simp [State.init, State.accessIds]

/-- The look-behind filter of the final flush finds no access at address zero. -/
theorem discardLockAccess_zero {pending : List MemAccess} (h : ∀ a ∈ pending, a.address ≠ 0) :
    discardLockAccess 0 pending = pending := by
  unfold discardLockAccess
  split
  · rename_i w1 w0 rest heq
    rw [if_neg]
    rintro ⟨-, -, -, -, hz, -⟩
    refine h w0 ?_ hz
    rw [← List.mem_reverse, heq]
    simp
  · rfl

/-- The end of a legal run. -/
theorem finish_tracks {cfg : Config} {σ : State} {r : Reference} (h : Tracks cfg (σ, r)) :
    ∃ σ', finish cfg σ = .ok σ' ∧ List.Forall₂ (RowOf σ'.lockManager.Settled) r.admitted σ'.accessOFile ∧
      (σ'.accessOFile.map (fun row => row.access.id)).Nodup := by
  have h₀ : Tracks cfg ({ σ with allocOFile := σ.allocOFile ++ openAllocRows σ }, r) :=
    ⟨h.agrees, h.rows, h.nodup, h.fresh⟩
  have hdis : discardLockAccess 0 σ.lastMemAccesses = σ.lastMemAccesses := by
    apply discardLockAccess_zero
    intro a ha
    obtain ⟨done, pend, -, -, hp⟩ := h.rows
    rw [List.forall₂_iff_zip] at hp
    obtain ⟨i, hi, hai⟩ := List.getElem_of_mem ha
    have hi' : i < pend.length := by rw [hp.1]; exact hi
    have hmem : (pend[i], σ.lastMemAccesses[i]) ∈ pend.zip σ.lastMemAccesses := by
      rw [← List.getElem_zip (h := by simp only [List.length_zip]; omega)]
      exact List.getElem_mem _
    rw [← hai]
    exact (hp.2 hmem).address
  have h₁ := h₀.flush
  have hflush : writeMemAccesses cfg 'v' 0 { σ with allocOFile := σ.allocOFile ++ openAllocRows σ } =
      { σ.lastMemAccesses.foldl (State.writeMemAccess cfg)
        { σ with allocOFile := σ.allocOFile ++ openAllocRows σ } with lastMemAccesses := [] } := by
    unfold writeMemAccesses
    simp [hdis]
  change Tracks cfg (_, r) at h₁
  rw [← hflush] at h₁
  obtain ⟨lm, hlm⟩ : ∃ lm, (writeMemAccesses cfg 'v' 0 { σ with allocOFile := σ.allocOFile ++ openAllocRows σ }
      ).lockManager.closeAllTXNs (writeMemAccesses cfg 'v' 0
        { σ with allocOFile := σ.allocOFile ++ openAllocRows σ }).ts = .ok lm :=
    closeFold_total fun c t ht => (h₁.agrees.reportable c t ht).side
  refine ⟨_, bind_ok.mpr ⟨lm, hlm, rfl⟩, ?_, ?_⟩
  · obtain ⟨done, pend, had, hd, hp⟩ := h₁.rows
    have hpend : (writeMemAccesses cfg 'v' 0
        { σ with allocOFile := σ.allocOFile ++ openAllocRows σ }).lastMemAccesses = [] := by rw [hflush]
    simp only [hpend] at hp
    cases hp
    rw [List.append_nil] at had
    change r.admitted = done at had
    rw [had]
    exact hd.imp fun _ _ hr => hr.mono fun i H hb => h₁.agrees.closing.settled hlm hb
  · have hnd := h₁.nodup
    unfold State.accessIds at hnd
    exact (List.nodup_append.mp hnd).1

/-- A legal event aborts the conversion only for reasons that have nothing to do with locks. -/
theorem step_error_legal {cfg : Config} {s : State × Reference} {e : Event} {a : Abort} (h : Tracks cfg s)
    (hleg : legalStep cfg s e = true) (he : step cfg s.1 e = .error a) :
    a = .dummySubclass ∨ a = .accessOutsideAllocation := by
  obtain ⟨σ, r⟩ := s
  unfold step at he
  split at he
  · cases he
  · rename_i hskip
    have hskip' : cfg.skips e = false := by simpa [Config.skips] using hskip
    cases e with
    | alloc ts base size typeStr =>
      simp only [dispatch, handleAlloc] at he
      split at he
      · cases he
      · rcases bind_error.mp he with he | ⟨⟨i, σ₂⟩, -, he⟩
        · unfold findSubclass at he
          simp only at he
          split at he
          · cases he
          · split at he
            · cases he
            · split at he
              · cases he
                exact .inl rfl
              · cases he
        · split at he <;> cases he
    | free ts base size => cases he
    | lockOp ev =>
      simp only [legalStep, hskip', Bool.false_or] at hleg
      change handlePV cfg (attributed cfg σ (.lockOp ev)) ev = .error a at he
      obtain ⟨h₁, -, -⟩ := h.attribution (.lockOp ev) (by simp [Event.action]) (by simp [Event.action])
      rcases bind_error.mp he with he | ⟨⟨lock, σ₂⟩, hres, he⟩
      · rw [he] at hleg
        cases hleg
      · rw [hres] at hleg
        cases lock with
        | none => cases he
        | some l =>
          simp only [Bool.and_eq_true] at hleg
          have ha : σ₂.lockManager.Agrees r := by
            cases resolveLock_some hres with
            | known l hl => exact h₁.agrees
            | fresh cls allocID name hl isP hc rows => exact (h₁.agrees.allocated cls _ _ _ _ _).1
          obtain ⟨lm, hlm⟩ := ha.transition_total cfg.kernelBaseDir (cfg.ctxOf ev.ctx) hleg.1 hleg.2
          rcases bind_error.mp he with he | ⟨lm', -, he⟩
          · rw [hlm] at he
            cases he
          · cases he
    | access ev =>
      simp only [dispatch, handleAccess] at he
      split at he
      · cases he
      · split at he
        · cases he
          exact .inr rfl
        · cases he
    | other ts c => cases he

/-- Held-set exactness of the conversion: on a legal trace every admitted access has one
row, in order and under its own id; the row has no transaction exactly if its context
held nothing, and otherwise the transaction is recorded once, with one row in
`locks_held.csv` for each distinct sub lock held. A legal trace is converted to the end
unless a subclass name or the range of an access is rejected. -/
theorem held_sets_exact (cfg : Config) (trace : List Event) (hlegal : Legal cfg trace) :
    (∀ σ, convert cfg trace = .ok σ →
      List.Forall₂ (RowOf σ.lockManager.Settled) (reference cfg trace).admitted σ.accessOFile ∧
        (σ.accessOFile.map (fun row => row.access.id)).Nodup) ∧
    (∀ a, convert cfg trace = .error a → a = .dummySubclass ∨ a = .accessOutsideAllocation) := by
  have inv : ∀ pre post s, trace = pre ++ post → run (trackStep cfg) pre (.init cfg, .init) = .ok s →
      Tracks cfg s := by
    rintro pre post s rfl hs
    exact run_invariant (fun s e t hI hC hst => step_tracks hI hC hst) (along_append_left hlegal)
      (init_tracks cfg) hs
  refine ⟨?_, ?_⟩
  · intro σ hconv
    obtain ⟨σ₁, hrun, hfin⟩ := bind_ok.mp hconv
    obtain ⟨r, hr⟩ := run_trackStep (r := .init) hrun
    obtain ⟨σ', hσ', hrows⟩ := finish_tracks (inv trace [] (σ₁, r) (by simp) hr)
    rw [hfin] at hσ'
    cases hσ'
    simp only [reference, hr]
    exact hrows
  · intro a hconv
    rcases bind_error.mp hconv with hrun | ⟨σ₁, hrun, hfin⟩
    · obtain ⟨pre, e, post, s, rfl, hpre, hstep⟩ := run_error (run_trackStep_error (r := .init) hrun)
      have hT := inv pre (e :: post) s rfl hpre
      rcases bind_error.mp hstep with hstep | ⟨σ, -, hstep⟩
      · exact step_error_legal hT (hlegal pre e post rfl s hpre) hstep
      · cases hstep
    · obtain ⟨r, hr⟩ := run_trackStep (r := .init) hrun
      obtain ⟨σ', hσ', -⟩ := finish_tracks (inv trace [] (σ₁, r) (by simp) hr)
      rw [hfin] at hσ'
      cases hσ'

/-- Two contexts read under one lock, release it crosswise, and access once more without it. -/
def crosswiseReaders : List Event :=
  [inodeAlloc, rwlockOp .pRead 2 1, inodeAccess 3 1, rwlockOp .pRead 4 2, rwlockOp .pRead 5 2, inodeAccess 6 2,
    rwlockOp .vRead 7 1, rwlockOp .vRead 8 1, inodeAccess 9 1, rwlockOp .vRead 10 2]

theorem crosswiseReaders_exact : ∃ σ, convert (.trackAll true) crosswiseReaders = .ok σ ∧
    σ.accessOFile.map AccessRow.txnId = [some 1, some 3, none] ∧
    List.Forall₂ (RowOf σ.lockManager.Settled) (reference (.trackAll true) crosswiseReaders).admitted σ.accessOFile ∧
    (σ.accessOFile.map (fun row => row.access.id)).Nodup := by
  have hc : checkAlong (trackStep (.trackAll true)) (legalStep (.trackAll true)) crosswiseReaders
      (.init (.trackAll true), .init) = true := by decide +kernel
  have h := (held_sets_exact (.trackAll true) crosswiseReaders (along_of_check hc)).1 _ rfl
  exact ⟨_, rfl, by decide +kernel, h.1, h.2⟩

end LockDoc.Convert
