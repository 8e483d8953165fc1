import Mathlib

/-!
# Worklist loops

A loop that takes the first element of a queue, changes a state and appends new
elements, with a bound on the number of rounds. The queue is worked off level by
level: everything that is in it at one moment comes before everything it pushes.
Invariants are therefore stated per level, and a loop whose levels die out ends.
-/
namespace Worklist

variable {σ α β ε : Type}

/-- For every large enough bound the computation ends with the value. -/
def Yields (f : Nat → Except ε α) (a : α) : Prop := ∃ n₀, ∀ n, n₀ ≤ n → f n = .ok a

theorem Yields.const (a : α) : Yields (fun _ => (.ok a : Except ε α)) a := ⟨0, fun _ _ => rfl⟩

theorem Yields.unique {f : Nat → Except ε α} {a b : α} (h : Yields f a) (h' : Yields f b) : a = b := by
  obtain ⟨n, hn⟩ := h
  obtain ⟨m, hm⟩ := h'
  have ha := hn (max n m) (Nat.le_max_left n m)
  have hb := hm (max n m) (Nat.le_max_right n m)
  rw [ha] at hb
  exact Except.ok.inj hb

theorem Yields.bind {f : Nat → Except ε α} {g : α → Nat → Except ε β} {a : α} {b : β} (h : Yields f a)
    (h' : Yields (g a) b) : Yields (fun n => f n >>= fun x => g x n) b := by
  obtain ⟨n, hn⟩ := h
  obtain ⟨m, hm⟩ := h'
  refine ⟨max n m, fun k hk => ?_⟩
  have ha := hn k (Nat.le_trans (Nat.le_max_left n m) hk)
  have hb := hm k (Nat.le_trans (Nat.le_max_right n m) hk)
  simp only [ha]
  exact hb

theorem Yields.congr {f g : Nat → Except ε α} {a : α} (h : Yields f a) (hfg : ∀ n, g n = f n) : Yields g a := by
  obtain ⟨n, hn⟩ := h
  exact ⟨n, fun k hk => (hfg k).trans (hn k hk)⟩

/-- One more round may be spent. -/
theorem Yields.succ {f g : Nat → Except ε α} {a : α} (h : Yields f a) (hfg : ∀ n, g (n + 1) = f n) : Yields g a := by
  obtain ⟨n, hn⟩ := h
  refine ⟨n + 1, fun k hk => ?_⟩
  obtain ⟨j, rfl⟩ : ∃ j, k = j + 1 := ⟨k - 1, by omega⟩
  rw [hfg]
  exact hn j (by omega)

/-- A fold of computations that all end ends. -/
theorem Yields.foldlM {step : Nat → σ → α → Except ε σ} {I : List α → σ → Prop} {xs : List α} {s : σ}
    (h : ∀ done x rest s, xs = done ++ x :: rest → I done s →
      ∃ t, Yields (fun n => step n s x) t ∧ I (done ++ [x]) t)
    (hs : I [] s) : ∃ t, Yields (fun n => xs.foldlM (step n) s) t ∧ I xs t := by
  have main : ∀ rest done s, xs = done ++ rest → I done s →
      ∃ t, Yields (fun n => rest.foldlM (step n) s) t ∧ I (done ++ rest) t := by
    intro rest
    induction rest with
    | nil =>
      intro done s _ hI
      exact ⟨s, .const s, by simpa using hI⟩
    | cons x rest ih =>
      intro done s hxs hI
      obtain ⟨u, hu, hIu⟩ := h done x rest s hxs hI
      obtain ⟨t, ht, hIt⟩ := ih (done ++ [x]) u (by simpa using hxs) hIu
      refine ⟨t, ?_, by simpa using hIt⟩
      exact (hu.bind (g := fun u n => rest.foldlM (step n) u) ht).congr (fun n => by rw [List.foldlM_cons])
  exact main xs [] s rfl hs

/-- The computation ends with a value that passes a test. -/
def okAnd (r : Except ε α) (p : α → Bool) : Bool :=
  match r with
  | .ok a => p a
  | .error _ => false

theorem okAnd_iff {r : Except ε α} {p : α → Bool} : okAnd r p = true ↔ ∃ a, r = .ok a ∧ p a = true := by
  cases r <;> simp [okAnd]

/-- A result does not change with a larger bound. -/
def Stable (f : Nat → Except ε α) : Prop := ∀ n a, f n = .ok a → f (n + 1) = .ok a

theorem Stable.mono {f : Nat → Except ε α} (h : Stable f) {n m : Nat} {a : α} (hn : f n = .ok a) (hle : n ≤ m) :
    f m = .ok a := by
  induction hle with
  | refl => exact hn
  | step _ ih => exact h _ a ih

/-- One large enough bound is enough. -/
theorem Stable.yields {f : Nat → Except ε α} (h : Stable f) {n : Nat} {a : α} (hn : f n = .ok a) : Yields f a :=
  ⟨n, fun _ hle => h.mono hn hle⟩

theorem Stable.const (r : Except ε α) : Stable (fun _ => r) := fun _ _ h => h

theorem Stable.bind {f : Nat → Except ε α} {g : α → Nat → Except ε β} (hf : Stable f) (hg : ∀ a, Stable (g a)) :
    Stable (fun n => f n >>= fun a => g a n) := by
  intro n b h
  cases hn : f n with
  | error e => simp [hn, Bind.bind, Except.bind] at h
  | ok a =>
    simp only [hn, Bind.bind, Except.bind] at h
    simp only [hf n a hn, Bind.bind, Except.bind]
    exact hg a n b h

theorem Stable.foldlM {step : Nat → σ → α → Except ε σ} (h : ∀ s x, Stable (fun n => step n s x)) (xs : List α) :
    ∀ s, Stable (fun n => xs.foldlM (step n) s) := by
  induction xs with
  | nil => exact fun s => .const (.ok s)
  | cons x xs ih =>
    intro s
    simp only [List.foldlM_cons]
    exact (h s x).bind fun t => ih t

/-! ## Computations on values that are mapped -/

section

variable {τ γ : Type}

theorem map_bind (k : β → γ) (x : Except ε α) (f : α → Except ε β) :
    (x >>= f).map k = x >>= fun a => (f a).map k := by
  cases x <;> rfl

theorem bind_map (k : α → β) (x : Except ε α) (f : β → Except ε γ) : x.map k >>= f = x >>= fun a => f (k a) := by
  cases x <;> rfl

/-- Two folds whose steps do the same are the same. -/
theorem foldlM_map {step : σ → α → Except ε σ} {step' : τ → β → Except ε τ} {k : σ → τ} {j : α → β} {xs : List α}
    (h : ∀ x ∈ xs, ∀ s, step' (k s) (j x) = (step s x).map k) (s : σ) :
    (xs.map j).foldlM step' (k s) = (xs.foldlM step s).map k := by
  induction xs generalizing s with
  | nil => rfl
  | cons x xs ih =>
    rw [List.map_cons, List.foldlM_cons, List.foldlM_cons, h x List.mem_cons_self, bind_map, map_bind]
    congr 1
    funext t
    exact ih (fun y hy => h y (List.mem_cons_of_mem _ hy)) t

theorem Yields.map {f : Nat → Except ε α} {a : α} (h : Yields f a) (k : α → β) : Yields (fun n => (f n).map k) (k a) := by
  obtain ⟨n, hn⟩ := h
  exact ⟨n, fun m hm => congrArg (Except.map k) (hn m hm)⟩

theorem Stable.map {f : Nat → Except ε α} (hf : Stable f) (k : α → β) : Stable (fun n => (f n).map k) := by
  intro n b h
  cases hn : f n with
  | error e =>
    simp only [hn] at h
    cases h
  | ok a =>
    simp only [hn] at h
    simp only [hf n a hn]
    exact h

/-- What a mapped computation yields comes from what the computation yields. -/
theorem Yields.of_map {f : Nat → Except ε α} {k : α → β} {b : β} (hf : Stable f) (h : Yields (fun n => (f n).map k) b) :
    ∃ a, Yields f a ∧ k a = b := by
  obtain ⟨n, hn⟩ := h
  have hlast : (f n).map k = .ok b := hn n (Nat.le_refl n)
  cases hfn : f n with
  | error e =>
    rw [hfn] at hlast
    cases hlast
  | ok a =>
    rw [hfn] at hlast
    exact ⟨a, hf.yields hfn, Except.ok.inj hlast⟩

end

/-- The loop. -/
def run (out : ε) (step : σ → α → Except ε (σ × List α)) : Nat → σ → List α → Except ε σ
  | _, s, [] => .ok s
  | 0, _, _ :: _ => .error out
  | n + 1, s, x :: queue => do
    let (s, pushed) ← step s x
    run out step n s (queue ++ pushed)

theorem run_stable (out : ε) (step : σ → α → Except ε (σ × List α)) (s : σ) (q : List α) :
    Stable (fun n => run out step n s q) := by
  intro n
  induction n generalizing s q with
  | zero =>
    intro t h
    cases q with
    | nil => exact h
    | cons x q => cases h
  | succ n ih =>
    intro t h
    cases q with
    | nil => exact h
    | cons x q =>
      simp only [run] at h ⊢
      cases hx : step s x with
      | error e => simp [hx, Bind.bind, Except.bind] at h
      | ok up =>
        simp only [hx, Bind.bind, Except.bind] at h ⊢
        exact ih up.1 (q ++ up.2) t h

/-- What the loop reaches after some rounds: a state, and the queue then. -/
inductive Rounds (step : σ → α → Except ε (σ × List α)) (s : σ) (q : List α) : σ → List α → Prop
  | start : Rounds step s q s q
  | next {t u : σ} {x : α} {r p : List α} (h : Rounds step s q t (x :: r)) (hx : step t x = .ok (u, p)) :
    Rounds step s q u (r ++ p)

/-- The rule for rounds: an invariant of the state and the queue. -/
theorem Rounds.rule {step : σ → α → Except ε (σ × List α)} {I : σ → List α → Prop} {s t : σ} {q r : List α}
    (hstep : ∀ t x r u p, I t (x :: r) → step t x = .ok (u, p) → I u (r ++ p)) (hs : I s q)
    (h : Rounds step s q t r) : I t r := by
  induction h with
  | start => exact hs
  | next _ hx ih => exact hstep _ _ _ _ _ ih hx

/-- A loop that ends has passed its rounds. -/
theorem rounds_of_run {out : ε} {step : σ → α → Except ε (σ × List α)} {n : Nat} {s t u : σ} {q r : List α}
    (h : Rounds step s q t r) (hrun : run out step n t r = .ok u) : Rounds step s q u [] := by
  induction n generalizing t r with
  | zero =>
    cases r with
    | nil =>
      cases hrun
      exact h
    | cons x r => cases hrun
  | succ n ih =>
    cases r with
    | nil =>
      cases hrun
      exact h
    | cons x r =>
      simp only [run] at hrun
      cases hx : step t x with
      | error e => simp [hx, Bind.bind, Except.bind] at hrun
      | ok vp =>
        simp only [hx, Bind.bind, Except.bind] at hrun
        exact ih (h.next hx) hrun

/-- What holds of all elements so far and of the next one. -/
theorem forall_mem_concat {p : α → Prop} {xs : List α} {x : α} :
    (∀ e ∈ xs ++ [x], p e) ↔ (∀ e ∈ xs, p e) ∧ p x := by
  rw [List.forall_mem_append, List.forall_mem_singleton]

/-- One level: the elements of a list, and everything they push. -/
def sweep (step : σ → α → Except ε (σ × List α)) : σ → List α → Except ε (σ × List α)
  | s, [] => .ok (s, [])
  | s, x :: xs => do
    let (s, pushed) ← step s x
    let (s, more) ← sweep step s xs
    .ok (s, pushed ++ more)

theorem sweep_cons {step : σ → α → Except ε (σ × List α)} {s u t : σ} {x : α} {xs p q : List α}
    (hx : step s x = .ok (u, p)) (hxs : sweep step u xs = .ok (t, q)) :
    sweep step s (x :: xs) = .ok (t, p ++ q) := by
  simp only [sweep, hx, hxs, bind, Except.bind]

/-- What stands in front of the queue is worked off first. -/
theorem run_append {out : ε} {step : σ → α → Except ε (σ × List α)} {n : Nat} {s t : σ} {xs ys p : List α}
    (h : sweep step s xs = .ok (t, p)) : run out step (xs.length + n) s (xs ++ ys) = run out step n t (ys ++ p) := by
  induction xs generalizing s ys p with
  | nil =>
    cases h
    simp
  | cons x xs ih =>
    unfold sweep at h
    cases hx : step s x with
    | error e => simp [hx, bind, Except.bind] at h
    | ok up =>
      obtain ⟨u, p₁⟩ := up
      simp only [hx, bind, Except.bind] at h
      cases hxs : sweep step u xs with
      | error e => simp [hxs] at h
      | ok tq =>
        obtain ⟨t', q⟩ := tq
        simp only [hxs, Except.ok.injEq, Prod.mk.injEq] at h
        obtain ⟨rfl, rfl⟩ := h
        rw [List.length_cons, Nat.add_right_comm, List.cons_append, run, hx]
        simp only [bind, Except.bind]
        rw [List.append_assoc, ih hxs, List.append_assoc]

/-- What stands in front of the queue is worked off in some rounds. -/
theorem Rounds.sweep {step : σ → α → Except ε (σ × List α)} {s t u : σ} {q xs ys p : List α}
    (h : Rounds step s q t (xs ++ ys)) (hsw : Worklist.sweep step t xs = .ok (u, p)) :
    Rounds step s q u (ys ++ p) := by
  induction xs generalizing t ys p with
  | nil =>
    cases hsw
    simpa using h
  | cons x xs ih =>
    unfold Worklist.sweep at hsw
    cases hx : step t x with
    | error e => simp [hx, bind, Except.bind] at hsw
    | ok vp =>
      obtain ⟨v, p₁⟩ := vp
      simp only [hx, bind, Except.bind] at hsw
      cases hxs : Worklist.sweep step v xs with
      | error e => simp [hxs] at hsw
      | ok tq =>
        obtain ⟨t', q'⟩ := tq
        simp only [hxs, Except.ok.injEq, Prod.mk.injEq] at hsw
        obtain ⟨rfl, rfl⟩ := hsw
        have hnext : Rounds step s q v (xs ++ (ys ++ p₁)) := by simpa using h.next hx
        rw [← List.append_assoc]
        exact ih hnext hxs

theorem run_level {out : ε} {step : σ → α → Except ε (σ × List α)} {n : Nat} {s t : σ} {q p : List α}
    (h : sweep step s q = .ok (t, p)) : run out step (q.length + n) s q = run out step n t p := by
  simpa using @run_append _ _ _ out step n s t q [] p h

/-- The levels of a loop, until one is empty. -/
inductive Levels (step : σ → α → Except ε (σ × List α)) : σ → List α → σ → Prop
  | done (s : σ) : Levels step s [] s
  | next {s t u : σ} {q p : List α} (h : sweep step s q = .ok (t, p)) (rest : Levels step t p u) : Levels step s q u

theorem Levels.yields {step : σ → α → Except ε (σ × List α)} {s t : σ} {q : List α} (out : ε)
    (h : Levels step s q t) : Yields (fun n => run out step n s q) t := by
  induction h with
  | done s => exact ⟨0, fun n _ => by cases n <;> rfl⟩
  | next hq rest ih =>
    rename_i q p
    obtain ⟨n, hn⟩ := ih
    refine ⟨q.length + n, fun k hk => ?_⟩
    obtain ⟨j, rfl⟩ : ∃ j, k = q.length + j := ⟨k - q.length, by omega⟩
    exact (run_level hq).trans (hn j (by omega))

/-- The rule for levels: an invariant that every level hands on to the next, and that
leaves no level after the `D`-th. -/
theorem levels_rule {step : σ → α → Except ε (σ × List α)} (D : Nat) {I : Nat → σ → List α → Prop}
    (hnext : ∀ k s q, I k s q → ∃ t p, sweep step s q = .ok (t, p) ∧ I (k + 1) t p)
    (hend : ∀ k s q, I k s q → D < k → q = []) {s : σ} {q : List α} (h : I 0 s q) :
    ∃ k t, Levels step s q t ∧ I k t [] := by
  have main : ∀ m k s q, D + 1 - k = m → I k s q → ∃ k t, Levels step s q t ∧ I k t [] := by
    intro m
    induction m with
    | zero =>
      intro k s q hm hI
      have hq := hend k s q hI (by omega)
      subst hq
      exact ⟨k, s, .done s, hI⟩
    | succ m ih =>
      intro k s q hm hI
      obtain ⟨t, p, hsw, hI'⟩ := hnext k s q hI
      obtain ⟨j, u, hl, hu⟩ := ih (k + 1) t p (by omega) hI'
      exact ⟨j, u, .next hsw hl, hu⟩
  exact main _ 0 s q rfl h

/-- The rule for one level: an invariant of what has been worked off, the state, and what
has been pushed. -/
theorem sweep_rule {step : σ → α → Except ε (σ × List α)} {I : List α → σ → List α → Prop} {q : List α} {s : σ}
    (hstep : ∀ done x rest s p, q = done ++ x :: rest → I done s p →
      ∃ t pushed, step s x = .ok (t, pushed) ∧ I (done ++ [x]) t (p ++ pushed))
    (h : I [] s []) : ∃ t p, sweep step s q = .ok (t, p) ∧ I q t p := by
  have main : ∀ rest done s p, q = done ++ rest → I done s p →
      ∃ t p', sweep step s rest = .ok (t, p') ∧ I (done ++ rest) t (p ++ p') := by
    intro rest
    induction rest with
    | nil =>
      intro done s p _ hI
      exact ⟨s, [], rfl, by simpa using hI⟩
    | cons x rest ih =>
      intro done s p hq hI
      obtain ⟨u, pushed, hx, hu⟩ := hstep done x rest s p hq hI
      obtain ⟨t, p', hsw, ht⟩ := ih (done ++ [x]) u (p ++ pushed) (by simpa using hq) hu
      exact ⟨t, pushed ++ p', sweep_cons hx hsw, by simpa using ht⟩
  obtain ⟨t, p, hsw, hI⟩ := main q [] s [] rfl h
  exact ⟨t, p, hsw, by simpa using hI⟩

/-- What a search has seen when its queue is empty: the start, and the children of
everything it expanded. -/
structure Searched (children : α → List α) (q seen expanded : List α) : Prop where
  start : ∀ x ∈ q, x ∈ seen
  sub : ∀ p ∈ expanded, p ∈ seen
  below : ∀ p ∈ expanded, ∀ x ∈ children p, x ∈ seen
  source : ∀ x ∈ seen, x ∈ q ∨ ∃ p ∈ expanded, x ∈ children p

/-- The rule for a search over ranked nodes that expands some of the nodes it sees: nodes
are seen in the order of their rank. -/
theorem search_rule {step : σ → α → Except ε (σ × List α)} {children : α → List α} {rank : α → Nat}
    {G : α → Prop} {D : Nat} (hG : ∀ x, G x → ∀ y ∈ children x, G y ∧ rank y = rank x + 1)
    (hD : ∀ x, G x → rank x ≤ D) {I : List α → List α → σ → Prop}
    (hstep : ∀ seen expanded s x, I seen expanded s → (∀ p ∈ expanded, p ∈ seen) → G x →
      (∀ e ∈ seen, rank e ≤ rank x) →
      ∃ t, (step s x = .ok (t, children x) ∧ I (seen ++ [x]) (expanded ++ [x]) t) ∨
        (step s x = .ok (t, []) ∧ I (seen ++ [x]) expanded t))
    {L : Nat} {q : List α} {s : σ} (hq : ∀ x ∈ q, G x ∧ rank x = L) (h : I [] [] s) :
    ∃ seen expanded t, Levels step s q t ∧ Searched children q seen expanded ∧ I seen expanded t := by
  let J : Nat → σ → List α → Prop := fun k s p => ∃ seen expanded, I seen expanded s ∧
    (∀ x ∈ p, G x ∧ rank x = L + k) ∧ (∀ e ∈ seen, rank e < L + k) ∧ (∀ x ∈ q, x ∈ seen ++ p) ∧
    (∀ y ∈ expanded, y ∈ seen) ∧ (∀ y ∈ expanded, ∀ x ∈ children y, x ∈ seen ++ p) ∧
    ∀ x ∈ seen ++ p, x ∈ q ∨ ∃ y ∈ expanded, x ∈ children y
  have hstart : J 0 s q := ⟨[], [], h, hq, by simp, by simp, by simp, by simp, by simp⟩
  have hnext : ∀ k s p, J k s p → ∃ t p', sweep step s p = .ok (t, p') ∧ J (k + 1) t p' := by
    rintro k s p ⟨seen, expanded, hI, hp, hseen, hqs, hsub, hch, hsrc⟩
    obtain ⟨t, p', hsw, more, hmore, rfl, hI'⟩ := @sweep_rule _ _ _ step
      (fun done s p' => ∃ more, (∀ y ∈ more, y ∈ done) ∧ p' = more.flatMap children ∧
        I (seen ++ done) (expanded ++ more) s) p s
      (by
        rintro done x rest s p' hpx ⟨more, hmore, rfl, hI⟩
        have hx := hp x (by simp [hpx])
        have hle : ∀ e ∈ seen ++ done, rank e ≤ rank x := by
          intro e he
          rcases List.mem_append.mp he with he | he
          · have := hseen e he
            omega
          · have := (hp e (by simp [hpx, he])).2
            omega
        have hsub' : ∀ y ∈ expanded ++ more, y ∈ seen ++ done := by
          intro y hy
          rcases List.mem_append.mp hy with hy | hy
          · exact List.mem_append_left _ (hsub y hy)
          · exact List.mem_append_right _ (hmore y hy)
        obtain ⟨t, ⟨hx', hI'⟩ | ⟨hx', hI'⟩⟩ := hstep _ _ s x hI hsub' hx.1 hle
        · refine ⟨t, _, hx', more ++ [x], ?_, by simp, by simpa using hI'⟩
          intro y hy
          rcases List.mem_append.mp hy with hy | hy
          · exact List.mem_append_left _ (hmore y hy)
          · exact List.mem_append_right _ hy
        · refine ⟨t, _, hx', more, fun y hy => List.mem_append_left _ (hmore y hy), by simp, by simpa using hI'⟩)
      ⟨[], by simp, rfl, by simpa using hI⟩
    refine ⟨t, _, hsw, seen ++ p, expanded ++ more, hI', ?_, ?_, ?_, ?_, ?_, ?_⟩
    · intro x hx
      obtain ⟨y, hy, hx⟩ := List.mem_flatMap.mp hx
      have hy' := hp y (hmore y hy)
      have := hG y hy'.1 x hx
      exact ⟨this.1, by omega⟩
    · intro e he
      rcases List.mem_append.mp he with he | he
      · have := hseen e he
        omega
      · have := (hp e he).2
        omega
    · exact fun x hx => List.mem_append_left _ (hqs x hx)
    · intro y hy
      rcases List.mem_append.mp hy with hy | hy
      · exact List.mem_append_left _ (hsub y hy)
      · exact List.mem_append_right _ (hmore y hy)
    · intro y hy x hx
      rcases List.mem_append.mp hy with hy | hy
      · exact List.mem_append_left _ (hch y hy x hx)
      · exact List.mem_append_right _ (List.mem_flatMap.mpr ⟨y, hy, hx⟩)
    · intro x hx
      rcases List.mem_append.mp hx with hx | hx
      · refine (hsrc x hx).imp_right ?_
        rintro ⟨y, hy, hx⟩
        exact ⟨y, List.mem_append_left _ hy, hx⟩
      · obtain ⟨y, hy, hx⟩ := List.mem_flatMap.mp hx
        exact .inr ⟨y, List.mem_append_right _ hy, hx⟩
  have hend : ∀ k s p, J k s p → D < k → p = [] := by
    rintro k s p ⟨-, -, -, hp, -⟩ hk
    rw [List.eq_nil_iff_forall_not_mem]
    intro x hx
    have := hp x hx
    have := hD x this.1
    omega
  obtain ⟨k, t, hlev, seen, expanded, hI, -, -, hqs, hsub, hch, hsrc⟩ := levels_rule D hnext hend hstart
  simp only [List.append_nil] at hqs hch hsrc
  exact ⟨seen, expanded, t, hlev, ⟨hqs, hsub, hch, hsrc⟩, hI⟩

end Worklist
