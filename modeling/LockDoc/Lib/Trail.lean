import LockDoc.Lib.Run

/-!
# What a run gives out

The events of a run give values, each in the state that it finds. An invariant between the
state and the values given out so far turns a step lemma into a statement about all of them.
-/
namespace FallibleRun

variable {σ τ ε α β γ : Type}

/-- What the events give, in the order of the run. -/
def trail (step : σ → ε → Except α σ) (f : σ → ε → List β) : List ε → σ → List β
  | [], _ => []
  | e :: es, s =>
    f s e ++ match step s e with
      | .ok t => trail step f es t
      | .error _ => []

theorem trail_cons_ok {step : σ → ε → Except α σ} {f : σ → ε → List β} {e : ε} {es : List ε} {s t : σ}
    (h : step s e = .ok t) : trail step f (e :: es) s = f s e ++ trail step f es t := by simp [trail, h]

/-- The rule for what a run gives out: `R` relates a state to what was given out before it. -/
theorem run_trail {step : σ → ε → Except α σ} {f : σ → ε → List β} {E : ε → Prop} {R : σ → List β → Prop}
    (hstep : ∀ s e t out, R s out → E e → step s e = .ok t → R t (out ++ f s e)) {es : List ε} {s t : σ}
    {out : List β} (hE : ∀ e ∈ es, E e) (hs : R s out) (hr : run step es s = .ok t) :
    R t (out ++ trail step f es s) := by
  induction es generalizing s out with
  | nil =>
    cases hr
    simpa [trail] using hs
  | cons e es ih =>
    obtain ⟨u, hu, hr⟩ := run_cons_ok.mp hr
    rw [trail_cons_ok hu, ← List.append_assoc]
    exact ih (fun e he => hE e (List.mem_cons_of_mem _ he)) (hstep s e u out hs (hE e List.mem_cons_self) hu) hr

/-- A run with more in its state, that aborts more often, is a run of what it refines. -/
theorem run_project {step' : τ → ε → Except γ τ} {step : σ → ε → Except α σ} {p : τ → σ}
    (hstep : ∀ t e t', step' t e = .ok t' → step (p t) e = .ok (p t')) {es : List ε} {t t' : τ}
    (hr : run step' es t = .ok t') : run step es (p t) = .ok (p t') := by
  induction es generalizing t with
  | nil =>
    cases hr
    rfl
  | cons e es ih =>
    obtain ⟨u, hu, hr⟩ := run_cons_ok.mp hr
    exact run_cons_ok.mpr ⟨p u, hstep t e u hu, ih hr⟩

/-- What is given out does not depend on what was added to the state. -/
theorem trail_project {step' : τ → ε → Except γ τ} {step : σ → ε → Except α σ} {p : τ → σ}
    (hstep : ∀ t e t', step' t e = .ok t' → step (p t) e = .ok (p t')) (f : σ → ε → List β) {es : List ε} {t t' : τ}
    (hr : run step' es t = .ok t') : trail step' (fun t e => f (p t) e) es t = trail step f es (p t) := by
  induction es generalizing t with
  | nil => rfl
  | cons e es ih =>
    obtain ⟨u, hu, hr⟩ := run_cons_ok.mp hr
    rw [trail_cons_ok hu, trail_cons_ok (hstep t e u hu), ih hr]

end FallibleRun
