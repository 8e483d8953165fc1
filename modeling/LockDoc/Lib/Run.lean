import Mathlib

/-!
# Runs of a fallible step function

A program that consumes a list of events, one step each, and may abort at any
of them. The definitions fix what it means that a property holds along a run,
and the rules turn facts about single steps into facts about whole runs.
-/
namespace FallibleRun

variable {σ τ ε α : Type}

/-- A bind succeeds exactly when both halves do. -/
theorem bind_ok {x : Except α σ} {f : σ → Except α τ} {b : τ} :
    x >>= f = .ok b ↔ ∃ a, x = .ok a ∧ f a = .ok b := by
  cases x with
  | error e => simp [bind, Except.bind]
  | ok a => simp [bind, Except.bind]

/-- A bind fails when one of its halves does. -/
theorem bind_error {x : Except α σ} {f : σ → Except α τ} {a : α} :
    x >>= f = .error a ↔ x = .error a ∨ ∃ b, x = .ok b ∧ f b = .error a := by
  cases x with
  | error e => simp [bind, Except.bind]
  | ok b => simp [bind, Except.bind]

/-- Consume the events from left to right, stopping at the first abort. -/
def run (step : σ → ε → Except α σ) : List ε → σ → Except α σ
  | [], s => .ok s
  | e :: es, s => step s e >>= run step es

@[simp] theorem run_nil (step : σ → ε → Except α σ) (s : σ) : run step [] s = .ok s := rfl

theorem run_cons_ok {step : σ → ε → Except α σ} {e : ε} {es : List ε} {s t : σ} :
    run step (e :: es) s = .ok t ↔ ∃ u, step s e = .ok u ∧ run step es u = .ok t := bind_ok

theorem run_append_ok {step : σ → ε → Except α σ} {es fs : List ε} {s t : σ} :
    run step (es ++ fs) s = .ok t ↔ ∃ u, run step es s = .ok u ∧ run step fs u = .ok t := by
  induction es generalizing s with
  | nil => simp
  | cons e es ih =>
    simp only [List.cons_append, run_cons_ok, ih]
    constructor
    · rintro ⟨v, hv, u, hu, ht⟩
      exact ⟨u, ⟨v, hv, hu⟩, ht⟩
    · rintro ⟨u, ⟨v, hv, hu⟩, ht⟩
      exact ⟨v, hv, u, hu, ht⟩

theorem run_singleton (step : σ → ε → Except α σ) (e : ε) (s : σ) : run step [e] s = step s e := by
  simp only [run]
  cases step s e <;> rfl

/-- `C` holds at every event the run attempts, in the state it attempts it in. -/
def Along (step : σ → ε → Except α σ) (C : σ → ε → Prop) (es : List ε) (s : σ) : Prop :=
  ∀ pre e post, es = pre ++ e :: post → ∀ t, run step pre s = .ok t → C t e

/-- `C` holds at every event the run completes. -/
def Completed (step : σ → ε → Except α σ) (C : σ → ε → Prop) (s : σ) (e : ε) : Prop :=
  (∃ t, step s e = .ok t) → C s e

/-- `P` holds in every state the run passes through, the first and the last included. -/
def Throughout (step : σ → ε → Except α σ) (P : σ → Prop) (es : List ε) (s : σ) : Prop :=
  ∀ pre post, es = pre ++ post → ∀ t, run step pre s = .ok t → P t

theorem along_cons {step : σ → ε → Except α σ} {C : σ → ε → Prop} {e : ε} {es : List ε} {s : σ} :
    Along step C (e :: es) s ↔ C s e ∧ ∀ t, step s e = .ok t → Along step C es t := by
  constructor
  · intro h
    refine ⟨h [] e es rfl s rfl, ?_⟩
    intro t ht pre f post he u hu
    exact h (e :: pre) f post (by rw [he]; rfl) u (run_cons_ok.mpr ⟨t, ht, hu⟩)
  · rintro ⟨h, hs⟩ pre f post he t ht
    cases pre with
    | nil =>
      obtain ⟨rfl, rfl⟩ := List.cons.inj he
      cases ht
      exact h
    | cons g pre =>
      obtain ⟨rfl, rfl⟩ := List.cons.inj he
      obtain ⟨u, hu, hr⟩ := run_cons_ok.mp ht
      exact hs u hu pre f post rfl t hr

theorem along_append_left {step : σ → ε → Except α σ} {C : σ → ε → Prop} {es fs : List ε} {s : σ}
    (h : Along step C (es ++ fs) s) : Along step C es s := by
  intro pre e post he t ht
  exact h pre e (post ++ fs) (by simp [he]) t ht

theorem along_mono {step : σ → ε → Except α σ} {C D : σ → ε → Prop} {es : List ε} {s : σ}
    (hcd : ∀ s, ∀ e ∈ es, C s e → D s e) (h : Along step C es s) : Along step D es s := by
  intro pre e post he t ht
  exact hcd t e (by simp [he]) (h pre e post he t ht)

/-- Run and test every attempted event. -/
def checkAlong (step : σ → ε → Except α σ) (c : σ → ε → Bool) : List ε → σ → Bool
  | [], _ => true
  | e :: es, s => c s e && match step s e with
    | .ok t => checkAlong step c es t
    | .error _ => true

theorem along_of_check {step : σ → ε → Except α σ} {c : σ → ε → Bool} {es : List ε} {s : σ}
    (h : checkAlong step c es s = true) : Along step (fun s e => c s e = true) es s := by
  induction es generalizing s with
  | nil => intro pre e post he; simp at he
  | cons e es ih =>
    simp only [checkAlong, Bool.and_eq_true] at h
    refine along_cons.mpr ⟨h.1, ?_⟩
    intro t ht
    have hrest := h.2
    rw [ht] at hrest
    exact ih hrest

/-- Run and test every state. -/
def checkThroughout (step : σ → ε → Except α σ) (p : σ → Bool) : List ε → σ → Bool
  | [], s => p s
  | e :: es, s => p s && match step s e with
    | .ok t => checkThroughout step p es t
    | .error _ => true

theorem throughout_of_check {step : σ → ε → Except α σ} {p : σ → Bool} {es : List ε} {s : σ}
    (h : checkThroughout step p es s = true) : Throughout step (fun s => p s = true) es s := by
  induction es generalizing s with
  | nil =>
    rintro pre post he t ht
    obtain ⟨rfl, -⟩ := List.append_eq_nil_iff.mp he.symm
    cases ht
    exact h
  | cons e es ih =>
    simp only [checkThroughout, Bool.and_eq_true] at h
    intro pre post he t ht
    cases pre with
    | nil =>
      cases ht
      exact h.1
    | cons f pre =>
      obtain ⟨rfl, rfl⟩ := List.cons.inj he
      obtain ⟨u, hu, hr⟩ := run_cons_ok.mp ht
      have hrest := h.2
      rw [hu] at hrest
      exact ih hrest pre post rfl t hr

/-- Invariant rule: what every permitted step keeps, a permitted run keeps. -/
theorem run_invariant {step : σ → ε → Except α σ} {C : σ → ε → Prop} {I : σ → Prop}
    (hstep : ∀ s e t, I s → C s e → step s e = .ok t → I t) {es : List ε} {s t : σ}
    (hC : Along step C es s) (hs : I s) (hr : run step es s = .ok t) : I t := by
  induction es generalizing s with
  | nil => cases hr; exact hs
  | cons e es ih =>
    obtain ⟨u, hu, hr⟩ := run_cons_ok.mp hr
    obtain ⟨hc, hC⟩ := along_cons.mp hC
    exact ih (hC u hu) (hstep s e u hs hc hu) hr

/-- An invariant of permitted steps holds in every state of a permitted run. -/
theorem throughout_of_invariant {step : σ → ε → Except α σ} {C : σ → ε → Prop} {I : σ → Prop}
    (hstep : ∀ s e t, I s → C s e → step s e = .ok t → I t) {es : List ε} {s : σ}
    (hC : Along step C es s) (hs : I s) : Throughout step I es s := by
  rintro pre post rfl t ht
  exact run_invariant hstep (along_append_left hC) hs ht

/-- Exactness rule, for runs over events of a kind `E`. When `I` implies `P`, and from
a state of `I` a step leads to `P` exactly when it meets `C`, and then back to `I`,
the runs that never leave `P` are the ones whose completed steps all meet `C`. -/
theorem throughout_iff_along {step : σ → ε → Except α σ} {C : σ → ε → Prop} {I P : σ → Prop} {E : ε → Prop}
    (hP : ∀ s, I s → P s)
    (hstep : ∀ s e t, I s → E e → step s e = .ok t → (P t ↔ C s e) ∧ (C s e → I t))
    {es : List ε} {s : σ} (hE : ∀ e ∈ es, E e) (hs : I s) :
    Throughout step P es s ↔ Along step (Completed step C) es s := by
  constructor
  · intro h
    induction es generalizing s with
    | nil => intro pre e post he; simp at he
    | cons e es ih =>
      have he := hE e (by simp)
      have key : ∀ t, step s e = .ok t → C s e := by
        intro t ht
        refine (hstep s e t hs he ht).1.mp (h [e] es rfl t ?_)
        rw [run_singleton]
        exact ht
      refine along_cons.mpr ⟨fun ⟨t, ht⟩ => key t ht, ?_⟩
      intro t ht
      apply ih (fun e he => hE e (by simp [he])) ((hstep s e t hs he ht).2 (key t ht))
      intro pre post he u hu
      exact h (e :: pre) post (by rw [he]; rfl) u (run_cons_ok.mpr ⟨t, ht, hu⟩)
  · intro h
    refine fun pre post he t ht => hP t ?_
    have hboth : Along step (fun s e => E e ∧ Completed step C s e) es s := by
      intro pre e post he t ht
      exact ⟨hE e (by simp [he]), h pre e post he t ht⟩
    refine throughout_of_invariant ?_ hboth hs pre post he t ht
    rintro s e t hI ⟨he, hC⟩ hst
    exact (hstep s e t hI he hst).2 (hC ⟨t, hst⟩)

/-- A run that aborts does so at one of its events. -/
theorem run_error {step : σ → ε → Except α σ} {es : List ε} {s : σ} {a : α} (h : run step es s = .error a) :
    ∃ pre e post t, es = pre ++ e :: post ∧ run step pre s = .ok t ∧ step t e = .error a := by
  induction es generalizing s with
  | nil => cases h
  | cons e es ih =>
    rcases bind_error.mp h with h | ⟨t, ht, h⟩
    · exact ⟨[], e, es, s, rfl, rfl, h⟩
    · obtain ⟨pre, f, post, u, rfl, hu, hf⟩ := ih h
      exact ⟨e :: pre, f, post, u, rfl, run_cons_ok.mpr ⟨t, ht, hu⟩, hf⟩

end FallibleRun
