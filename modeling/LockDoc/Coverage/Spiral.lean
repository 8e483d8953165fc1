import LockDoc.Coverage.Curves

/-!
# The spiral

The walk goes up, left, down and right in turn, and after every second line the lines get
one step longer. Around the centre, lines `2m + 1` long go up on the right side and left along
the top, and lines `2m + 2` long go down on the left side and right along the bottom.
-/
namespace LockDoc.Coverage

/-- The `i`-th position of the walk around the centre `c`, by the direction it goes in. -/
inductive OnSpiral (c : Nat) : Nat → Spiral → Prop
  | up {m j x y : Nat} (hj : j < 2 * m + 1) (hx : x = c + m) (hy : y + j = c + m) :
    OnSpiral c ((2 * m + 1) * (2 * m) + j) ⟨x, y, 0, 2 * m + 1, j⟩
  | left {m j x y : Nat} (hj : j < 2 * m + 1) (hx : x + j = c + m) (hy : y + m + 1 = c) :
    OnSpiral c ((2 * m + 1) * (2 * m + 1) + j) ⟨x, y, 1, 2 * m + 1, j⟩
  | down {m j x y : Nat} (hj : j < 2 * m + 2) (hx : x + m + 1 = c) (hy : y + m + 1 = c + j) :
    OnSpiral c ((2 * m + 2) * (2 * m + 1) + j) ⟨x, y, 2, 2 * m + 2, j⟩
  | right {m j x y : Nat} (hj : j < 2 * m + 2) (hx : x + m + 1 = c + j) (hy : y = c + m + 1) :
    OnSpiral c ((2 * m + 2) * (2 * m + 2) + j) ⟨x, y, 3, 2 * m + 2, j⟩

theorem lt_of_mul_self_lt {a b : Nat} (h : a * a < b * b) : a < b := Nat.mul_self_lt_mul_self_iff.mp h

theorem le_of_mul_pred_lt {a d : Nat} (h : (a + 1) * a < d * d) : a + 1 ≤ d := by
  apply Nat.succ_le_of_lt
  apply lt_of_mul_self_lt
  exact Nat.lt_of_le_of_lt (Nat.mul_le_mul_right a (Nat.le_succ a)) h

/-- How long the line of a position in the square can be. -/
theorem OnSpiral.nsteps_le {c d i : Nat} {s : Spiral} (h : OnSpiral c i s) (hi : i < d * d) :
    s.nsteps ≤ d ∧ (s.state = 1 ∨ s.state = 3 → s.nsteps < d) := by
  cases h with
  | @up m j | @down m j =>
    refine ⟨le_of_mul_pred_lt (Nat.lt_of_le_of_lt (Nat.le_add_right _ j) hi), by simp⟩
  | @left m j | @right m j =>
    have hlt := lt_of_mul_self_lt (Nat.lt_of_le_of_lt (Nat.le_add_right _ j) hi)
    exact ⟨Nat.le_of_lt hlt, fun _ => hlt⟩

/-- A position is in the square of its side length. -/
theorem OnSpiral.inside {d i : Nat} {s : Spiral} (h : OnSpiral (d / 2) i s) (hi : i < d * d) : s.x < d ∧ s.y < d := by
  have hn := h.nsteps_le hi
  cases h with
  | up hj hx hy | left hj hx hy | down hj hx hy | right hj hx hy =>
    simp only [or_true, forall_const] at hn
    dsimp only
    omega

/-- Different positions are different points. -/
theorem OnSpiral.injective {c i j : Nat} {s t : Spiral} (hs : OnSpiral c i s) (ht : OnSpiral c j t)
    (hx : s.x = t.x) (hy : s.y = t.y) : i = j := by
  cases hs with
  | @up m a | @left m a | @down m a | @right m a =>
    cases ht with
    | @up n b | @left n b | @down n b | @right n b =>
      dsimp only at hx hy
      first
        | omega
        | obtain ⟨rfl, rfl⟩ : m = n ∧ a = b := by omega
          rfl

theorem Spiral.nsteps_move (s : Spiral) : s.move.nsteps = s.nsteps := by
  unfold Spiral.move
  repeat' split
  all_goals rfl

/-- Within a line the walk moves on. -/
theorem Spiral.next_within {s : Spiral} (hn : s.nsteps < 2 ^ 32) (h : s.step + 1 < s.nsteps) :
    s.next = { s.move with step := s.step + 1 } := by
  have hstep : u32 (s.step + 1) = s.step + 1 := u32_of_lt (by omega)
  rw [Spiral.next, hstep]
  refine if_neg fun he => ?_
  dsimp only at he
  rw [Spiral.nsteps_move] at he
  omega

/-- One step of the walk. -/
theorem OnSpiral.next {d i : Nat} {s : Spiral} (hd : d < 2 ^ 32) (h : OnSpiral (d / 2) i s) (hi : i + 1 < d * d) :
    OnSpiral (d / 2) (i + 1) s.next := by
  have hn := h.nsteps_le (Nat.lt_of_succ_lt hi)
  have hin := h.inside (Nat.lt_of_succ_lt hi)
  cases h with
  | @up m j x y hj hx hy =>
    dsimp only at hn hin
    have hstep : u32 (j + 1) = j + 1 := u32_of_lt (by omega)
    by_cases hend : j = 2 * m
    · subst hend
      have hindex : (2 * m + 1) * (2 * m) + 2 * m + 1 = (2 * m + 1) * (2 * m + 1) + 0 := by ring
      rw [hindex] at hi ⊢
      have hlt : 2 * m + 1 < d := lt_of_mul_self_lt hi
      have hy' : subU32 y 1 = y - 1 := subU32_of_le (by omega) (by omega)
      have hnext : Spiral.next ⟨x, y, 0, 2 * m + 1, 2 * m⟩ = ⟨x, y - 1, 1, 2 * m + 1, 0⟩ := by
        simp [Spiral.next, Spiral.move, Spiral.turn, hstep, hy']
      rw [hnext]
      exact .left (by omega) (by omega) (by omega)
    · have hy' : subU32 y 1 = y - 1 := subU32_of_le (by omega) (by omega)
      have hnext : Spiral.next ⟨x, y, 0, 2 * m + 1, j⟩ = ⟨x, y - 1, 0, 2 * m + 1, j + 1⟩ := by
        rw [Spiral.next_within (by dsimp only; omega) (by dsimp only; omega)]
        simp [Spiral.move, hy']
      rw [hnext]
      exact @OnSpiral.up (d / 2) m (j + 1) x (y - 1) (by omega) hx (by omega)
  | @left m j x y hj hx hy =>
    dsimp only at hn hin
    have hstep : u32 (j + 1) = j + 1 := u32_of_lt (by omega)
    have hlt := hn.2 (.inl rfl)
    have hx' : subU32 x 1 = x - 1 := subU32_of_le (by omega) (by omega)
    by_cases hend : j = 2 * m
    · subst hend
      have hindex : (2 * m + 1) * (2 * m + 1) + 2 * m + 1 = (2 * m + 2) * (2 * m + 1) + 0 := by ring
      have hlong : u32 (2 * m + 1 + 1) = 2 * m + 2 := u32_of_lt (by omega)
      have hnext : Spiral.next ⟨x, y, 1, 2 * m + 1, 2 * m⟩ = ⟨x - 1, y, 2, 2 * m + 2, 0⟩ := by
        simp [Spiral.next, Spiral.move, Spiral.turn, hstep, hx', hlong]
      rw [hindex, hnext]
      exact .down (by omega) (by omega) (by omega)
    · have hnext : Spiral.next ⟨x, y, 1, 2 * m + 1, j⟩ = ⟨x - 1, y, 1, 2 * m + 1, j + 1⟩ := by
        rw [Spiral.next_within (by dsimp only; omega) (by dsimp only; omega)]
        simp [Spiral.move, hx']
      rw [hnext]
      exact @OnSpiral.left (d / 2) m (j + 1) (x - 1) y (by omega) (by omega) hy
  | @down m j x y hj hx hy =>
    dsimp only at hn hin
    have hstep : u32 (j + 1) = j + 1 := u32_of_lt (by omega)
    have hy' : u32 (y + 1) = y + 1 := u32_of_lt (by omega)
    by_cases hend : j = 2 * m + 1
    · subst hend
      have hindex : (2 * m + 2) * (2 * m + 1) + (2 * m + 1) + 1 = (2 * m + 2) * (2 * m + 2) + 0 := by ring
      have hnext : Spiral.next ⟨x, y, 2, 2 * m + 2, 2 * m + 1⟩ = ⟨x, y + 1, 3, 2 * m + 2, 0⟩ := by
        simp [Spiral.next, Spiral.move, Spiral.turn, hstep, hy']
      rw [hindex, hnext]
      exact .right (by omega) (by omega) (by omega)
    · have hnext : Spiral.next ⟨x, y, 2, 2 * m + 2, j⟩ = ⟨x, y + 1, 2, 2 * m + 2, j + 1⟩ := by
        rw [Spiral.next_within (by dsimp only; omega) (by dsimp only; omega)]
        simp [Spiral.move, hy']
      rw [hnext]
      exact @OnSpiral.down (d / 2) m (j + 1) x (y + 1) (by omega) hx (by omega)
  | @right m j x y hj hx hy =>
    dsimp only at hn hin
    have hstep : u32 (j + 1) = j + 1 := u32_of_lt (by omega)
    have hlt := hn.2 (.inr rfl)
    have hx' : u32 (x + 1) = x + 1 := u32_of_lt (by omega)
    by_cases hend : j = 2 * m + 1
    · subst hend
      have hindex : (2 * m + 2) * (2 * m + 2) + (2 * m + 1) + 1 = (2 * (m + 1) + 1) * (2 * (m + 1)) + 0 := by ring
      have hlong : u32 (2 * m + 2 + 1) = 2 * (m + 1) + 1 := u32_of_lt (by omega)
      have hnext : Spiral.next ⟨x, y, 3, 2 * m + 2, 2 * m + 1⟩ = ⟨x + 1, y, 0, 2 * (m + 1) + 1, 0⟩ := by
        simp [Spiral.next, Spiral.move, Spiral.turn, hstep, hx', hlong]
      rw [hindex, hnext]
      exact .up (by omega) (by omega) (by omega)
    · have hnext : Spiral.next ⟨x, y, 3, 2 * m + 2, j⟩ = ⟨x + 1, y, 3, 2 * m + 2, j + 1⟩ := by
        rw [Spiral.next_within (by dsimp only; omega) (by dsimp only; omega)]
        simp [Spiral.move, hx']
      rw [hnext]
      exact @OnSpiral.right (d / 2) m (j + 1) (x + 1) y (by omega) (by omega) hy

/-- The whole walk. -/
theorem onSpiral_iterate {d : Nat} (hd : d < 2 ^ 32) (i : Nat) (hi : i < d * d) :
    OnSpiral (d / 2) i (Spiral.next^[i] (Spiral.reset d)) := by
  induction i with
  | zero => exact @OnSpiral.up (d / 2) 0 0 _ _ (by omega) rfl rfl
  | succ i ih =>
    rw [Function.iterate_succ_apply']
    exact (ih (Nat.lt_of_succ_lt hi)).next hd hi

theorem iterate_next_spiral (dim : Nat) (s : Spiral) (i : Nat) :
    Sfc.next^[i] (.spiral dim s) = .spiral dim (Spiral.next^[i] s) := by
  induction i with
  | zero => rfl
  | succ i ih => rw [Function.iterate_succ_apply', Function.iterate_succ_apply', ih, Sfc.next]

/-- The coordinates of the spiral. -/
def spiralCoords (dim i : Nat) : Nat × Nat :=
  let s := Spiral.next^[i] (Spiral.reset dim)
  (s.x, s.y)

theorem coordsAt_spiral (fuel dim i : Nat) :
    Sfc.coordsAt fuel (.spiral dim (.reset dim)) i = some (spiralCoords dim i) := by
  rw [Sfc.coordsAt, iterate_next_spiral]
  rfl

theorem fills_spiral {dim : Nat} (hdim : dim < 2 ^ 32) : Fills dim (spiralCoords dim) where
  inside i hi := (onSpiral_iterate hdim i hi).inside hi
  distinct i hi j hj he := by
    obtain ⟨hx, hy⟩ := Prod.mk.inj he
    exact (onSpiral_iterate hdim i hi).injective (onSpiral_iterate hdim j hj) hx hy

/-- A spiral fills the square around its centre, and so hits every pixel of it exactly once. -/
theorem spiral_fills (dim : Nat) (hdim : dim < 2 ^ 32) :
    spiralCoords dim 0 = (dim / 2, dim / 2) ∧
    (∀ fuel i, Sfc.coordsAt fuel (.spiral dim (.reset dim)) i = some (spiralCoords dim i)) ∧
    Fills dim (spiralCoords dim) ∧
    ∀ x < dim, ∀ y < dim, ∃! i, i < dim * dim ∧ spiralCoords dim i = (x, y) := by
  have hfills := fills_spiral hdim
  refine ⟨rfl, fun fuel i => coordsAt_spiral fuel dim i, hfills, fun x hx y hy => ?_⟩
  obtain ⟨i, hi, he⟩ := hfills.covers hx hy
  refine ⟨i, ⟨hi, he⟩, fun j hj => ?_⟩
  exact hfills.distinct j hj.1 i hi (hj.2.trans he.symm)

theorem spiral_fills_four : Fills 4 (spiralCoords 4) ∧ spiralCoords 4 15 = (0, 3) :=
  ⟨(spiral_fills 4 (by decide)).2.2.1, by decide⟩

end LockDoc.Coverage
