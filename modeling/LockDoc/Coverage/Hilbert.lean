import LockDoc.Coverage.Spiral

/-!
# The Hilbert curve

The loop builds the curve from the smallest square up. A round takes two bits of the
position, which say in which quadrant of the next larger square the point lies, and turns the
smaller curve so that the four copies join. The side length only decides after how many
rounds the loop ends, so the next power of two may stand in its place.
-/
namespace LockDoc.Coverage

/-- A point of a square with side `s`, in one of the four quadrants of the square twice as large. -/
def quadrant (s digit : Nat) (p : Nat × Nat) : Nat × Nat :=
  match digit with
  | 0 => (p.2, p.1)
  | 1 => (p.1, p.2 + s)
  | 2 => (p.1 + s, p.2 + s)
  | _ => (2 * s - 1 - p.2, s - 1 - p.1)

/-- The curve through the square with side `2 ^ level`. -/
def hilbert : Nat → Nat → Nat × Nat
  | 0, _ => (0, 0)
  | level + 1, pos => quadrant (2 ^ level) (pos / 4 ^ level % 4) (hilbert level pos)

/-- The points differ by 1 in exactly one axis. -/
def Adjacent (p q : Nat × Nat) : Prop :=
  (p.1 = q.1 ∧ (p.2 + 1 = q.2 ∨ q.2 + 1 = p.2)) ∨ (p.2 = q.2 ∧ (p.1 + 1 = q.1 ∨ q.1 + 1 = p.1))

@[simp] theorem quadrant_zero (s : Nat) (p : Nat × Nat) : quadrant s 0 p = (p.2, p.1) := rfl
@[simp] theorem quadrant_one (s : Nat) (p : Nat × Nat) : quadrant s 1 p = (p.1, p.2 + s) := rfl
@[simp] theorem quadrant_two (s : Nat) (p : Nat × Nat) : quadrant s 2 p = (p.1 + s, p.2 + s) := rfl
@[simp] theorem quadrant_three (s : Nat) (p : Nat × Nat) : quadrant s 3 p = (2 * s - 1 - p.2, s - 1 - p.1) := rfl

theorem digit_cases {digit : Nat} (h : digit < 4) : digit = 0 ∨ digit = 1 ∨ digit = 2 ∨ digit = 3 := by omega

section

variable {s digit : Nat} {p q : Nat × Nat} (hd : digit < 4) (hp : p.1 < s ∧ p.2 < s) (hq : q.1 < s ∧ q.2 < s)

include hd hp

theorem quadrant_inside : (quadrant s digit p).1 < 2 * s ∧ (quadrant s digit p).2 < 2 * s := by
  rcases digit_cases hd with rfl | rfl | rfl | rfl <;> simp <;> omega

include hq

theorem quadrant_injective {digit' : Nat} (hd' : digit' < 4) (h : quadrant s digit p = quadrant s digit' q) :
    digit = digit' ∧ p = q := by
  obtain ⟨x, y⟩ := p
  obtain ⟨x', y'⟩ := q
  rcases digit_cases hd with rfl | rfl | rfl | rfl <;> rcases digit_cases hd' with rfl | rfl | rfl | rfl <;>
    simp at h hp hq ⊢ <;> omega

theorem quadrant_adjacent (h : Adjacent p q) : Adjacent (quadrant s digit p) (quadrant s digit q) := by
  unfold Adjacent at *
  rcases digit_cases hd with rfl | rfl | rfl | rfl <;> simp <;> omega

end

theorem hilbert_inside (level pos : Nat) : (hilbert level pos).1 < 2 ^ level ∧ (hilbert level pos).2 < 2 ^ level := by
  induction level with
  | zero => simp [hilbert]
  | succ level ih =>
    rw [Nat.pow_succ']
    exact quadrant_inside (Nat.mod_lt _ (by decide)) ih

/-- The digits of a position. -/
theorem mod_four_pow_succ (pos level : Nat) :
    pos % 4 ^ (level + 1) = pos % 4 ^ level + 4 ^ level * (pos / 4 ^ level % 4) := Nat.mod_mul

/-- The points are different while the positions are. -/
theorem hilbert_injective (level : Nat) {pos pos' : Nat} (h : hilbert level pos = hilbert level pos') :
    pos % 4 ^ level = pos' % 4 ^ level := by
  induction level with
  | zero => rw [pow_zero, Nat.mod_one, Nat.mod_one]
  | succ level ih =>
    obtain ⟨hdigit, hrest⟩ := quadrant_injective (Nat.mod_lt _ (by decide)) (hilbert_inside level pos)
      (hilbert_inside level pos') (Nat.mod_lt _ (by decide)) h
    rw [mod_four_pow_succ, mod_four_pow_succ, hdigit, ih hrest]

/-- The curve begins in the corner. -/
theorem hilbert_start (level : Nat) {pos : Nat} (h : pos % 4 ^ level = 0) : hilbert level pos = (0, 0) := by
  induction level with
  | zero => rfl
  | succ level ih =>
    have hpos : 0 < 4 ^ level := by positivity
    rw [mod_four_pow_succ] at h
    have hlow : pos % 4 ^ level = 0 := by omega
    have hdigit : pos / 4 ^ level % 4 = 0 := by
      have hmul : 4 ^ level * (pos / 4 ^ level % 4) = 0 := by omega
      exact (Nat.mul_eq_zero.mp hmul).resolve_left (by omega)
    rw [hilbert, hdigit, ih hlow, quadrant]

/-- And it ends in the next one. -/
theorem hilbert_end (level : Nat) {pos : Nat} (h : pos % 4 ^ level + 1 = 4 ^ level) :
    hilbert level pos = (2 ^ level - 1, 0) := by
  induction level with
  | zero => rfl
  | succ level ih =>
    have hlt := Nat.mod_lt pos (show 0 < 4 ^ level by positivity)
    have hd := Nat.mod_lt (pos / 4 ^ level) (show 0 < 4 by decide)
    rw [mod_four_pow_succ, pow_succ] at h
    have hdigit : pos / 4 ^ level % 4 = 3 := by
      rcases digit_cases hd with he | he | he | he <;> rw [he] at h <;> omega
    rw [hdigit] at h
    have hpos : 0 < 2 ^ level := by positivity
    rw [hilbert, hdigit, ih (by omega), quadrant_three, pow_succ, Prod.mk.injEq]
    omega

/-- Consecutive positions are neighbours: within a copy of the smaller curve, or where the
end of one copy meets the beginning of the next. -/
theorem hilbert_adjacent (level : Nat) {pos : Nat} (h : pos % 4 ^ level + 1 < 4 ^ level) :
    Adjacent (hilbert level pos) (hilbert level (pos + 1)) := by
  induction level with
  | zero => simp at h
  | succ level ih =>
    have hpos : 0 < 4 ^ level := by positivity
    have hlt := Nat.mod_lt pos hpos
    have hd := Nat.mod_lt (pos / 4 ^ level) (show 0 < 4 by decide)
    have hsplit := Nat.mod_add_div pos (4 ^ level)
    rw [hilbert, hilbert]
    by_cases hinner : pos % 4 ^ level + 1 < 4 ^ level
    · have hdiv : (pos + 1) / 4 ^ level = pos / 4 ^ level := by
        rw [Nat.div_eq_iff hpos, Nat.mul_comm]
        omega
      rw [hdiv]
      exact quadrant_adjacent hd (hilbert_inside level pos) (hilbert_inside level (pos + 1)) (ih hinner)
    · have hlast : pos % 4 ^ level + 1 = 4 ^ level := by omega
      have hnext : pos + 1 = 4 ^ level * (pos / 4 ^ level + 1) := by
        rw [Nat.mul_add, mul_one]
        omega
      have hdiv : (pos + 1) / 4 ^ level = pos / 4 ^ level + 1 := by
        rw [hnext, Nat.mul_div_cancel_left _ hpos]
      have hmod : (pos + 1) % 4 ^ level = 0 := by
        rw [hnext, Nat.mul_mod_right]
      rw [mod_four_pow_succ, pow_succ] at h
      rw [hdiv, hilbert_end level hlast, hilbert_start level hmod]
      have hside : 0 < 2 ^ level := by positivity
      unfold Adjacent
      rcases digit_cases hd with he | he | he | he
      · have he' : (pos / 4 ^ level + 1) % 4 = 1 := by omega
        simp [he, he']
        omega
      · have he' : (pos / 4 ^ level + 1) % 4 = 2 := by omega
        simp [he, he']
        omega
      · have he' : (pos / 4 ^ level + 1) % 4 = 3 := by omega
        simp [he, he']
        omega
      · rw [he] at h
        omega

/-- The two bits that a round takes. -/
theorem round_digits {digit : Nat} (hd : digit < 4) (t : Nat) (ht : t % 4 = digit) :
    1 &&& (t / 2) = digit / 2 ∧ 1 &&& (t ^^^ digit / 2) = (digit + digit / 2) % 2 := by
  rw [Nat.one_and_eq_mod_two, Nat.one_and_eq_mod_two]
  refine ⟨by omega, ?_⟩
  have hxor := @Nat.xor_mod_two_eq_one t (digit / 2)
  rcases digit_cases hd with rfl | rfl | rfl | rfl <;> omega

/-- One round puts the point into its quadrant, without a subtraction below zero. -/
theorem round_eq {h : HilbertLoop} (hs : h.s < 2 ^ 16) (hx : h.x < h.s) (hy : h.y < h.s) :
    h.round = ⟨2 * h.s, h.t / 4, (quadrant h.s (h.t % 4) (h.x, h.y)).1, (quadrant h.s (h.t % 4) (h.x, h.y)).2⟩ := by
  obtain ⟨s, t, x, y⟩ := h
  dsimp only at hs hx hy
  have hd := Nat.mod_lt t (show 0 < 4 by decide)
  obtain ⟨hrx, hry⟩ := round_digits hd t rfl
  unfold HilbertLoop.round rot
  dsimp only
  rw [hrx, hry]
  have hone : subU32 s 1 = s - 1 := subU32_of_le (by omega) (by omega)
  have hflipx : subU32 (s - 1) x = s - 1 - x := subU32_of_le (by omega) (by omega)
  have hflipy : subU32 (s - 1) y = s - 1 - y := subU32_of_le (by omega) (by omega)
  rcases digit_cases hd with he | he | he | he <;> rw [he] <;>
    simp [hone, hflipx, hflipy, u32] <;> omega

/-- The variables of the loop after some rounds. -/
theorem rounds_eq (pos : Nat) {level : Nat} (hl : level ≤ 16) :
    HilbertLoop.round^[level] (.start pos) =
      ⟨2 ^ level, pos / 4 ^ level, (hilbert level pos).1, (hilbert level pos).2⟩ := by
  induction level with
  | zero => simp [HilbertLoop.start, hilbert]
  | succ level ih =>
    have hin := hilbert_inside level pos
    have hside : 2 ^ level < 2 ^ 16 := Nat.pow_lt_pow_right (by decide) (by omega)
    rw [Function.iterate_succ_apply', ih (by omega), round_eq hside hin.1 hin.2, hilbert]
    dsimp only
    rw [pow_succ', pow_succ, Nat.div_div_eq_div_mul]

/-- The loop ends with the first state whose side is not below the dimension. -/
theorem loop_eq {dim fuel level : Nat} {h : HilbertLoop} (hbelow : ∀ k < level, (HilbertLoop.round^[k] h).s < dim)
    (hend : ¬(HilbertLoop.round^[level] h).s < dim) (hfuel : level ≤ fuel) :
    HilbertLoop.loop dim fuel h = some (HilbertLoop.round^[level] h) := by
  induction level generalizing fuel h with
  | zero =>
    cases fuel with
    | zero => exact if_neg hend
    | succ fuel => exact if_neg hend
  | succ level ih =>
    obtain ⟨fuel, rfl⟩ : ∃ n, fuel = n + 1 := ⟨fuel - 1, by omega⟩
    have hfirst : h.s < dim := hbelow 0 (by omega)
    rw [HilbertLoop.loop, if_pos hfirst, Function.iterate_succ_apply]
    refine ih (fun k hk => ?_) ?_ (by omega)
    · rw [← Function.iterate_succ_apply]
      exact hbelow (k + 1) (by omega)
    · rw [← Function.iterate_succ_apply]
      exact hend

theorem iterate_next_hilbert (dim : Nat) {i : Nat} (hi : i < 2 ^ 32) : Sfc.next^[i] (.hilbert dim 0) = .hilbert dim i := by
  induction i with
  | zero => rfl
  | succ i ih => rw [Function.iterate_succ_apply', ih (by omega), Sfc.next, u32_of_lt hi]

/-- The least power of two that is not below the dimension, and how it is reached. -/
theorem exists_level_of_isLeast {dim side : Nat} (h : IsLeast {m | (∃ k, m = 2 ^ k) ∧ dim ≤ m} side) :
    ∃ level, side = 2 ^ level ∧ dim ≤ 2 ^ level ∧ ∀ k < level, 2 ^ k < dim := by
  obtain ⟨⟨⟨level, rfl⟩, hle⟩, hleast⟩ := h
  refine ⟨level, rfl, hle, fun k hk => ?_⟩
  by_contra hno
  have hmin : 2 ^ level ≤ 2 ^ k := hleast ⟨⟨k, rfl⟩, by omega⟩
  have hlt : 2 ^ k < 2 ^ level := Nat.pow_lt_pow_right (by decide) hk
  omega

/-- The image is enlarged to the power of two. -/
theorem enlarge_eq {dim level fuel : Nat} (hle : dim ≤ 2 ^ level) (hbelow : ∀ k < level, 2 ^ k < dim)
    (hlevel : level < 32) (hfuel : level ≤ fuel) : enlarge dim fuel 1 = some (2 ^ level) := by
  have main : ∀ j k fuel, j + k = level → j ≤ fuel → enlarge dim fuel (2 ^ k) = some (2 ^ level) := by
    intro j
    induction j with
    | zero =>
      intro k fuel hk _
      obtain rfl : k = level := by omega
      cases fuel with
      | zero => exact if_neg (by omega)
      | succ fuel => exact if_neg (by omega)
    | succ j ih =>
      intro k fuel hk hj
      obtain ⟨fuel, rfl⟩ : ∃ n, fuel = n + 1 := ⟨fuel - 1, by omega⟩
      have hdouble : u32 (2 ^ k * 2) = 2 ^ (k + 1) := by
        rw [← pow_succ]
        exact u32_of_lt (Nat.pow_lt_pow_right (by decide) (by omega))
      rw [enlarge, if_pos (hbelow k (by omega)), hdouble]
      exact ih (k + 1) fuel (by omega) (by omega)
  exact main level 0 fuel (by omega) hfuel

/-- The loop stops with the level that is large enough for the dimension. -/
theorem coordsAt_hilbert {dim level fuel pos : Nat} (hle : dim ≤ 2 ^ level) (hbelow : ∀ k < level, 2 ^ k < dim)
    (hlevel : level ≤ 16) (hfuel : 32 ≤ fuel) (hpos : pos < 2 ^ 32) :
    Sfc.coordsAt fuel (.hilbert dim 0) pos = some (hilbert level pos) := by
  have hrounds : ∀ k ≤ level, (HilbertLoop.round^[k] (.start pos)).s = 2 ^ k := by
    intro k hk
    rw [rounds_eq pos (by omega)]
  have hloop : HilbertLoop.loop dim fuel (.start pos) = some (HilbertLoop.round^[level] (.start pos)) := by
    refine loop_eq (fun k hk => ?_) ?_ (by omega)
    · rw [hrounds k (by omega)]
      exact hbelow k hk
    · rw [hrounds level (Nat.le_refl _)]
      omega
  rw [Sfc.coordsAt, iterate_next_hilbert dim hpos, Sfc.getCoords, hloop, rounds_eq pos hlevel]
  rfl

theorem two_pow_mul_self (level : Nat) : 2 ^ level * 2 ^ level = 4 ^ level := by rw [← Nat.mul_pow]

theorem fills_hilbert (level : Nat) : Fills (2 ^ level) (hilbert level) where
  inside i _ := hilbert_inside level i
  distinct i hi j hj he := by
    rw [two_pow_mul_self] at hi hj
    rw [← Nat.mod_eq_of_lt hi, ← Nat.mod_eq_of_lt hj]
    exact hilbert_injective level he

/-- For a domain of any size the Hilbert curve, although it is given the side length that the
domain needs, fills the square whose side is the next power of two: all points are in the
square, different and next to each other, and no subtraction goes below zero. -/
theorem hilbert_fills (n side : Nat) (hside : IsLeast {m | (∃ k, m = 2 ^ k) ∧ imageDim n ≤ m} side)
    (hsmall : side * side < 2 ^ 32) :
    IsLeast {m | n ≤ m * m} (imageDim n) ∧ (∀ fuel, 32 ≤ fuel → enlarge (imageDim n) fuel 1 = some side) ∧
    ∃ coords : Nat → Nat × Nat,
      (∀ fuel pos, 32 ≤ fuel → pos < side * side →
        Sfc.coordsAt fuel (.hilbert (imageDim n) 0) pos = some (coords pos)) ∧
      Fills side coords ∧ (∀ x < side, ∀ y < side, ∃ pos < side * side, coords pos = (x, y)) ∧
      (∀ pos, pos + 1 < side * side → Adjacent (coords pos) (coords (pos + 1))) ∧
      ∀ pos < side * side, ∀ k, (∀ j ≤ k, (HilbertLoop.round^[j] (.start pos)).s < imageDim n) →
        (HilbertLoop.round^[k] (.start pos)).x < (HilbertLoop.round^[k] (.start pos)).s ∧
        (HilbertLoop.round^[k] (.start pos)).y < (HilbertLoop.round^[k] (.start pos)).s := by
  obtain ⟨level, rfl, hle, hbelow⟩ := exists_level_of_isLeast hside
  have hlevel : level < 16 := (Nat.pow_lt_pow_iff_right (by decide)).mp (lt_of_mul_self_lt hsmall)
  refine ⟨isLeast_imageDim n, fun fuel hfuel => enlarge_eq hle hbelow (by omega) (by omega), hilbert level, ?_,
    fills_hilbert level, fun x hx y hy => (fills_hilbert level).covers hx hy, ?_, ?_⟩
  · intro fuel pos hfuel hpos
    exact coordsAt_hilbert hle hbelow (by omega) hfuel (by omega)
  · intro pos hpos
    rw [two_pow_mul_self] at hpos
    apply hilbert_adjacent
    rw [Nat.mod_eq_of_lt (by omega)]
    exact hpos
  · intro pos _ k hk
    have hlt : k < level := by
      by_contra hge
      have hend := hk level (by omega)
      rw [rounds_eq pos (by omega)] at hend
      dsimp only at hend
      omega
    rw [rounds_eq pos (by omega)]
    exact hilbert_inside k pos

theorem isLeast_side_five : IsLeast {m | (∃ k, m = 2 ^ k) ∧ imageDim 5 ≤ m} 4 := by
  have hdim : imageDim 5 = 3 := (isLeast_imageDim 5).unique ⟨by decide, fun m hm => by
    by_contra hlt
    have hle : m * m ≤ 2 * 2 := Nat.mul_self_le_mul_self (by omega)
    have hm : 5 ≤ m * m := hm
    omega⟩
  rw [hdim]
  refine ⟨⟨⟨2, rfl⟩, by decide⟩, ?_⟩
  rintro m ⟨⟨k, rfl⟩, hk⟩
  by_contra hlt
  have hsmall : k < 2 := (Nat.pow_lt_pow_iff_right (by decide)).mp (show 2 ^ k < 2 ^ 2 by omega)
  have hpow : 2 ^ k ≤ 2 ^ 1 := Nat.pow_le_pow_right (by decide) (by omega)
  omega

theorem hilbert_fills_five : ∃ coords, Fills 4 coords ∧
    Sfc.coordsAt 32 (.hilbert (imageDim 5) 0) 4 = some (coords 4) := by
  obtain ⟨-, -, coords, hcoords, hfills, -⟩ := hilbert_fills 5 4 isLeast_side_five (by decide)
  exact ⟨coords, hfills, hcoords 32 4 (by decide) (by decide)⟩

end LockDoc.Coverage
