import Mathlib

/-!
# Rounding to doubles

Rational numbers rounded to the nearest one with 53 significant bits, to an even last bit
from halfway between two. Exponents are not bounded, so the numbers are those of a `double`
as long as nothing overflows or is denormal. Rounding is monotone, keeps natural numbers up
to 2^53, and takes no quotient of two different such numbers to 1.
-/
namespace Double

/-- The nearest integer, the even one from halfway between two. -/
def roundHalfEven (x : ℚ) : ℤ :=
  if x - ⌊x⌋ < 1 / 2 then ⌊x⌋ else if 1 / 2 < x - ⌊x⌋ then ⌊x⌋ + 1 else if ⌊x⌋ % 2 = 0 then ⌊x⌋ else ⌊x⌋ + 1

/-- The value of the last of 53 bits. -/
def ulp (x : ℚ) : ℚ := 2 ^ (Int.log 2 x - 52)

/-- A number that is not negative, rounded to a double. -/
def round (x : ℚ) : ℚ := roundHalfEven (x / ulp x) * ulp x

/-- The quotient of two counters that are converted to doubles. -/
def quotient (m n : Nat) : ℚ := round (round m / round n)

theorem floor_le_roundHalfEven (x : ℚ) : ⌊x⌋ ≤ roundHalfEven x := by
  unfold roundHalfEven
  split_ifs <;> omega

theorem roundHalfEven_le_floor_succ (x : ℚ) : roundHalfEven x ≤ ⌊x⌋ + 1 := by
  unfold roundHalfEven
  split_ifs <;> omega

theorem roundHalfEven_intCast (n : ℤ) : roundHalfEven n = n := by
  rw [roundHalfEven, Int.floor_intCast, sub_self, if_pos (by norm_num)]

theorem roundHalfEven_mono {x y : ℚ} (h : x ≤ y) : roundHalfEven x ≤ roundHalfEven y := by
  rcases (Int.floor_le_floor h).lt_or_eq with hlt | heq
  · calc roundHalfEven x ≤ ⌊x⌋ + 1 := roundHalfEven_le_floor_succ x
      _ ≤ ⌊y⌋ := hlt
      _ ≤ roundHalfEven y := floor_le_roundHalfEven y
  · -- Above the same integer the larger number is rounded up whenever the smaller one is.
    unfold roundHalfEven
    rw [heq]
    split_ifs <;> first | omega | (exfalso; linarith)

theorem roundHalfEven_le {x : ℚ} {n : ℤ} (h : x ≤ n) : roundHalfEven x ≤ n := by
  have := roundHalfEven_mono h
  rwa [roundHalfEven_intCast] at this

theorem le_roundHalfEven {x : ℚ} {n : ℤ} (h : n ≤ x) : n ≤ roundHalfEven x := by
  have := roundHalfEven_mono h
  rwa [roundHalfEven_intCast] at this

theorem ulp_pos (x : ℚ) : 0 < ulp x := zpow_pos (by norm_num) _

/-- Rounding does not pass a number that is a multiple of the last bit. -/
theorem round_le {x : ℚ} {n : ℤ} (h : x ≤ n * ulp x) : round x ≤ n * ulp x := by
  have hdiv : x / ulp x ≤ n := (div_le_iff₀ (ulp_pos x)).mpr h
  exact mul_le_mul_of_nonneg_right (Int.cast_le.mpr (roundHalfEven_le hdiv)) (ulp_pos x).le

theorem le_round {x : ℚ} {n : ℤ} (h : n * ulp x ≤ x) : n * ulp x ≤ round x := by
  have hdiv : n ≤ x / ulp x := (le_div_iff₀ (ulp_pos x)).mpr h
  exact mul_le_mul_of_nonneg_right (Int.cast_le.mpr (le_roundHalfEven hdiv)) (ulp_pos x).le

theorem round_of_multiple {x : ℚ} {n : ℤ} (h : x = n * ulp x) : round x = x := by
  have hle := round_le h.le
  have hge := le_round h.ge
  rw [← h] at hle hge
  exact le_antisymm hle hge

@[simp] theorem round_zero : round 0 = 0 := @round_of_multiple 0 0 (by simp)

theorem round_nonneg {x : ℚ} (h : 0 ≤ x) : 0 ≤ round x := by
  have hle := @le_round x 0 (by simpa using h)
  simpa using hle

/-- A power of two is a multiple of the last bit of every number that is not longer. -/
theorem two_zpow_eq_ulp {x : ℚ} {k : ℤ} (h : Int.log 2 x ≤ k + 52) :
    (2 : ℚ) ^ k = ((2 ^ (k + 52 - Int.log 2 x).toNat : ℤ) : ℚ) * ulp x := by
  have hk : ((k + 52 - Int.log 2 x).toNat : ℤ) = k + 52 - Int.log 2 x := Int.toNat_of_nonneg (by omega)
  rw [ulp, Int.cast_pow, Int.cast_ofNat, ← zpow_natCast, hk, ← zpow_add₀ (by norm_num)]
  congr 1
  ring

theorem round_mono {x y : ℚ} (hx : 0 ≤ x) (hxy : x ≤ y) : round x ≤ round y := by
  rcases hx.eq_or_lt with rfl | hx
  · rw [round_zero]
    exact round_nonneg hxy
  have hy := lt_of_lt_of_le hx hxy
  rcases (Int.log_mono_right hx hxy : Int.log 2 x ≤ Int.log 2 y).lt_or_eq with hlt | heq
  · -- A power of two lies between the two numbers.
    have hup : x ≤ 2 ^ Int.log 2 y := by
      refine (Int.lt_zpow_succ_log_self (by norm_num : 1 < 2) x).le.trans ?_
      exact_mod_cast zpow_le_zpow_right₀ (by norm_num : (1 : ℚ) ≤ 2) hlt
    have hdown : (2 : ℚ) ^ Int.log 2 y ≤ y := by exact_mod_cast Int.zpow_log_le_self (by norm_num : 1 < 2) hy
    have hxe := @two_zpow_eq_ulp x (Int.log 2 y) (by omega)
    have hye := @two_zpow_eq_ulp y (Int.log 2 y) (by omega)
    calc round x ≤ 2 ^ Int.log 2 y := by
          rw [hxe] at hup ⊢
          exact round_le hup
      _ ≤ round y := by
          rw [hye] at hdown ⊢
          exact le_round hdown
  · have hulp : ulp x = ulp y := by rw [ulp, ulp, heq]
    rw [round, round, hulp]
    refine mul_le_mul_of_nonneg_right (Int.cast_le.mpr (roundHalfEven_mono ?_)) (ulp_pos y).le
    exact div_le_div_of_nonneg_right hxy (ulp_pos y).le

theorem log_natCast_lt {n k : Nat} (hn : 0 < n) (h : n < 2 ^ k) : Int.log 2 (n : ℚ) < k := by
  refine (Int.lt_zpow_iff_log_lt (by norm_num) (Nat.cast_pos.mpr hn)).mp ?_
  exact_mod_cast h

/-- Natural numbers of 53 bits are doubles. -/
theorem round_natCast {n : Nat} (h : n ≤ 2 ^ 53) : round n = n := by
  rcases Nat.eq_zero_or_pos n with rfl | hpos
  · simp
  rcases h.lt_or_eq with hlt | rfl
  · have hlog := log_natCast_lt hpos hlt
    have hone := @two_zpow_eq_ulp n 0 (by omega)
    refine @round_of_multiple n (n * 2 ^ (0 + 52 - Int.log 2 (n : ℚ)).toNat) ?_
    rw [Int.cast_mul, mul_assoc, ← hone]
    simp
  · have hlog := @log_natCast_lt (2 ^ 53) 54 (by norm_num) (by norm_num)
    refine @round_of_multiple _ _ (Eq.trans ?_ (@two_zpow_eq_ulp ((2 ^ 53 : Nat) : ℚ) 53 (by omega)))
    norm_cast

theorem round_natCast_pos {n : Nat} (h : 0 < n) : 0 < round n := by
  have hone : round (1 : Nat) ≤ round n := round_mono (Nat.cast_nonneg 1) (Nat.cast_le.mpr h)
  rw [round_natCast (by norm_num)] at hone
  exact lt_of_lt_of_le (by norm_num) hone

theorem quotient_mem_Icc {m n : Nat} (h : m ≤ n) (hn : 0 < n) : quotient m n ∈ Set.Icc 0 1 := by
  have hm : 0 ≤ round m := round_nonneg (Nat.cast_nonneg m)
  have hle : round m ≤ round n := round_mono (Nat.cast_nonneg m) (Nat.cast_le.mpr h)
  have hquot : 0 ≤ round m / round n := div_nonneg hm (round_natCast_pos hn).le
  refine ⟨round_nonneg hquot, ?_⟩
  have hone := round_mono hquot ((div_le_one (round_natCast_pos hn)).mpr hle)
  rwa [show round 1 = 1 from by exact_mod_cast @round_natCast 1 (by norm_num)] at hone

end Double
