import LockDoc.Convert.Columns

/-!
# Hexadecimal numbers

A pointer is printed with `hex` and `showbase`, and read back with `stoull` in base 16.
-/
namespace LockDoc.Convert

open Hypothesizer (isspace)

/-- A number as a stream with `hex` and `showbase` prints it; zero has no prefix. -/
def showHex (n : Nat) : List Char := if n = 0 then ['0'] else '0' :: 'x' :: Nat.toDigits 16 n

theorem digitOf_digitChar {d : Nat} (h : d < 16) : digitOf d.digitChar = some d := by
  revert h
  revert d
  decide

/-- The digits of a number in base 16: all of them are digits, and they have its value. -/
theorem toDigits_hex (n : Nat) :
    (∀ c ∈ Nat.toDigits 16 n, isDigitIn 16 c = true) ∧ valueIn 16 (Nat.toDigits 16 n) = n := by
  induction n using Nat.strongRecOn with
  | ind n ih =>
    by_cases hn : n < 16
    · have hd := digitOf_digitChar hn
      rw [Nat.toDigits_of_lt_base hn]
      simp [isDigitIn, valueIn, hd, hn]
    · have hd := digitOf_digitChar (Nat.mod_lt n (by decide : 16 > 0))
      obtain ⟨hall, hval⟩ := ih (n / 16) (Nat.div_lt_self (by omega) (by decide))
      rw [Nat.toDigits_of_base_le (by decide) (by omega)]
      constructor
      · intro c hc
        rcases List.mem_append.mp hc with hc | hc
        · exact hall c hc
        · rw [List.mem_singleton] at hc
          subst hc
          simp [isDigitIn, hd, Nat.mod_lt]
      · simp only [valueIn] at hval
        simp only [valueIn, List.foldl_append, hval, List.foldl_cons, List.foldl_nil, hd, Option.getD_some]
        omega

theorem showHex_no_comma (n : Nat) : ',' ∉ showHex n := by
  unfold showHex
  split
  · decide
  · intro h
    rcases List.mem_cons.mp h with h | h
    · exact absurd h (by decide)
    · rcases List.mem_cons.mp h with h | h
      · exact absurd h (by decide)
      · exact absurd ((toDigits_hex n).1 _ h) (by decide)

theorem showHex_ne_nil (n : Nat) : showHex n ≠ [] := by
  unfold showHex
  split <;> simp

theorem scanNumber_showHex (n : Nat) : scanNumber 16 (showHex n) = some (false, n) := by
  obtain ⟨hall, hval⟩ := toDigits_hex n
  by_cases hn : n = 0
  · subst hn
    decide
  · obtain ⟨c, cs, hcs⟩ := List.exists_cons_of_ne_nil (Nat.toDigits_ne_nil (n := n) (b := 16))
    have htake : (Nat.toDigits 16 n).takeWhile (isDigitIn 16) = Nat.toDigits 16 n :=
      List.takeWhile_eq_self_iff.mpr hall
    have hc : isDigitIn 16 c = true := hall c (by simp [hcs])
    rw [hcs] at htake hval
    have hspace : isspace '0' = false := by decide
    simp [scanNumber, showHex, hn, hcs, hspace, hc, htake, hval]

/-- A pointer is read back, unless it does not fit. -/
theorem stoull_showHex (n : Nat) :
    stoull 16 (String.ofList (showHex n)) = if 2 ^ 64 ≤ n then .error .outOfRange else .ok n := by
  simp [stoull, scanNumber_showHex]

end LockDoc.Convert
