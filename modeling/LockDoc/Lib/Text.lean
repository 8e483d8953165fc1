import Mathlib.Data.List.Basic

/-!
# Numbers and rows as text

Decimal numbers as lists of characters: what they are made of, and that they are read back.
Rows of columns with a delimiter between them.
-/

abbrev Text := List Char

namespace Text

/-- A number as `%d` and its relatives print it. -/
def ofInt (i : Int) : Text := (Int.repr i).toList

def ofNat (n : Nat) : Text := (Nat.repr n).toList

/-- A row of columns with a delimiter between them. -/
def row (delimiter : Char) (columns : List Text) : Text := [delimiter].intercalate columns ++ ['\n']

theorem row_cons_cons (delimiter : Char) (column next : Text) (columns : List Text) :
    row delimiter (column :: next :: columns) = (column ++ [delimiter]) ++ row delimiter (next :: columns) := by
  simp [row]

theorem isDigit_of_mem_ofNat {n : Nat} {c : Char} (h : c ∈ ofNat n) : c.isDigit = true := by
  rw [ofNat, Nat.toList_repr] at h
  exact Nat.isDigit_of_mem_toDigits (by decide) (by decide) h

theorem ofNat_ne_nil (n : Nat) : ofNat n ≠ [] := by
  rw [ofNat, Nat.toList_repr]
  exact Nat.toDigits_ne_nil

/-- The digits of a number have its value. -/
theorem ofDigitChars_ofNat (n : Nat) : Nat.ofDigitChars 10 (ofNat n) 0 = n := by
  rw [ofNat, Nat.toList_repr, Nat.ofDigitChars_ten_toDigits]

theorem ofNat_injective {m n : Nat} (h : ofNat m = ofNat n) : m = n := by
  rw [← ofDigitChars_ofNat m, h, ofDigitChars_ofNat]

end Text
