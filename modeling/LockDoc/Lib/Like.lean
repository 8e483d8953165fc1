import Mathlib.Data.List.Infix

/-!
# Patterns of `LIKE`

`%` stands for any text and `_` for one character; a backslash takes the next character as it is.
-/
namespace Like

inductive Item where
  | any
  | one
  | lit (c : Char)
  deriving DecidableEq, Repr

/-- The items of a pattern as it is written. -/
def parse : List Char → List Item
  | [] => []
  | '\\' :: c :: rest => .lit c :: parse rest
  | '%' :: rest => .any :: parse rest
  | '_' :: rest => .one :: parse rest
  | c :: rest => .lit c :: parse rest

/-- A whole text matches a pattern. -/
def Matches : List Item → List Char → Bool
  | [], t => t = []
  | .any :: ps, t => t.tails.any (Matches ps)
  | .one :: _, [] => false
  | .one :: ps, _ :: t => Matches ps t
  | .lit _ :: _, [] => false
  | .lit c :: ps, d :: t => c = d && Matches ps t

@[simp] theorem matches_any {ps : List Item} {t : List Char} :
    Matches (.any :: ps) t = true ↔ ∃ s, s <:+ t ∧ Matches ps s = true := by
  simp [Matches, List.mem_tails]

/-- Literal text takes itself off the front. -/
theorem matches_lits {cs : List Char} {ps : List Item} {t : List Char} :
    Matches (cs.map .lit ++ ps) t = true ↔ ∃ s, t = cs ++ s ∧ Matches ps s = true := by
  induction cs generalizing t with
  | nil => simp
  | cons c cs ih =>
    cases t with
    | nil => simp [Matches]
    | cons d t =>
      simp only [List.map_cons, List.cons_append, Matches, Bool.and_eq_true, decide_eq_true_eq, ih, List.cons.injEq]
      constructor
      · rintro ⟨rfl, s, rfl, h⟩
        exact ⟨s, ⟨rfl, rfl⟩, h⟩
      · rintro ⟨s, ⟨rfl, rfl⟩, h⟩
        exact ⟨rfl, s, rfl, h⟩

/-- `%text%` matches what contains the text. -/
theorem matches_infix {cs t : List Char} : Matches (.any :: (cs.map .lit ++ [.any])) t = true ↔ cs <:+: t := by
  simp only [matches_any, matches_lits]
  constructor
  · rintro ⟨-, ⟨front, rfl⟩, s, rfl, -⟩
    exact ⟨front, s, by simp⟩
  · rintro ⟨front, s, rfl⟩
    exact ⟨cs ++ s, ⟨front, by simp⟩, s, rfl, [], ⟨s, by simp⟩, rfl⟩

/-- `%text` matches what ends with the text. -/
theorem matches_suffix {cs t : List Char} : Matches (.any :: (cs.map .lit ++ [])) t = true ↔ cs <:+ t := by
  simp only [matches_any, matches_lits]
  constructor
  · rintro ⟨-, ⟨front, rfl⟩, s, rfl, hs⟩
    simp only [Matches, decide_eq_true_eq] at hs
    subst hs
    exact ⟨front, by simp⟩
  · rintro ⟨front, rfl⟩
    exact ⟨cs, ⟨front, rfl⟩, [], by simp, by simp [Matches]⟩

end Like
