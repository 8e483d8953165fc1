import Mathlib.Data.List.Basic
import Mathlib.Order.Basic

/-!
# Sets ordered by a key

A list of elements in the strict order of a key, as a set whose comparison looks at a part of
its elements only: insertion keeps an element with the same key, a search finds the element
with a key or the last one up to it, and an element can be taken out to make room for another.
-/
namespace KeyedSet

variable {α : Type} (key : α → Nat)

/-- `insert`: an equal element stays. -/
def insert (x : α) : List α → List α
  | [] => [x]
  | y :: ys => if key x < key y then x :: y :: ys else if key y < key x then y :: insert x ys else y :: ys

/-- `find`. -/
def find? (k : Nat) (xs : List α) : Option α := xs.find? (fun y => key y = k)

/-- `erase`, by the key of the element. -/
def erase (k : Nat) (xs : List α) : List α := xs.filter (fun y => key y ≠ k)

/-- The element before `upper_bound`. -/
def lastUpTo (k : Nat) (xs : List α) : Option α := (xs.takeWhile (fun y => key y ≤ k)).getLast?

def Sorted (xs : List α) : Prop := xs.Pairwise (fun x y => key x < key y)

variable {key}

theorem mem_erase {k : Nat} {xs : List α} {y : α} : y ∈ erase key k xs ↔ y ∈ xs ∧ key y ≠ k := by simp [erase]

theorem mem_of_lastUpTo {k : Nat} {xs : List α} {y : α} (h : lastUpTo key k xs = some y) : y ∈ xs :=
  (List.takeWhile_sublist _).subset (List.mem_of_getLast? h)

theorem find?_some {k : Nat} {xs : List α} {y : α} (h : find? key k xs = some y) : y ∈ xs ∧ key y = k :=
  ⟨List.mem_of_find?_eq_some h, by simpa using List.find?_some h⟩

theorem find?_none {k : Nat} {xs : List α} (h : find? key k xs = none) : ∀ y ∈ xs, key y ≠ k := by
  simpa [find?] using h

/-- An element with a new key is added. -/
theorem mem_insert {x : α} {xs : List α} (h : ∀ y ∈ xs, key y ≠ key x) {y : α} :
    y ∈ insert key x xs ↔ y = x ∨ y ∈ xs := by
  induction xs with
  | nil => simp [insert]
  | cons z zs ih =>
    have ih := ih fun y hy => h y (List.mem_cons_of_mem z hy)
    have hz := h z List.mem_cons_self
    unfold insert
    split
    · simp
    · rw [if_pos (by omega), List.mem_cons, ih, List.mem_cons]
      tauto

/-- Nothing else gets in. -/
theorem mem_of_mem_insert {x y : α} {xs : List α} (h : y ∈ insert key x xs) : y = x ∨ y ∈ xs := by
  induction xs with
  | nil => simpa [insert] using h
  | cons z zs ih =>
    unfold insert at h
    split at h
    · simpa using h
    · split at h
      · rcases List.mem_cons.mp h with rfl | h
        · simp
        · exact (ih h).imp_right (List.mem_cons_of_mem z)
      · exact .inr h

theorem Sorted.insert {xs : List α} (h : Sorted key xs) (x : α) : Sorted key (insert key x xs) := by
  induction xs with
  | nil => simp [KeyedSet.insert, Sorted]
  | cons z zs ih =>
    have hz := List.pairwise_cons.mp h
    unfold KeyedSet.insert
    split
    · rename_i hlt
      refine List.pairwise_cons.mpr ⟨fun y hy => ?_, h⟩
      rcases List.mem_cons.mp hy with rfl | hy
      · exact hlt
      · exact Nat.lt_trans hlt (hz.1 y hy)
    · split
      · rename_i hlt
        refine List.pairwise_cons.mpr ⟨fun y hy => ?_, ih hz.2⟩
        rcases mem_of_mem_insert hy with rfl | hy
        · exact hlt
        · exact hz.1 y hy
      · exact h

theorem Sorted.erase {xs : List α} (h : Sorted key xs) (k : Nat) : Sorted key (erase key k xs) :=
  h.sublist List.filter_sublist

/-- The key determines the element. -/
theorem Sorted.unique {xs : List α} (h : Sorted key xs) {x y : α} (hx : x ∈ xs) (hy : y ∈ xs) (he : key x = key y) :
    x = y := by
  induction xs with
  | nil => cases hx
  | cons z zs ih =>
    have hz := List.pairwise_cons.mp h
    rcases List.mem_cons.mp hx with hxz | hxz <;> rcases List.mem_cons.mp hy with hyz | hyz
    · rw [hxz, hyz]
    · have := hz.1 y hyz
      rw [hxz] at he
      omega
    · have := hz.1 x hxz
      rw [hyz] at he
      omega
    · exact ih hz.2 hxz hyz

end KeyedSet
