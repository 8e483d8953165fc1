import Mathlib

/-!
# Space-filling curves

`sfctool.cc` draws a list of strings along a curve through a square. A curve hands out the
coordinates of its current position and moves on. The coordinates are `unsigned`.
-/
namespace LockDoc.Coverage

/-- Reduction to 32 bits. -/
def u32 (n : Nat) : Nat := n % 2 ^ 32

/-- Subtraction of `unsigned` values. -/
def subU32 (a b : Nat) : Nat := u32 (a + 2 ^ 32 - b)

theorem u32_of_lt {n : Nat} (h : n < 2 ^ 32) : u32 n = n := Nat.mod_eq_of_lt h

theorem subU32_of_le {a b : Nat} (hle : b ≤ a) (h : a < 2 ^ 32) : subU32 a b = a - b := by
  unfold subU32 u32
  omega

/-- `SFC_Spiral` without its side length. -/
structure Spiral where
  x : Nat
  y : Nat
  state : Nat
  nsteps : Nat
  step : Nat
  deriving DecidableEq, Repr

namespace Spiral

def reset (dim : Nat) : Spiral := ⟨dim / 2, dim / 2, 0, 1, 0⟩

/-- The `switch` over the direction. -/
def move (s : Spiral) : Spiral :=
  if s.state = 0 then { s with y := subU32 s.y 1 }
  else if s.state = 1 then { s with x := subU32 s.x 1 }
  else if s.state = 2 then { s with y := u32 (s.y + 1) }
  else if s.state = 3 then { s with x := u32 (s.x + 1) }
  else s

/-- The end of a straight line: the next one begins, every second one is longer. -/
def turn (s : Spiral) : Spiral :=
  if s.step = s.nsteps then
    if s.state + 1 = 2 then { s with state := 2, step := 0, nsteps := u32 (s.nsteps + 1) }
    else if s.state + 1 = 4 then { s with state := 0, step := 0, nsteps := u32 (s.nsteps + 1) }
    else { s with state := s.state + 1, step := 0 }
  else s

def next (s : Spiral) : Spiral := turn { s.move with step := u32 (s.step + 1) }

end Spiral

/-- The variables of the loop of `SFC_Hilbert::get_coords`. -/
structure HilbertLoop where
  s : Nat
  t : Nat
  x : Nat
  y : Nat
  deriving DecidableEq, Repr

/-- `rot`, on both coordinates. -/
def rot (n x y rx ry : Nat) : Nat × Nat :=
  if ry = 0 then
    if rx = 1 then (subU32 (subU32 n 1) y, subU32 (subU32 n 1) x) else (y, x)
  else (x, y)

namespace HilbertLoop

def start (pos : Nat) : HilbertLoop := ⟨1, pos, 0, 0⟩

/-- The body of the loop. -/
def round (h : HilbertLoop) : HilbertLoop :=
  let rx := 1 &&& (h.t / 2)
  let ry := 1 &&& (h.t ^^^ rx)
  let xy := rot h.s h.x h.y rx ry
  ⟨u32 (h.s * 2), h.t / 4, u32 (xy.1 + h.s * rx), u32 (xy.2 + h.s * ry)⟩

/-- The loop, with a bound on the number of rounds. -/
def loop (dim : Nat) : Nat → HilbertLoop → Option HilbertLoop
  | 0, h => if h.s < dim then none else some h
  | fuel + 1, h => if h.s < dim then loop dim fuel h.round else some h

end HilbertLoop

/-- The curves. -/
inductive Sfc where
  | lines (dim pos : Nat)
  | spiral (dim : Nat) (s : Spiral)
  | hilbert (dim pos : Nat)
  deriving DecidableEq, Repr

namespace Sfc

def getCoords (fuel : Nat) : Sfc → Option (Nat × Nat)
  | .lines dim pos => some (pos % dim, pos / dim)
  | .spiral _ s => some (s.x, s.y)
  | .hilbert dim pos => (HilbertLoop.loop dim fuel (.start pos)).map (fun h => (h.x, h.y))

def next : Sfc → Sfc
  | .lines dim pos => .lines dim (u32 (pos + 1))
  | .spiral dim s => .spiral dim s.next
  | .hilbert dim pos => .hilbert dim (u32 (pos + 1))

/-- The coordinates of the `i`-th position, when coordinates and moves alternate. -/
def coordsAt (fuel : Nat) (sfc : Sfc) (i : Nat) : Option (Nat × Nat) := (next^[i] sfc).getCoords fuel

end Sfc

/-- `std::ceil(std::sqrt(n))`. -/
def imageDim (n : Nat) : Nat := if n.sqrt * n.sqrt = n then n.sqrt else n.sqrt + 1

/-- The side length is the least one whose square holds the domain. -/
theorem isLeast_imageDim (n : Nat) : IsLeast {m | n ≤ m * m} (imageDim n) := by
  unfold imageDim
  split
  · rename_i hsquare
    refine ⟨Nat.le_of_eq hsquare.symm, fun m hm => ?_⟩
    exact Nat.mul_self_le_mul_self_iff.mp (Nat.le_trans (Nat.le_of_eq hsquare) hm)
  · rename_i hsquare
    refine ⟨Nat.le_of_lt (Nat.lt_succ_sqrt n), fun m hm => ?_⟩
    have hm : n ≤ m * m := hm
    have hle := Nat.sqrt_le n
    by_contra hlt
    have hmul : m * m ≤ n.sqrt * n.sqrt := Nat.mul_self_le_mul_self (by omega)
    omega

/-- The loop that enlarges the image for the Hilbert curve. -/
def enlarge (imageDim : Nat) : Nat → Nat → Option Nat
  | 0, x => if x < imageDim then none else some x
  | fuel + 1, x => if x < imageDim then enlarge imageDim fuel (u32 (x * 2)) else some x

/-- The first positions of a curve fill a square: they lie in it, and no two coincide. -/
structure Fills (side : Nat) (coords : Nat → Nat × Nat) : Prop where
  inside : ∀ i < side * side, (coords i).1 < side ∧ (coords i).2 < side
  distinct : ∀ i < side * side, ∀ j < side * side, coords i = coords j → i = j

/-- A curve that fills a square hits every point of it. -/
theorem Fills.covers {side : Nat} {coords : Nat → Nat × Nat} (h : Fills side coords) {x y : Nat} (hx : x < side)
    (hy : y < side) : ∃ i < side * side, coords i = (x, y) := by
  have hmaps : ∀ i ∈ Finset.range (side * side), coords i ∈ Finset.range side ×ˢ Finset.range side := by
    intro i hi
    have hin := h.inside i (Finset.mem_range.mp hi)
    exact Finset.mem_product.mpr ⟨Finset.mem_range.mpr hin.1, Finset.mem_range.mpr hin.2⟩
  have hinj : Set.InjOn coords (Finset.range (side * side)) := by
    intro i hi j hj he
    exact h.distinct i (Finset.mem_range.mp hi) j (Finset.mem_range.mp hj) he
  have hcard : (Finset.range side ×ˢ Finset.range side).card ≤ (Finset.range (side * side)).card := by
    rw [Finset.card_product, Finset.card_range, Finset.card_range]
  have hsurj := Finset.surjOn_of_injOn_of_card_le coords hmaps hinj hcard
  have hmem : (x, y) ∈ Finset.range side ×ˢ Finset.range side :=
    Finset.mem_product.mpr ⟨Finset.mem_range.mpr hx, Finset.mem_range.mpr hy⟩
  obtain ⟨i, hi, he⟩ := hsurj (Finset.mem_coe.mpr hmem)
  exact ⟨i, Finset.mem_range.mp hi, he⟩

/-- The lines of a square, one after the other. -/
theorem fills_lines (side : Nat) : Fills side (fun i => (i % side, i / side)) where
  inside i hi := by
    have hpos : 0 < side := by
      by_contra hz
      simp [Nat.eq_zero_of_not_pos hz] at hi
    exact ⟨Nat.mod_lt i hpos, Nat.div_lt_of_lt_mul hi⟩
  distinct i _ j _ he := by
    obtain ⟨hmod, hdiv⟩ := Prod.mk.inj he
    rw [← Nat.mod_add_div i side, ← Nat.mod_add_div j side, hmod, hdiv]

end LockDoc.Coverage
