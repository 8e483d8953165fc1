import LockDoc.Lib.Worklist
import LockDoc.Coverage.Hilbert

/-!
# Colouring the image

`sfctool.cc` paints the image with the default colour, takes one colour for each map, first
for the off-maps and then for the on-maps, and draws the strings of the domain along the
curve. Command line, maps and inputs are as the option parser and the files hand them over:
options of one kind in their order, files by their lines, colours by their components.
-/
namespace LockDoc.Coverage

open Worklist

structure Color where
  r : UInt8
  g : UInt8
  b : UInt8
  deriving DecidableEq, Repr

inductive MapKind where
  | off
  | on
  deriving DecidableEq, Repr

/-- `--off-map` or `--on-map`, with the `--color` after it. -/
structure MapOption where
  kind : MapKind
  strings : List String
  color : Color
  deriving DecidableEq, Repr

inductive CurveType where
  | lines
  | spiral
  | hilbert
  deriving DecidableEq, Repr

/-- `curveType` is the argument of the option `--curve-type`, if it is there. -/
structure CommandLine where
  maps : List MapOption
  defaultColor : Color
  curveType : Option String
  domainStrings : List String
  input : List String
  deriving DecidableEq, Repr

/-- Why no image is written. A coordinate outside the image is undefined behaviour. -/
inductive Failure where
  | outOfFuel
  | notImplemented
  | moreMaps
  | moreColors
  | outside
  deriving DecidableEq, Repr

/-- `off_map` and `on_map`. -/
abbrev ColorMap := String → Option Color

def loadmap (strings : List String) (m : ColorMap) (color : Color) : ColorMap :=
  strings.foldl (fun m buf => Function.update m buf (some color)) m

/-- The loop over the maps of one kind, which takes the next `--color` for each. -/
def loadMaps : List (List String) → List Color → ColorMap → Except Failure (ColorMap × List Color)
  | [], colors, m => .ok (m, colors)
  | _ :: _, [], _ => .error .moreMaps
  | strings :: maps, color :: colors, m => loadMaps maps colors (loadmap strings m color)

structure Image where
  dim : Nat
  pixel : Nat × Nat → Color

/-- `image[y][x] = color`. -/
def Image.set (image : Image) (p : Nat × Nat) (color : Color) : Except Failure Image :=
  if p.1 < image.dim ∧ p.2 < image.dim then .ok { image with pixel := Function.update image.pixel p color }
  else .error .outside

namespace CommandLine

/-- `options[OFF_MAP]` and `options[ON_MAP]`. -/
def options (cl : CommandLine) (kind : MapKind) : List (List String) :=
  (cl.maps.filter (fun m => m.kind = kind)).map MapOption.strings

/-- `options[COLOR]`. -/
def colors (cl : CommandLine) : List Color := cl.maps.map MapOption.color

/-- The curve that the argument names. The usage text also lists `z`, for which there is none. -/
def curve (cl : CommandLine) : Except Failure CurveType :=
  match cl.curveType with
  | none => .ok .lines
  | some s =>
    if s = "lines" then .ok .lines
    else if s = "spiral" then .ok .spiral
    else if s = "hilbert" then .ok .hilbert
    else .error .notImplemented

/-- `sfc`. -/
def sfc (cl : CommandLine) (curve : CurveType) : Sfc :=
  let dim := imageDim cl.domainStrings.length
  match curve with
  | .lines => .lines dim 0
  | .spiral => .spiral dim (.reset dim)
  | .hilbert => .hilbert dim 0

/-- `image_dim` when the image is made. -/
def imageSide (cl : CommandLine) (curve : CurveType) (fuel : Nat) : Except Failure Nat :=
  let dim := imageDim cl.domainStrings.length
  match curve with
  | .lines | .spiral => .ok dim
  | .hilbert => (enlarge dim fuel 1).elim (.error .outOfFuel) .ok

/-- The pixel that the image is painted with. -/
def background (cl : CommandLine) : Color := ⟨cl.defaultColor.r, cl.defaultColor.b, cl.defaultColor.g⟩

/-- Which map decides on a string. -/
def kindOf (cl : CommandLine) (s : String) : MapKind := if cl.input.contains s then .on else .off

/-- The drawing loop, from a counter and a position of the curve on. -/
def draw (cl : CommandLine) (maps : MapKind → ColorMap) (coordsFuel : Nat) :
    Nat → Nat → Sfc → Image → Except Failure Image
  | fuel, i, sfc, image =>
    match cl.domainStrings[i]? with
    | none => .ok image
    | some s =>
      match fuel with
      | 0 => .error .outOfFuel
      | fuel + 1 => do
        let p ← (sfc.getCoords coordsFuel).elim (.error .outOfFuel) .ok
        let image ← (maps (cl.kindOf s) s).elim (.ok image) (image.set p)
        draw cl maps coordsFuel fuel (u32 (i + 1)) sfc.next image

def main (fuel : Nat) (cl : CommandLine) : Except Failure Image := do
  let curve ← cl.curve
  let dim ← cl.imageSide curve fuel
  let image : Image := ⟨dim, fun _ => cl.background⟩
  let (offMap, colors) ← loadMaps (cl.options .off) cl.colors (fun _ => none)
  let (onMap, colors) ← loadMaps (cl.options .on) colors (fun _ => none)
  if colors ≠ [] then .error .moreColors
  else cl.draw (fun kind => match kind with | .off => offMap | .on => onMap) fuel fuel 0 (cl.sfc curve) image

end CommandLine

/-- The colour of the last list that contains the string. -/
def lastColor (maps : List (List String × Color)) (s : String) : Option Color :=
  ((maps.filter (fun m => m.1.contains s)).getLast?).map Prod.snd

theorem lastColor_cons (m : List String × Color) (maps : List (List String × Color)) (s : String) :
    lastColor (m :: maps) s = (lastColor maps s).or (if s ∈ m.1 then some m.2 else none) := by
  unfold lastColor
  by_cases hs : s ∈ m.1
  · rw [List.filter_cons_of_pos (by simpa using hs), List.getLast?_cons, if_pos hs]
    cases (maps.filter (fun m => m.1.contains s)).getLast? <;> rfl
  · rw [List.filter_cons_of_neg (by simpa using hs), if_neg hs, Option.or_none]

theorem loadmap_apply (strings : List String) (m : ColorMap) (color : Color) (s : String) :
    loadmap strings m color s = if s ∈ strings then some color else m s := by
  unfold loadmap
  induction strings generalizing m with
  | nil => simp
  | cons buf strings ih =>
    rw [List.foldl_cons, ih]
    by_cases hs : s = buf
    · subst hs
      simp
    · simp [hs]

/-- Later maps override earlier ones. -/
theorem loadMaps_ok {maps : List (List String)} {colors : List Color} (h : maps.length ≤ colors.length) (m : ColorMap) :
    ∃ m', loadMaps maps colors m = .ok (m', colors.drop maps.length) ∧
      ∀ s, m' s = (lastColor (maps.zip colors) s).or (m s) := by
  induction maps generalizing colors m with
  | nil => exact ⟨m, rfl, fun s => rfl⟩
  | cons strings maps ih =>
    cases colors with
    | nil => simp at h
    | cons color colors =>
      obtain ⟨m', hm', hlast⟩ := ih (by simpa using h) (loadmap strings m color)
      refine ⟨m', hm', fun s => ?_⟩
      rw [hlast, List.zip_cons_cons, lastColor_cons, loadmap_apply, Option.or_assoc]
      by_cases hs : s ∈ strings <;> simp [hs]

/-- The last list with the string stands at this place. -/
def LastAt (maps : List (List String)) (s : String) (k : Nat) : Prop :=
  (∃ strings, maps[k]? = some strings ∧ s ∈ strings) ∧ ∀ j strings, k < j → maps[j]? = some strings → s ∉ strings

theorem lastAt_cons_succ {strings : List String} {maps : List (List String)} {s : String} {k : Nat} :
    LastAt (strings :: maps) s (k + 1) ↔ LastAt maps s k := by
  unfold LastAt
  constructor
  · rintro ⟨hk, hlater⟩
    exact ⟨by simpa using hk, fun j x hj hx => hlater (j + 1) x (by omega) (by simpa using hx)⟩
  · rintro ⟨hk, hlater⟩
    refine ⟨by simpa using hk, fun j x hj hx => ?_⟩
    obtain ⟨j, rfl⟩ : ∃ i, j = i + 1 := ⟨j - 1, by omega⟩
    exact hlater j x (by omega) (by simpa using hx)

theorem exists_lastAt {maps : List (List String)} {s : String} (h : ∃ strings ∈ maps, s ∈ strings) :
    ∃ k, LastAt maps s k := by
  induction maps with
  | nil => simp at h
  | cons strings maps ih =>
    by_cases hrest : ∃ strings ∈ maps, s ∈ strings
    · obtain ⟨k, hk⟩ := ih hrest
      exact ⟨k + 1, lastAt_cons_succ.mpr hk⟩
    · have hs : s ∈ strings := by
        obtain ⟨x, hx, hs⟩ := h
        rcases List.mem_cons.mp hx with rfl | hx
        · exact hs
        · exact absurd ⟨x, hx, hs⟩ hrest
      refine ⟨0, ⟨strings, rfl, hs⟩, fun j x hj hx hs => ?_⟩
      obtain ⟨j, rfl⟩ : ∃ i, j = i + 1 := ⟨j - 1, by omega⟩
      exact hrest ⟨x, List.mem_of_getElem? (by simpa using hx), hs⟩

theorem lastColor_none {maps : List (List String)} (colors : List Color) {s : String}
    (h : ∀ strings ∈ maps, s ∉ strings) : lastColor (maps.zip colors) s = none := by
  have hno : (maps.zip colors).filter (fun m => m.1.contains s) = [] := by
    rw [List.filter_eq_nil_iff]
    intro m hm
    simpa using h m.1 (List.of_mem_zip hm).1
  rw [lastColor, hno]
  rfl

theorem lastColor_zip {maps : List (List String)} {colors : List Color} {s : String} {k : Nat}
    (hlen : maps.length ≤ colors.length) (h : LastAt maps s k) : lastColor (maps.zip colors) s = colors[k]? := by
  induction maps generalizing colors k with
  | nil =>
    obtain ⟨⟨x, hx, -⟩, -⟩ := h
    simp at hx
  | cons strings maps ih =>
    cases colors with
    | nil => simp at hlen
    | cons color colors =>
      rw [List.zip_cons_cons, lastColor_cons]
      cases k with
      | zero =>
        have hs : s ∈ strings := by
          obtain ⟨⟨x, hx, hs⟩, -⟩ := h
          cases hx
          exact hs
        have hrest : ∀ x ∈ maps, s ∉ x := by
          intro x hx
          obtain ⟨j, hj⟩ := List.mem_iff_getElem?.mp hx
          exact h.2 (j + 1) x (by omega) (by simpa using hj)
        rw [lastColor_none colors hrest, if_pos hs]
        rfl
      | succ k =>
        have hk := lastAt_cons_succ.mp h
        have hlt : k < colors.length := by
          obtain ⟨⟨x, hx, -⟩, -⟩ := hk
          have := (List.getElem?_eq_some_iff.mp hx).1
          simp only [List.length_cons] at hlen
          omega
        rw [ih (by simpa using hlen) hk, List.getElem?_cons_succ, List.getElem?_eq_getElem hlt]
        rfl

end LockDoc.Coverage
