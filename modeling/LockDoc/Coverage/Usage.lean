import LockDoc.Lib.Run
import LockDoc.Coverage.Colours

/-!
# The image against the usage text

The usage text says which colour belongs to a string. The image shows it if every map that
decides on a string gets its own colour, although the colours of all off-maps are taken first,
and if the default colour does not suffer from the exchange of two components.
-/
namespace LockDoc.Coverage

open Worklist

/-- The curve lines by line. -/
theorem coordsAt_lines (fuel dim : Nat) {i : Nat} (hi : i < 2 ^ 32) :
    Sfc.coordsAt fuel (.lines dim 0) i = some (i % dim, i / dim) := by
  have hnext : Sfc.next^[i] (.lines dim 0) = .lines dim i := by
    induction i with
    | zero => rfl
    | succ i ih => rw [Function.iterate_succ_apply', ih (by omega), Sfc.next, u32_of_lt hi]
  rw [Sfc.coordsAt, hnext]
  rfl

theorem imageDim_le {n : Nat} (hn : n < 2 ^ 32) : imageDim n ≤ 2 ^ 16 := by
  apply (isLeast_imageDim n).2
  have hsq : 2 ^ 16 * 2 ^ 16 = 2 ^ 32 := by decide
  exact show n ≤ 2 ^ 16 * 2 ^ 16 by omega

/-- A pixel of the image is set if there is a colour for it. -/
theorem Image.set_ok {image : Image} {p : Nat × Nat} (color : Option Color) (hp : p.1 < image.dim ∧ p.2 < image.dim) :
    ∃ next, color.elim (.ok image) (image.set p) = .ok next ∧ next.dim = image.dim ∧
      (∀ q, p ≠ q → next.pixel q = image.pixel q) ∧ next.pixel p = color.getD (image.pixel p) := by
  cases color with
  | none => exact ⟨image, rfl, rfl, fun _ _ => rfl, rfl⟩
  | some color =>
    have hset : image.set p color = .ok { image with pixel := Function.update image.pixel p color } := if_pos hp
    refine ⟨_, hset, rfl, fun q hq => ?_, ?_⟩
    · exact Function.update_of_ne hq.symm _ _
    · exact Function.update_self _ _ _

namespace CommandLine

/-- The option is left out, or it names a curve that there is. -/
def Implemented (cl : CommandLine) : Prop := ∀ s ∈ cl.curveType, s ∈ ["lines", "spiral", "hilbert"]

theorem implemented_iff {cl : CommandLine} : cl.Implemented ↔ ∃ curve, cl.curve = .ok curve := by
  unfold Implemented curve
  cases cl.curveType with
  | none => simp
  | some s =>
    simp only [Option.mem_some_iff, forall_eq', List.mem_cons, List.not_mem_nil, or_false]
    split_ifs with h₁ h₂ h₃ <;> simp [*]

/-- The side of the image. -/
def side (cl : CommandLine) : Nat :=
  if cl.curveType = some "hilbert" then 2 ^ Nat.clog 2 (imageDim cl.domainStrings.length)
  else imageDim cl.domainStrings.length

theorem side_eq {cl : CommandLine} {curve : CurveType} (hc : cl.curve = .ok curve) : cl.side =
    match curve with
    | .lines | .spiral => imageDim cl.domainStrings.length
    | .hilbert => 2 ^ Nat.clog 2 (imageDim cl.domainStrings.length) := by
  unfold CommandLine.curve at hc
  unfold side
  cases ht : cl.curveType with
  | none =>
    rw [ht] at hc
    cases hc
    rfl
  | some s =>
    rw [ht] at hc
    dsimp only at hc
    split_ifs at hc with h₁ h₂ h₃ <;> cases hc <;> simp [*]

/-- The image has room for the domain, and the curve fills it. -/
theorem curve_spec {cl : CommandLine} {curve : CurveType} (hc : cl.curve = .ok curve)
    (hn : cl.domainStrings.length < 2 ^ 32) :
    (∀ fuel, 32 ≤ fuel → cl.imageSide curve fuel = .ok cl.side) ∧ cl.domainStrings.length ≤ cl.side * cl.side ∧
    ∃ coords, Fills cl.side coords ∧
      ∀ fuel i, 32 ≤ fuel → i < cl.domainStrings.length →
        Sfc.coordsAt fuel (cl.sfc curve) i = some (coords i) := by
  have hroom : cl.domainStrings.length ≤ imageDim cl.domainStrings.length * imageDim cl.domainStrings.length :=
    (isLeast_imageDim _).1
  have hdim := imageDim_le hn
  rw [side_eq hc]
  unfold imageSide sfc
  generalize cl.domainStrings.length = n at *
  cases curve with
  | lines =>
    refine ⟨fun _ _ => rfl, hroom, _, fills_lines (imageDim n), fun fuel i _ hi => ?_⟩
    exact coordsAt_lines fuel _ (by omega)
  | spiral =>
    refine ⟨fun _ _ => rfl, hroom, spiralCoords (imageDim n), ?_, fun fuel i _ _ => coordsAt_spiral fuel _ i⟩
    have hlt : imageDim n < 2 ^ 32 := by omega
    exact fills_spiral hlt
  | hilbert =>
    have hle : imageDim n ≤ 2 ^ Nat.clog 2 (imageDim n) := Nat.le_pow_clog (by decide) _
    have hbelow : ∀ k < Nat.clog 2 (imageDim n), 2 ^ k < imageDim n :=
      fun k hk => Nat.pow_lt_of_lt_clog hk
    have hlevel : Nat.clog 2 (imageDim n) ≤ 16 := (Nat.clog_le_iff_le_pow (by decide)).mpr hdim
    refine ⟨fun fuel hfuel => ?_, ?_, hilbert (Nat.clog 2 (imageDim n)), fills_hilbert _, fun fuel i hfuel hi => ?_⟩
    · dsimp only
      rw [enlarge_eq hle hbelow (by omega) (by omega)]
      rfl
    · exact Nat.le_trans hroom (Nat.mul_self_le_mul_self hle)
    · exact coordsAt_hilbert hle hbelow hlevel hfuel (by omega)

/-- The drawing loop sets the pixels of the remaining strings that have a colour. -/
theorem draw_ok {cl : CommandLine} {maps : MapKind → ColorMap} {sfc : Sfc} {coordsFuel : Nat}
    {coords : Nat → Nat × Nat} {dim : Nat} (hn : cl.domainStrings.length < 2 ^ 32)
    (hcoords : ∀ i < cl.domainStrings.length, (Sfc.next^[i] sfc).getCoords coordsFuel = some (coords i))
    (hin : ∀ i < cl.domainStrings.length, (coords i).1 < dim ∧ (coords i).2 < dim)
    (hinj : ∀ i < cl.domainStrings.length, ∀ j < cl.domainStrings.length, coords i = coords j → i = j)
    {m : Nat} : ∀ {fuel i : Nat} {image : Image}, image.dim = dim → cl.domainStrings.length - i = m →
      i ≤ cl.domainStrings.length → m ≤ fuel →
      ∃ image', cl.draw maps coordsFuel fuel i (Sfc.next^[i] sfc) image = .ok image' ∧ image'.dim = dim ∧
        (∀ p, (∀ j, i ≤ j → j < cl.domainStrings.length → coords j ≠ p) → image'.pixel p = image.pixel p) ∧
        ∀ j s, i ≤ j → cl.domainStrings[j]? = some s →
          image'.pixel (coords j) = (maps (cl.kindOf s) s).getD (image.pixel (coords j)) := by
  induction m with
  | zero =>
    intro fuel i image hdim hm hi _
    have hend : cl.domainStrings[i]? = none := List.getElem?_eq_none (by omega)
    refine ⟨image, ?_, hdim, fun _ _ => rfl, fun j s hj hs => ?_⟩
    · unfold draw
      rw [hend]
    · have := (List.getElem?_eq_some_iff.mp hs).1
      omega
  | succ m ih =>
    intro fuel i image hdim hm hi hfuel
    have hlt : i < cl.domainStrings.length := by omega
    obtain ⟨fuel, rfl⟩ : ∃ n, fuel = n + 1 := ⟨fuel - 1, by omega⟩
    have hs := List.getElem?_eq_getElem hlt
    generalize cl.domainStrings[i] = s at hs
    obtain ⟨next, hnext, hnextDim, hother, hown⟩ := Image.set_ok (maps (cl.kindOf s) s) (hdim ▸ hin i hlt)
    obtain ⟨image', himage, hdim', hkeep, hset⟩ :=
      @ih fuel (i + 1) next (hnextDim.trans hdim) (by omega) (by omega) (by omega)
    refine ⟨image', ?_, hdim', fun p hp => ?_, fun j t hj ht => ?_⟩
    · unfold draw
      rw [hs]
      simp only [hcoords i hlt, Option.elim, bind, Except.bind]
      simp only [Option.elim] at hnext
      rw [hnext]
      dsimp only
      rw [u32_of_lt (by omega), ← Function.iterate_succ_apply' Sfc.next]
      exact himage
    · rw [hkeep p fun j hj hjn => hp j (by omega) hjn, hother p (hp i (Nat.le_refl i) hlt)]
    · have hjn := (List.getElem?_eq_some_iff.mp ht).1
      rcases Nat.eq_or_lt_of_le hj with rfl | hj
      · obtain rfl : s = t := Option.some.inj (hs.symm.trans ht)
        rw [hkeep _ fun k hk hkn he => ?_, hown]
        have := hinj k hkn i hlt he
        omega
      · have hne : coords i ≠ coords j := fun he => by
          have := hinj i hlt j hjn he
          omega
        rw [hset j t hj ht, hother _ hne]

/-- The maps of a kind with their colours, as the command line gives them. -/
def given (cl : CommandLine) (kind : MapKind) : List (List String × Color) :=
  (cl.maps.filter (fun m => m.kind = kind)).map (fun m => (m.strings, m.color))

/-- The number of colours that are taken before those of the kind. -/
def taken (cl : CommandLine) : MapKind → Nat
  | .off => 0
  | .on => (cl.options .off).length

/-- The maps of a kind with the colours that the program takes for them. -/
def painted (cl : CommandLine) (kind : MapKind) : List (List String × Color) :=
  (cl.options kind).zip (cl.colors.drop (cl.taken kind))

theorem length_options (cl : CommandLine) :
    (cl.options .off).length + (cl.options .on).length = cl.colors.length := by
  unfold options colors
  rw [List.length_map, List.length_map, List.length_map]
  induction cl.maps with
  | nil => rfl
  | cons m maps ih =>
    cases hk : m.kind <;> simp [hk] <;> omega

/-- The pixels after the run: the string's colour from the maps as they are painted, and the
background elsewhere. -/
theorem main_yields {cl : CommandLine} {curve : CurveType} (hc : cl.curve = .ok curve)
    (hn : cl.domainStrings.length < 2 ^ 32) :
    ∃ image coords, Yields (fun n => cl.main n) image ∧ image.dim = cl.side ∧ Fills cl.side coords ∧
      (∀ fuel i, 32 ≤ fuel → i < cl.domainStrings.length →
        Sfc.coordsAt fuel (cl.sfc curve) i = some (coords i)) ∧
      (∀ i s, cl.domainStrings[i]? = some s →
        image.pixel (coords i) = (lastColor (cl.painted (cl.kindOf s)) s).getD cl.background) ∧
      ∀ p, (∀ i < cl.domainStrings.length, coords i ≠ p) → image.pixel p = cl.background := by
  obtain ⟨hside, hroom, coords, hfills, hcoords⟩ := curve_spec hc hn
  have hlen := cl.length_options
  obtain ⟨offMap, hoff, hoffLast⟩ := @loadMaps_ok (cl.options .off) cl.colors (by omega) (fun _ => none)
  obtain ⟨onMap, hon, honLast⟩ := @loadMaps_ok (cl.options .on) (cl.colors.drop (cl.options .off).length)
    (by rw [List.length_drop]; omega) (fun _ => none)
  have hrest : (cl.colors.drop (cl.options .off).length).drop (cl.options .on).length = [] := by
    rw [List.drop_drop, List.drop_eq_nil_iff]
    omega
  let maps : MapKind → ColorMap := fun kind => match kind with | .off => offMap | .on => onMap
  have hmaps : ∀ kind s, maps kind s = lastColor (cl.painted kind) s := by
    intro kind s
    cases kind with
    | off => exact (hoffLast s).trans (Option.or_none)
    | on => exact (honLast s).trans (Option.or_none)
  have hmain : ∀ fuel, 32 ≤ fuel →
      cl.main fuel = cl.draw maps fuel fuel 0 (cl.sfc curve) ⟨cl.side, fun _ => cl.background⟩ := by
    intro fuel hfuel
    simp only [main, hc, hside fuel hfuel, hoff, hon, hrest, bind, Except.bind, ne_eq, not_true_eq_false, if_false]
    rfl
  have hsq : ∀ i < cl.domainStrings.length, i < cl.side * cl.side := fun i hi => Nat.lt_of_lt_of_le hi hroom
  have hdraw := fun fuel (hfuel : 32 ≤ fuel) (hle : cl.domainStrings.length ≤ fuel) =>
    @draw_ok cl maps (cl.sfc curve) fuel coords cl.side hn (fun i hi => hcoords fuel i hfuel hi)
      (fun i hi => hfills.inside i (hsq i hi)) (fun i hi j hj => hfills.distinct i (hsq i hi) j (hsq j hj))
      cl.domainStrings.length fuel 0 ⟨cl.side, fun _ => cl.background⟩ rfl (by omega) (by omega) hle
  -- The image does not depend on the bound on the rounds.
  obtain ⟨image, himage, hdim, hother, hown⟩ := hdraw (max 32 cl.domainStrings.length) (by omega) (by omega)
  refine ⟨image, coords, ⟨max 32 cl.domainStrings.length, fun fuel hfuel => ?_⟩, hdim, hfills, hcoords,
    fun i s hs => ?_, fun p hp => hother p fun j _ hj => hp j hj⟩
  · obtain ⟨image', himage', hdim', hother', hown'⟩ := hdraw fuel (by omega) (by omega)
    change cl.main fuel = .ok image
    refine (hmain fuel (by omega)).trans (himage'.trans ?_)
    have hpixel : image'.pixel = image.pixel := by
      funext p
      by_cases hp : ∃ i, i < cl.domainStrings.length ∧ coords i = p
      · obtain ⟨i, hi, rfl⟩ := hp
        have hs := List.getElem?_eq_getElem hi
        rw [hown i _ (Nat.zero_le i) hs, hown' i _ (Nat.zero_le i) hs]
      · have hno : ∀ i, 0 ≤ i → i < cl.domainStrings.length → coords i ≠ p :=
          fun i _ hi he => hp ⟨i, hi, he⟩
        rw [hother p hno, hother' p hno]
    obtain ⟨dim, pixel⟩ := image
    obtain ⟨dim', pixel'⟩ := image'
    dsimp only at hdim hdim' hpixel
    rw [hdim, hdim', hpixel]
  · rw [hown i s (Nat.zero_le i) hs, hmaps]

/-- The counter of the drawing loop is an `unsigned`: it never passes a longer domain. -/
theorem draw_endless {cl : CommandLine} (hn : 2 ^ 32 ≤ cl.domainStrings.length) {maps : MapKind → ColorMap}
    {coordsFuel fuel i : Nat} {sfc : Sfc} {image image' : Image} (hi : i < 2 ^ 32) :
    cl.draw maps coordsFuel fuel i sfc image ≠ .ok image' := by
  induction fuel generalizing i sfc image with
  | zero =>
    have hs := List.getElem?_eq_getElem (Nat.lt_of_lt_of_le hi hn)
    unfold draw
    rw [hs]
    simp
  | succ fuel ih =>
    have hs := List.getElem?_eq_getElem (Nat.lt_of_lt_of_le hi hn)
    intro h
    unfold draw at h
    rw [hs] at h
    obtain ⟨p, -, h⟩ := FallibleRun.bind_ok.mp h
    obtain ⟨next, -, h⟩ := FallibleRun.bind_ok.mp h
    exact ih (Nat.mod_lt _ (by decide)) h

theorem main_endless {cl : CommandLine} (hn : 2 ^ 32 ≤ cl.domainStrings.length) (fuel : Nat) (image : Image) :
    cl.main fuel ≠ .ok image := by
  intro h
  unfold main at h
  obtain ⟨curve, -, h⟩ := FallibleRun.bind_ok.mp h
  obtain ⟨dim, -, h⟩ := FallibleRun.bind_ok.mp h
  obtain ⟨⟨offMap, colors⟩, -, h⟩ := FallibleRun.bind_ok.mp h
  obtain ⟨⟨onMap, colors'⟩, -, h⟩ := FallibleRun.bind_ok.mp h
  dsimp only at h
  split at h
  · cases h
  · exact draw_endless hn (by decide) h

/-- The image as the usage text promises it: the pixel of a string has the colour given after
the last map for it, an on-map if the string is in the input and an off-map if not, and every
pixel without such a colour has the default colour. -/
def AsUsage (cl : CommandLine) : Prop :=
  ∃ (image : Image) (curve : CurveType) (coords : Nat → Nat × Nat),
    Yields (fun n => cl.main n) image ∧ cl.curve = .ok curve ∧
    (∃ n₀, ∀ fuel i, n₀ ≤ fuel → i < cl.domainStrings.length →
      Sfc.coordsAt fuel (cl.sfc curve) i = some (coords i)) ∧
    (∀ i s, cl.domainStrings[i]? = some s →
      image.pixel (coords i) = (lastColor (cl.given (cl.kindOf s)) s).getD cl.defaultColor) ∧
    ∀ x < image.dim, ∀ y < image.dim, (∀ i < cl.domainStrings.length, coords i ≠ (x, y)) →
      image.pixel (x, y) = cl.defaultColor

/-- The last map for the string gets its own colour. -/
def RightColour (cl : CommandLine) (s : String) : Prop :=
  ∀ k, LastAt (cl.options (cl.kindOf s)) s k →
    cl.colors[cl.taken (cl.kindOf s) + k]? = ((cl.given (cl.kindOf s))[k]?).map Prod.snd

/-- Some map decides on the colour of the string. -/
def Mapped (cl : CommandLine) (s : String) : Prop := ∃ strings ∈ cl.options (cl.kindOf s), s ∈ strings

theorem background_eq_iff (cl : CommandLine) : cl.background = cl.defaultColor ↔ cl.defaultColor.g = cl.defaultColor.b := by
  unfold background
  obtain ⟨r, g, b⟩ := cl.defaultColor
  simp [eq_comm]

theorem given_eq_zip (cl : CommandLine) (kind : MapKind) :
    cl.given kind = (cl.options kind).zip ((cl.given kind).map Prod.snd) := by
  unfold given options
  rw [List.map_map, List.zip_map']
  rfl

theorem length_given (cl : CommandLine) (kind : MapKind) : (cl.given kind).length = (cl.options kind).length := by
  rw [given, options, List.length_map, List.length_map]

theorem length_options_le (cl : CommandLine) (kind : MapKind) :
    (cl.options kind).length ≤ (cl.colors.drop (cl.taken kind)).length := by
  have hlen := cl.length_options
  rw [List.length_drop]
  cases kind <;> simp only [taken] <;> omega

/-- Without a map there is no colour. -/
theorem lastColor_unmapped {cl : CommandLine} {s : String} (h : ¬cl.Mapped s) :
    lastColor (cl.painted (cl.kindOf s)) s = none ∧ lastColor (cl.given (cl.kindOf s)) s = none := by
  have hno : ∀ strings ∈ cl.options (cl.kindOf s), s ∉ strings := fun x hx hs => h ⟨x, hx, hs⟩
  rw [given_eq_zip]
  exact ⟨lastColor_none _ hno, lastColor_none _ hno⟩

/-- With a map there are two colours, and they agree if it gets its own. -/
theorem lastColor_mapped {cl : CommandLine} {s : String} (h : cl.Mapped s) :
    ∃ c c', lastColor (cl.painted (cl.kindOf s)) s = some c ∧ lastColor (cl.given (cl.kindOf s)) s = some c' ∧
      (c = c' ↔ cl.RightColour s) := by
  obtain ⟨k, hk⟩ := exists_lastAt h
  have hlt : k < (cl.options (cl.kindOf s)).length := by
    obtain ⟨⟨x, hx, -⟩, -⟩ := hk
    exact (List.getElem?_eq_some_iff.mp hx).1
  have hle := cl.length_options_le (cl.kindOf s)
  have hpainted := lastColor_zip hle hk
  have hgiven : lastColor (cl.given (cl.kindOf s)) s = ((cl.given (cl.kindOf s)).map Prod.snd)[k]? := by
    refine (congrArg (fun maps => lastColor maps s) (cl.given_eq_zip _)).trans (lastColor_zip ?_ hk)
    rw [List.length_map, length_given]
  have hk₁ := List.getElem?_eq_getElem (Nat.lt_of_lt_of_le hlt hle)
  have hk₂ := List.getElem?_eq_getElem (show k < ((cl.given (cl.kindOf s)).map Prod.snd).length by
    rw [List.length_map, length_given]; exact hlt)
  refine ⟨_, _, hpainted.trans hk₁, hgiven.trans hk₂, ?_⟩
  have huniq : ∀ j, LastAt (cl.options (cl.kindOf s)) s j → j = k := by
    intro j hj
    obtain ⟨x, hx, hsx⟩ := hj.1
    obtain ⟨y, hy, hsy⟩ := hk.1
    rcases Nat.lt_trichotomy j k with hlt | he | hlt
    · exact absurd hsy (hj.2 k y hlt hy)
    · exact he
    · exact absurd hsx (hk.2 j x hlt hx)
  have hright : cl.RightColour s ↔ (cl.colors.drop (cl.taken (cl.kindOf s)))[k]? =
      ((cl.given (cl.kindOf s)).map Prod.snd)[k]? := by
    rw [List.getElem?_drop, List.getElem?_map]
    constructor
    · exact fun hr => hr k hk
    · intro he j hj
      rw [huniq j hj]
      exact he
  rw [hright, hk₁, hk₂, Option.some.injEq]

/-- The image is as promised if the painted colours are the promised ones, and the background
shows the default colour wherever the curve does not get. -/
theorem asUsage_iff_colors {cl : CommandLine} (hi : cl.Implemented) (hn : cl.domainStrings.length < 2 ^ 32) :
    cl.AsUsage ↔ (∀ s ∈ cl.domainStrings, (lastColor (cl.painted (cl.kindOf s)) s).getD cl.background =
      (lastColor (cl.given (cl.kindOf s)) s).getD cl.defaultColor) ∧
      (cl.domainStrings.length < cl.side * cl.side → cl.background = cl.defaultColor) := by
  obtain ⟨curve, hc⟩ := implemented_iff.mp hi
  obtain ⟨image, coords, hy, hdim, hfills, hcoords, hown, hother⟩ := main_yields hc hn
  have hroom := (curve_spec hc hn).2.1
  constructor
  · rintro ⟨image', curve', coords', hy', hc', ⟨n₀, hcoords'⟩, hown', hother'⟩
    obtain rfl := hy.unique hy'
    obtain rfl : curve = curve' := Except.ok.inj (hc.symm.trans hc')
    have hsame : ∀ i < cl.domainStrings.length, coords' i = coords i := by
      intro i hi
      have h := hcoords' (max 32 n₀) i (by omega) hi
      rw [hcoords (max 32 n₀) i (by omega) hi] at h
      exact (Option.some.inj h).symm
    refine ⟨fun s hs => ?_, fun hlt => ?_⟩
    · obtain ⟨i, hi⟩ := List.mem_iff_getElem?.mp hs
      rw [← hown i s hi, ← hown' i s hi, hsame i (List.getElem?_eq_some_iff.mp hi).1]
    · -- The first position after the domain is a pixel that is not drawn.
      obtain ⟨hx, hy⟩ := hfills.inside _ hlt
      have hfree : ∀ i < cl.domainStrings.length, coords i ≠ coords cl.domainStrings.length := by
        intro i hi he
        have := hfills.distinct i (by omega) _ hlt he
        omega
      rw [hdim] at hother'
      have h := hother' _ hx _ hy fun i hi => by
        rw [hsame i hi]
        exact hfree i hi
      exact (hother _ hfree).symm.trans h
  · rintro ⟨hcolors, hback⟩
    refine ⟨image, curve, coords, hy, hc, ⟨32, hcoords⟩, fun i s hs => ?_, fun x hx y hy hfree => ?_⟩
    · rw [hown i s hs]
      exact hcolors s (List.mem_of_getElem? hs)
    · rw [hother _ hfree]
      apply hback
      by_contra hge
      rw [hdim] at hx hy
      obtain ⟨i, hi, he⟩ := hfills.covers hx hy
      exact hfree i (by omega) he

/-- The image is as promised exactly if there is the curve, the counter of the drawing loop can
pass the domain, every string's map gets its own colour, and green and blue of the default colour
are equal unless every pixel belongs to a string with a map. -/
theorem colours_iff (cl : CommandLine) : cl.AsUsage ↔ cl.Implemented ∧ cl.domainStrings.length < 2 ^ 32 ∧
    (∀ s ∈ cl.domainStrings, cl.RightColour s) ∧
    (cl.defaultColor.g = cl.defaultColor.b ∨
      (cl.domainStrings.length = cl.side * cl.side ∧ ∀ s ∈ cl.domainStrings, cl.Mapped s)) := by
  by_cases hi : cl.Implemented
  swap
  · constructor
    · rintro ⟨image, curve, -, -, hc, -⟩
      exact absurd (implemented_iff.mpr ⟨curve, hc⟩) hi
    · exact fun h => absurd h.1 hi
  by_cases hn : cl.domainStrings.length < 2 ^ 32
  · obtain ⟨curve, hc⟩ := implemented_iff.mp hi
    have hroom := (curve_spec hc hn).2.1
    rw [asUsage_iff_colors hi hn, background_eq_iff]
    constructor
    · rintro ⟨hcolors, hback⟩
      refine ⟨hi, hn, fun s hs => ?_, ?_⟩
      · by_cases hm : cl.Mapped s
        · obtain ⟨c, c', hp, hg, hiff⟩ := lastColor_mapped hm
          have he := hcolors s hs
          rw [hp, hg] at he
          exact hiff.mp he
        · intro k hk
          obtain ⟨⟨x, hx, hsx⟩, -⟩ := hk
          exact absurd ⟨x, List.mem_of_getElem? hx, hsx⟩ hm
      · by_cases hgb : cl.defaultColor.g = cl.defaultColor.b
        · exact .inl hgb
        · refine .inr ⟨?_, fun s hs => ?_⟩
          · by_contra hne
            exact hgb (hback (by omega))
          · by_contra hm
            obtain ⟨hp, hg⟩ := lastColor_unmapped hm
            have he := hcolors s hs
            rw [hp, hg] at he
            exact hgb (cl.background_eq_iff.mp he)
    · rintro ⟨-, -, hright, hdefault⟩
      refine ⟨fun s hs => ?_, fun hlt => ?_⟩
      · by_cases hm : cl.Mapped s
        · obtain ⟨c, c', hp, hg, hiff⟩ := lastColor_mapped hm
          rw [hp, hg]
          exact hiff.mpr (hright s hs)
        · obtain ⟨hp, hg⟩ := lastColor_unmapped hm
          rw [hp, hg]
          refine cl.background_eq_iff.mpr (hdefault.resolve_right fun hall => hm (hall.2 s hs))
      · refine hdefault.resolve_right fun hall => ?_
        omega
  · constructor
    · rintro ⟨image, -, -, ⟨n, hrun⟩, -⟩
      exact absurd (hrun n (Nat.le_refl n)) (main_endless (by omega) n image)
    · rintro ⟨-, hlt, -⟩
      exact absurd hlt hn

/-- An on-map before an off-map: the string gets the colour of the other map. -/
def onFirst : CommandLine :=
  ⟨[⟨.on, ["a"], ⟨255, 0, 0⟩⟩, ⟨.off, ["a"], ⟨0, 0, 255⟩⟩], ⟨255, 255, 255⟩, none, ["a"], ["a"]⟩

theorem not_asUsage_onFirst : ¬onFirst.AsUsage := by
  rw [asUsage_iff_colors (by simp [Implemented, onFirst]) (by decide)]
  rintro ⟨hcolors, -⟩
  have h := hcolors "a" (by decide)
  revert h
  decide

end CommandLine

end LockDoc.Coverage
