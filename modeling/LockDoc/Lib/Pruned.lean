import Mathlib

/-!
# Pruned breadth-first search

A search by levels that expands a node only if its value is acceptable and not above the
smallest acceptable value before it, so that small values are looked for below small values.
Whether a node is reached depends on the ways that lead to it: it is if, on one of them, no
node has an acceptable node with a smaller value before it. If every way to an acceptable node
is cut off like this, then an acceptable node above an acceptable one is not expanded.
-/
namespace Pruned

variable {α : Type}

section Levels

variable (value : α → ℚ) (children : α → List α) (accept : ℚ)

/-- The elements of a list that are acceptable and not above the smallest acceptable value
before them. -/
def survivors : ℚ → List α → List α
  | _, [] => []
  | r, x :: xs => if accept ≤ value x ∧ value x ≤ r then x :: survivors (value x) xs else survivors r xs

/-- The smallest acceptable value after a list. -/
def lowest : ℚ → List α → ℚ
  | r, [] => r
  | r, x :: xs => if accept ≤ value x ∧ value x ≤ r then lowest (value x) xs else lowest r xs

/-- The levels below a root: the children of the survivors of the level before, with the
smallest acceptable value of all levels before. -/
def level (root : α) : Nat → ℚ × List α
  | 0 => (1, children root)
  | k + 1 =>
    (lowest value accept (level root k).1 (level root k).2,
      (survivors value accept (level root k).1 (level root k).2).flatMap children)

/-- The element is on some level. -/
def Explored (root t : α) : Prop := ∃ k, t ∈ (level value children accept root k).2

variable {value children accept}

theorem mem_of_mem_survivors {r : ℚ} {xs : List α} {x : α} (h : x ∈ survivors value accept r xs) : x ∈ xs := by
  induction xs generalizing r with
  | nil => cases h
  | cons y ys ih =>
    unfold survivors at h
    split at h
    · rcases List.mem_cons.mp h with rfl | h
      · exact List.mem_cons_self
      · exact List.mem_cons_of_mem _ (ih h)
    · exact List.mem_cons_of_mem _ (ih h)

theorem survivors_sublist (r : ℚ) (xs : List α) : (survivors value accept r xs).Sublist xs := by
  induction xs generalizing r with
  | nil => exact List.Sublist.slnil
  | cons x xs ih =>
    unfold survivors
    split
    · exact (ih _).cons_cons x
    · exact (ih r).cons x

theorem level_nil_succ {root : α} {k : Nat} (h : (level value children accept root k).2 = []) :
    (level value children accept root (k + 1)).2 = [] := by
  simp [level, h, survivors]

theorem level_nil_mono {root : α} {k j : Nat} (hkj : k ≤ j) (h : (level value children accept root k).2 = []) :
    (level value children accept root j).2 = [] := by
  induction hkj with
  | refl => exact h
  | step _ ih => exact level_nil_succ ih

/-- The smallest acceptable value is one that was there, and no other is smaller. -/
theorem lowest_spec (r : ℚ) (xs : List α) :
    lowest value accept r xs ≤ r ∧ (∀ x ∈ xs, accept ≤ value x → lowest value accept r xs ≤ value x) ∧
      (lowest value accept r xs = r ∨ ∃ x ∈ xs, accept ≤ value x ∧ lowest value accept r xs = value x) := by
  induction xs generalizing r with
  | nil => exact ⟨le_refl r, by simp, .inl rfl⟩
  | cons x xs ih =>
    unfold lowest
    split
    · rename_i hx
      obtain ⟨hle, hall, hsrc⟩ := ih (value x)
      refine ⟨hle.trans hx.2, List.forall_mem_cons.mpr ⟨fun _ => hle, hall⟩, .inr ?_⟩
      rcases hsrc with heq | ⟨y, hy, hay, heq⟩
      · exact ⟨x, List.mem_cons_self, hx.1, heq⟩
      · exact ⟨y, List.mem_cons_of_mem x hy, hay, heq⟩
    · rename_i hx
      obtain ⟨hle, hall, hsrc⟩ := ih r
      refine ⟨hle, List.forall_mem_cons.mpr ⟨fun ha => ?_, hall⟩, hsrc.imp_right ?_⟩
      · by_contra hno
        exact hx ⟨ha, (not_le.mp hno).le.trans hle⟩
      · rintro ⟨y, hy, hrest⟩
        exact ⟨y, List.mem_cons_of_mem x hy, hrest⟩

/-- In a list in some order an element survives if no acceptable one before it is smaller. -/
theorem mem_survivors_iff {R : α → α → Prop} (hR : ∀ x y, R x y → ¬R y x) {xs : List α} (hxs : xs.Pairwise R)
    {r : ℚ} {x : α} : x ∈ survivors value accept r xs ↔
      x ∈ xs ∧ accept ≤ value x ∧ value x ≤ r ∧ ∀ y ∈ xs, R y x → accept ≤ value y → value x ≤ value y := by
  induction xs generalizing r with
  | nil => simp [survivors]
  | cons z zs ih =>
    obtain ⟨hz, hzs⟩ := List.pairwise_cons.mp hxs
    have hirr : ∀ y, ¬R y y := fun y h => hR y y h h
    have hzz : z ∉ zs := fun hm => hirr z (hz z hm)
    -- The first element has none before it.
    have hfirst : ∀ y ∈ z :: zs, ¬R y z := List.forall_mem_cons.mpr ⟨hirr z, fun y hy h => hR _ _ h (hz y hy)⟩
    by_cases hxz : x = z
    · subst hxz
      have hno : ∀ q, x ∉ survivors value accept q zs := fun q h => hzz (mem_of_mem_survivors h)
      unfold survivors
      split
      · rename_i hkeep
        simp only [List.mem_cons_self, true_and, true_iff]
        exact ⟨hkeep.1, hkeep.2, fun y hy h => absurd h (hfirst y hy)⟩
      · rename_i hkeep
        simp only [hno, false_iff]
        exact fun h => hkeep ⟨h.2.1, h.2.2.1⟩
    · have hmem : x ∈ z :: zs ↔ x ∈ zs := by simp [hxz]
      unfold survivors
      split
      · rename_i hkeep
        rw [List.mem_cons, or_iff_right hxz, ih hzs, hmem]
        refine and_congr_right fun hx => and_congr_right fun _ => ?_
        rw [List.forall_mem_cons]
        constructor
        · rintro ⟨hle, hall⟩
          exact ⟨hle.trans hkeep.2, fun _ _ => hle, hall⟩
        · rintro ⟨-, hfront, hall⟩
          exact ⟨hfront (hz x hx) hkeep.1, hall⟩
      · rename_i hkeep
        rw [ih hzs, hmem]
        refine and_congr_right fun hx => and_congr_right fun _ => and_congr_right fun hr => ?_
        rw [List.forall_mem_cons]
        refine ⟨fun hall => ⟨fun _ ha => ?_, hall⟩, And.right⟩
        by_contra hno
        exact hkeep ⟨ha, (not_le.mp hno).le.trans hr⟩

/-- The smallest acceptable value of the levels before. -/
theorem level_spec (root : α) (k : Nat) :
    (∀ j < k, ∀ x ∈ (level value children accept root j).2, accept ≤ value x →
      (level value children accept root k).1 ≤ value x) ∧
    ((level value children accept root k).1 = 1 ∨ ∃ j < k, ∃ x ∈ (level value children accept root j).2,
      accept ≤ value x ∧ (level value children accept root k).1 = value x) := by
  induction k with
  | zero => exact ⟨by simp, .inl rfl⟩
  | succ k ih =>
    obtain ⟨hall, hsrc⟩ := ih
    obtain ⟨hle, hlow, hlast⟩ := @lowest_spec α value accept (level value children accept root k).1
      (level value children accept root k).2
    refine ⟨fun j hj x hx ha => ?_, ?_⟩
    · rcases Nat.lt_or_eq_of_le (Nat.le_of_lt_succ hj) with hlt | rfl
      · exact hle.trans (hall j hlt x hx ha)
      · exact hlow x hx ha
    · rcases hlast with heq | ⟨x, hx, ha, heq⟩
      · rcases hsrc with hone | ⟨j, hj, x, hx, ha, hval⟩
        · exact .inl (heq.trans hone)
        · exact .inr ⟨j, by omega, x, hx, ha, heq.trans hval⟩
      · exact .inr ⟨k, by omega, x, hx, ha, heq⟩

/-- What is not above the smallest acceptable value before it survives. -/
theorem mem_survivors_of_lowest {r : ℚ} {before after : List α} {x : α} (ha : accept ≤ value x)
    (hle : value x ≤ lowest value accept r before) : x ∈ survivors value accept r (before ++ x :: after) := by
  induction before generalizing r with
  | nil =>
    rw [List.nil_append, survivors, if_pos ⟨ha, hle⟩]
    exact List.mem_cons_self
  | cons y ys ih =>
    simp only [List.cons_append, survivors, lowest] at hle ⊢
    split
    · rename_i hy
      rw [if_pos hy] at hle
      exact List.mem_cons_of_mem y (ih hle)
    · rename_i hy
      rw [if_neg hy] at hle
      exact ih hle

section Map

variable {β : Type} (f : β → α)

theorem lowest_map (r : ℚ) (xs : List β) : lowest value accept r (xs.map f) = lowest (value ∘ f) accept r xs := by
  induction xs generalizing r with
  | nil => rfl
  | cons x xs ih => simp only [List.map_cons, lowest, ih, Function.comp_apply]

theorem survivors_map (r : ℚ) (xs : List β) :
    survivors value accept r (xs.map f) = (survivors (value ∘ f) accept r xs).map f := by
  induction xs generalizing r with
  | nil => rfl
  | cons x xs ih =>
    simp only [List.map_cons, survivors, ih, Function.comp_apply]
    split <;> rfl

/-- Levels of elements that stand for nodes. -/
theorem level_map {children' : β → List β} (hf : ∀ b, children (f b) = (children' b).map f) (root : β) (k : Nat) :
    level value children accept (f root) k =
      ((level (value ∘ f) children' accept root k).1, (level (value ∘ f) children' accept root k).2.map f) := by
  induction k with
  | zero => simp only [level, hf]
  | succ k ih =>
    simp only [level, ih, lowest_map, survivors_map, Prod.mk.injEq, true_and]
    rw [List.flatMap_map, List.map_flatMap]
    simp only [hf]

end Map

end Levels

section Ways

variable (child lt : α → α → Prop) (value : α → ℚ) (accept : ℚ) (root : α)

/-- The nodes on a way from the root, which is left out, the last one first. -/
inductive Way : α → List α → Prop
  | root : Way root []
  | next {p h : α} {w : List α} (hw : Way p w) (hc : child p h) : Way h (h :: w)

/-- The order in which a search by levels follows two ways: the one of the ways to the last
nodes but one, and for one way to them the one of the last nodes. -/
def Before : List α → List α → Prop
  | x :: v, y :: w => Before v w ∨ (v = w ∧ lt x y)
  | _, _ => False

/-- An acceptable node with a smaller value comes before, on a shorter way or on one as long. -/
def Undercut (p : α) (w : List α) : Prop :=
  ∃ g v, Way child root g v ∧ accept ≤ value g ∧ value g < value p ∧ (v.length < w.length ∨ Before lt v w)

/-- No node of the way is undercut, except perhaps the last one. -/
inductive ClearWay : α → List α → Prop
  | root : ClearWay root []
  | next {p h : α} {w : List α} (hw : ClearWay p w) (hu : ¬Undercut child lt value accept root p w)
    (hc : child p h) : ClearWay h (h :: w)

variable {child lt value accept root}

theorem ClearWay.way {t : α} {w : List α} (h : ClearWay child lt value accept root t w) : Way child root t w := by
  induction h with
  | root => exact .root
  | next _ _ hc ih => exact .next ih hc

theorem Before.length {v w : List α} (h : Before lt v w) : v.length = w.length := by
  induction v generalizing w with
  | nil => cases h
  | cons x v ih =>
    cases w with
    | nil => cases h
    | cons y w =>
      rcases h with h | ⟨rfl, -⟩
      · rw [List.length_cons, List.length_cons, ih h]
      · rfl

theorem Before.asymm (hlt : ∀ x y, lt x y → ¬lt y x) {v w : List α} (h : Before lt v w) : ¬Before lt w v := by
  induction v generalizing w with
  | nil => cases h
  | cons x v ih =>
    cases w with
    | nil => cases h
    | cons y w =>
      rintro (h' | ⟨rfl, hyx⟩)
      · rcases h with h | ⟨rfl, -⟩
        · exact ih h h'
        · exact ih h' h'
      · rcases h with h | ⟨-, hxy⟩
        · exact ih h h
        · exact hlt x y hxy hyx

theorem not_undercut_nil {p : α} : ¬Undercut child lt value accept root p [] := by
  rintro ⟨g, v, -, -, -, hshort | hbefore⟩
  · simp at hshort
  · cases v <;> cases hbefore

/-- Only the values of nodes with a way matter. -/
theorem ClearWay.congr {value' : α → ℚ} (hv : ∀ t w, Way child root t w → value t = value' t) {t : α} {w : List α}
    (h : ClearWay child lt value accept root t w) : ClearWay child lt value' accept root t w := by
  induction h with
  | root => exact .root
  | next hw hu hc ih =>
    refine .next ih ?_ hc
    rintro ⟨g, v, hg, ha, hlt, hbefore⟩
    rw [← hv g v hg] at ha hlt
    rw [← hv _ _ hw.way] at hlt
    exact hu ⟨g, v, hg, ha, hlt, hbefore⟩

/-- An acceptable node above an acceptable one is not expanded where the search comes to it. -/
def Drops (value : α → ℚ) (children : α → List α) (accept : ℚ) (root : α) : Prop :=
  ∃ k before p after, (level value children accept root k).2 = before ++ p :: after ∧ accept ≤ value p ∧
    lowest value accept (level value children accept root k).1 before < value p ∧
    ∃ h ∈ children p, accept ≤ value h

variable {children : α → List α}

/-- The levels of the search, with the ways on which it comes to their nodes. -/
def ways (value : α → ℚ) (children : α → List α) (accept : ℚ) (root : α) : Nat → ℚ × List (List α) :=
  level (fun w => value (w.headD root)) (fun w => (children (w.headD root)).map (· :: w)) accept []

theorem level_eq_ways (k : Nat) : level value children accept root k =
    ((ways value children accept root k).1, (ways value children accept root k).2.map (·.headD root)) :=
  @level_map α value children accept (List α) (·.headD root) _ (fun w => by simp [Function.comp_def]) [] k

section

variable (hch : ∀ p h, h ∈ children p ↔ child p h)

include hch

theorem way_of_mem {k : Nat} {w : List α} (hw : w ∈ (ways value children accept root k).2) :
    ∃ h v, w = h :: v ∧ Way child root h w ∧ v.length = k := by
  induction k generalizing w with
  | zero =>
    obtain ⟨h, hh, rfl⟩ := List.mem_map.mp hw
    exact ⟨h, [], rfl, .next .root ((hch _ _).mp hh), rfl⟩
  | succ k ih =>
    obtain ⟨v, hv, hw⟩ := List.mem_flatMap.mp hw
    obtain ⟨p, u, rfl, hway, hlen⟩ := ih (mem_of_mem_survivors hv)
    obtain ⟨h, hh, rfl⟩ := List.mem_map.mp hw
    exact ⟨h, p :: u, rfl, .next hway ((hch _ _).mp hh), by rw [List.length_cons, hlen]⟩

omit hch in
/-- Each level is in the order of the ways. -/
theorem ways_sorted (hsorted : ∀ p, (children p).Pairwise lt) (k : Nat) :
    (ways value children accept root k).2.Pairwise (Before lt) := by
  have hsiblings : ∀ w : List α, ((children (w.headD root)).map (· :: w)).Pairwise (Before lt) := by
    intro w
    rw [List.pairwise_map]
    exact (hsorted _).imp fun h => .inr ⟨rfl, h⟩
  induction k with
  | zero => exact hsiblings []
  | succ k ih =>
    refine List.pairwise_flatMap.mpr ⟨fun w _ => hsiblings w, (ih.sublist (survivors_sublist _ _)).imp ?_⟩
    intro v w hvw x hx y hy
    obtain ⟨_, -, rfl⟩ := List.mem_map.mp hx
    obtain ⟨_, -, rfl⟩ := List.mem_map.mp hy
    exact .inl hvw

variable (hsorted : ∀ p, (children p).Pairwise lt) (hlt : ∀ x y, lt x y → ¬lt y x)
  (hanti : ∀ p w h, Way child root p w → child p h → value h ≤ value p) (hone : value root ≤ 1)

omit hch in
include hanti in
theorem Way.le_root {t : α} {w : List α} (h : Way child root t w) : value t ≤ value root := by
  induction h with
  | root => exact le_refl _
  | next hw hc ih => exact (hanti _ _ _ hw hc).trans ih

omit hch in
include hsorted hlt in
/-- The ways of a level that survive. -/
theorem survives_iff {k : Nat} {p : α} {v : List α} :
    p :: v ∈ survivors (fun w => value (w.headD root)) accept (ways value children accept root k).1
        (ways value children accept root k).2 ↔
      p :: v ∈ (ways value children accept root k).2 ∧ accept ≤ value p ∧
        value p ≤ (ways value children accept root k).1 ∧
        ∀ u ∈ (ways value children accept root k).2, Before lt u (p :: v) → accept ≤ value (u.headD root) →
          value p ≤ value (u.headD root) :=
  mem_survivors_iff (fun _ _ h => h.asymm hlt) (ways_sorted hsorted k)

include hsorted hlt hanti hone in
/-- What is not undercut survives. -/
theorem survives_of_clear {k : Nat} {p : α} {v : List α} (hm : p :: v ∈ (ways value children accept root k).2)
    (ha : accept ≤ value p) (hu : ¬Undercut child lt value accept root p (p :: v)) :
    p :: v ∈ survivors (fun w => value (w.headD root)) accept (ways value children accept root k).1
      (ways value children accept root k).2 := by
  obtain ⟨_, _, heq, hway, hlen⟩ := way_of_mem hch hm
  cases heq
  refine (survives_iff hsorted hlt).mpr ⟨hm, ha, ?_, ?_⟩
  · rcases (@level_spec _ (fun w => value (w.headD root)) (fun w => (children (w.headD root)).map (· :: w))
      accept [] k).2 with heq | ⟨j, hj, u, hum, hau, heq⟩
    · exact ((hway.le_root hanti).trans hone).trans (ge_of_eq heq)
    · obtain ⟨g, u, rfl, hg, hglen⟩ := way_of_mem hch hum
      by_contra hno
      have hlow : value g < value p := lt_of_eq_of_lt heq.symm (not_le.mp hno)
      exact hu ⟨g, g :: u, hg, hau, hlow, .inl (by simp only [List.length_cons]; omega)⟩
  · intro u hum hbefore hau
    obtain ⟨g, u, rfl, hg, -⟩ := way_of_mem hch hum
    by_contra hno
    exact hu ⟨g, g :: u, hg, hau, not_le.mp hno, .inr hbefore⟩

include hsorted hlt hanti hone in
theorem mem_ways_of_clear {t : α} {w : List α} (h : ClearWay child lt value accept root t w)
    (ha : accept ≤ value t) : w = [] ∧ t = root ∨ ∃ v, w = t :: v ∧ w ∈ (ways value children accept root v.length).2 := by
  induction h with
  | root => exact .inl ⟨rfl, rfl⟩
  | @next p h w hw hu hc ih =>
    refine .inr ⟨w, rfl, ?_⟩
    rcases ih (ha.trans (hanti _ _ _ hw.way hc)) with ⟨rfl, rfl⟩ | ⟨v, rfl, hm⟩
    · exact List.mem_map_of_mem ((hch _ _).mpr hc)
    · have hsurvives := survives_of_clear hch hsorted hlt hanti hone hm (ha.trans (hanti _ _ _ hw.way hc)) hu
      exact List.mem_flatMap.mpr ⟨p :: v, hsurvives, List.mem_map_of_mem ((hch _ _).mpr hc)⟩

include hsorted hlt hanti hone in
/-- A node with a clear way is explored. -/
theorem explored_of_clear {t : α} {w : List α} (h : ClearWay child lt value accept root t w) (ha : accept ≤ value t) :
    t = root ∨ Explored value children accept root t := by
  rcases mem_ways_of_clear hch hsorted hlt hanti hone h ha with ⟨-, rfl⟩ | ⟨v, rfl, hm⟩
  · exact .inl rfl
  · refine .inr ⟨v.length, ?_⟩
    rw [level_eq_ways]
    exact List.mem_map_of_mem hm

/-- A node that is not dropped is expanded on every way on which the search comes to it. -/
theorem survives_of_not_drops (hno : ¬Drops value children accept root) {k : Nat} {p h : α} {v : List α}
    (hm : p :: v ∈ (ways value children accept root k).2) (ha : accept ≤ value p) (hc : child p h)
    (hah : accept ≤ value h) :
    p :: v ∈ survivors (fun w => value (w.headD root)) accept (ways value children accept root k).1
      (ways value children accept root k).2 := by
  obtain ⟨before, after, heq⟩ := List.append_of_mem hm
  rw [heq]
  refine mem_survivors_of_lowest ha ?_
  by_contra hlow
  refine hno ⟨k, before.map (·.headD root), p, after.map (·.headD root), ?_, ha, ?_, h, (hch p h).mpr hc, hah⟩
  · rw [level_eq_ways]
    simp [heq]
  · rw [level_eq_ways, lowest_map]
    exact not_le.mp hlow

include hanti in
theorem mem_ways_of_not_drops (hno : ¬Drops value children accept root) {t : α} {w : List α}
    (h : Way child root t w) (ha : accept ≤ value t) :
    w = [] ∧ t = root ∨ ∃ v, w = t :: v ∧ w ∈ (ways value children accept root v.length).2 := by
  induction h with
  | root => exact .inl ⟨rfl, rfl⟩
  | @next p h w hw hc ih =>
    refine .inr ⟨w, rfl, ?_⟩
    have hap := ha.trans (hanti _ _ _ hw hc)
    rcases ih hap with ⟨rfl, rfl⟩ | ⟨v, rfl, hm⟩
    · exact List.mem_map_of_mem ((hch _ _).mpr hc)
    · have hsurvives := survives_of_not_drops hch hno hm hap hc ha
      exact List.mem_flatMap.mpr ⟨p :: v, hsurvives, List.mem_map_of_mem ((hch _ _).mpr hc)⟩

include hsorted hlt hanti in
/-- If a way to an acceptable node is not clear, an acceptable node is dropped. -/
theorem drops_of_not_clear {t : α} {w : List α} (h : Way child root t w) (ha : accept ≤ value t)
    (hclear : ¬ClearWay child lt value accept root t w) : Drops value children accept root := by
  by_contra hno
  refine hclear ?_
  clear hclear
  induction h with
  | root => exact .root
  | @next p h w hw hc ih =>
    have hap := ha.trans (hanti _ _ _ hw hc)
    refine .next (ih hap) ?_ hc
    rcases mem_ways_of_not_drops hch hanti hno hw hap with ⟨rfl, rfl⟩ | ⟨v, rfl, hm⟩
    · exact not_undercut_nil
    · rintro ⟨g, u, hg, hag, hlow, hbefore⟩
      have hs := (survives_iff hsorted hlt).mp (survives_of_not_drops hch hno hm hap hc ha)
      rcases mem_ways_of_not_drops hch hanti hno hg hag with ⟨rfl, rfl⟩ | ⟨u, rfl, hgm⟩
      · exact absurd (hw.le_root hanti) (not_le.mpr hlow)
      · rcases hbefore with hshort | hbefore
        · have hr := (@level_spec _ (fun w => value (w.headD root))
            (fun w => (children (w.headD root)).map (· :: w)) accept [] v.length).1 u.length
            (by simpa using hshort) _ hgm hag
          exact absurd (hs.2.2.1.trans hr) (not_le.mpr hlow)
        · have hlen : u.length = v.length := by simpa using hbefore.length
          rw [hlen] at hgm
          exact absurd (hs.2.2.2 _ hgm hbefore hag) (not_le.mpr hlow)

include hsorted hlt hanti in
/-- The way to a node of the second level is clear. -/
theorem clear_of_second {t : α} (ht : t ∈ (level value children accept root 1).2) :
    ∃ w, ClearWay child lt value accept root t w := by
  rw [level_eq_ways] at ht
  obtain ⟨_, hw, rfl⟩ := List.mem_map.mp ht
  obtain ⟨_, hsurv, hw⟩ := List.mem_flatMap.mp hw
  obtain ⟨p, v, rfl, hway, hlen⟩ := way_of_mem hch (mem_of_mem_survivors hsurv)
  obtain ⟨h, hh, rfl⟩ := List.mem_map.mp hw
  obtain rfl := List.length_eq_zero_iff.mp hlen
  have hpc : child root p := by
    cases hway with
    | next hroot hc =>
      cases hroot
      exact hc
  have hno : ¬Undercut child lt value accept root p [p] := by
    rintro ⟨g, u, hg, hag, hlow, hbefore⟩
    cases hg with
    | root => exact absurd (hway.le_root hanti) (not_le.mpr hlow)
    | @next q _ u hg hc =>
      rcases hbefore with hshort | hbefore
      · simp at hshort
      · have hnil : u = [] := List.length_eq_zero_iff.mp (by simpa using hbefore.length)
        subst hnil
        cases hg
        have hle := ((survives_iff hsorted hlt).mp hsurv).2.2.2 [g] (List.mem_map_of_mem ((hch _ _).mpr hc)) hbefore hag
        exact absurd hle (not_le.mpr hlow)
  exact ⟨[h, p], .next (.next .root not_undercut_nil hpc) hno ((hch _ _).mp hh)⟩

end

end Ways

end Pruned
