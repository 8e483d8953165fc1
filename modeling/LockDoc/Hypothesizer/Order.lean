import LockDoc.Hypothesizer.Lockset
import LockDoc.Hypothesizer.TopDown
import LockDoc.Hypothesizer.Renumber

/-!
# The order of the input lines

Two runs on the same lines in different orders. What the top-down and the lockset strategy
report depends on the lengths and supports of the hypotheses only, which are the same in
both runs. The sharpen and the bottom-up strategy judge each hypothesis by the winner of
the moment, so that the order in which hypotheses are visited matters: they report the same
if the locks of the member are numbered in the same order.
-/
namespace LockDoc.Hypothesizer

open Worklist

/-- The search ends with a hypothesis in front. -/
structure Fronted (member₀ member : Member) (maxHypoLen : Nat) (s : Search) (w : List MyId) : Prop where
  front : ∃ rest, s.conflictList = (w, member.bestOrder w) :: rest
  found : s.winnerFound = true
  enumerated : Enumerated member₀ maxHypoLen w

/-- The number of locks and the support of every hypothesis. -/
def Member.shapes (member : Member) : Set (Nat × ℚ) :=
  {p | ∃ h ∈ member.hypotheses, p = (h.length, member.orderedSupport h)}

section

variable {member₀ member : Member} {maxHypoLen : Nat}
  (hb : Built member₀ member (Enumerated member₀ maxHypoLen)) (ho : member₀.Observed)

include hb ho

omit ho in
theorem Built.mem_shapes {k : Nat} {r : ℚ} :
    (k, r) ∈ member.shapes ↔ ∃ h, Enumerated member₀ maxHypoLen h ∧ h.length = k ∧ member.orderedSupport h = r := by
  simp only [Member.shapes, Set.mem_ofPred_eq, Prod.mk.injEq]
  constructor
  · rintro ⟨h, hh, rfl, rfl⟩
    exact ⟨h, (hb.keys h).mp hh, rfl, rfl⟩
  · rintro ⟨h, hh, rfl, rfl⟩
    exact ⟨h, (hb.keys h).mpr hh, rfl, rfl⟩

end

/-- What the top-down strategy reports when accesses without locks do not decide. -/
inductive TopdownReports (shapes : Set (Nat × ℚ)) (accept : ℚ) : Option (Nat × ℚ) → Prop
  | nothing (h : ∀ k r, (k, r) ∈ shapes → 0 < k → r < accept) : TopdownReports shapes accept none
  | winner {n : Nat} {M : ℚ} (hM : IsGreatest {r | ∃ k, 0 < k ∧ (k, r) ∈ shapes} M) (ha : accept ≤ M)
      (hn : IsGreatest {k | 0 < k ∧ (k, M) ∈ shapes} n) : TopdownReports shapes accept (some (n, M))

theorem TopdownReports.unique {shapes : Set (Nat × ℚ)} {accept : ℚ} {o o' : Option (Nat × ℚ)}
    (h : TopdownReports shapes accept o) (h' : TopdownReports shapes accept o') : o = o' := by
  have absurdNone : ∀ {M : ℚ}, (∀ k r, (k, r) ∈ shapes → 0 < k → r < accept) →
      IsGreatest {r | ∃ k, 0 < k ∧ (k, r) ∈ shapes} M → accept ≤ M → False := by
    rintro M hlow ⟨⟨k, hk, hm⟩, -⟩ ha
    exact absurd (hlow k M hm hk) (not_lt.mpr ha)
  cases h with
  | nothing h =>
    cases h' with
    | nothing _ => rfl
    | winner hM' ha' _ => exact (absurdNone h hM' ha').elim
  | winner hM ha hn =>
    cases h' with
    | nothing h' => exact (absurdNone h' hM ha).elim
    | winner hM' _ hn' =>
      cases hM.unique hM'
      rw [hn.unique hn']

section

variable {member₀ member : Member} {maxHypoLen : Nat} {accept nolock : ℚ}
  (hb : Built member₀ member (Enumerated member₀ maxHypoLen)) (ho : member₀.Observed)

include hb ho

end

/-- The numbering of the locks does not show in the shapes. -/
theorem Renamed.shapes {rename : MyId → MyId} {member member' found found' : Member} {maxHypoLen : Nat}
    (hr : Renamed rename member member') (hb : Built member found (Enumerated member maxHypoLen))
    (hb' : Built member' found' (Enumerated member' maxHypoLen)) : found'.shapes = found.shapes := by
  ext ⟨k, r⟩
  rw [hb.mem_shapes, hb'.mem_shapes]
  constructor
  · rintro ⟨h', hh', rfl, rfl⟩
    obtain ⟨h, hh, hp⟩ := hr.exists_preimage hh'
    exact ⟨h, hh, by rw [← hp.length_eq, List.length_map], (hr.orderedSupport hb hb' hh hh' hp).symm⟩
  · rintro ⟨h, hh, rfl, rfl⟩
    obtain ⟨h', hh', hp⟩ := hr.exists_image hh
    exact ⟨h', hh', by rw [← hp.length_eq, List.length_map], hr.orderedSupport hb hb' hh hh' hp⟩

/-- What the sharpen and the bottom-up callback do with a hypothesis. -/
inductive Verdict where
  | save
  | replace
  | drop

namespace Verdict

def carryOut (verdict : Verdict) (member : Member) (s : Search) (x order : List MyId) (r : ℚ) :
    Search × List (List MyId) :=
  match verdict with
  | save => (s.save x order, member.graph.children x)
  | replace => ({ s.replace x order with relSupportWinner := r }, member.graph.children x)
  | drop => (s, [])

/-- What is in front afterwards, and with which support. -/
def front {α : Type} : Verdict → α → α → α
  | replace, _, new => new
  | _, old, _ => old

def pushed {α : Type} : Verdict → List α → List α
  | drop, _ => []
  | _, children => children

end Verdict

/-- A callback that looks at lengths and supports only. -/
def judge (verdict : Nat → ℚ → Nat → ℚ → Verdict) : Callback :=
  fun member s x order r => (verdict s.frontSize s.relSupportWinner x.length r).carryOut member s x order r

section

variable {member₀ member : Member} {maxHypoLen : Nat}

theorem Fronted.frontSize {s : Search} {w : List MyId} (h : Fronted member₀ member maxHypoLen s w) :
    s.frontSize = w.length := by
  obtain ⟨rest, hfront⟩ := h.front
  simp [Search.frontSize, hfront]

/-- One hypothesis. -/
theorem Fronted.carryOut {s : Search} {w x : List MyId} (h : Fronted member₀ member maxHypoLen s w)
    (hx : Enumerated member₀ maxHypoLen x) (verdict : Verdict) (r : ℚ) :
    ∃ t, verdict.carryOut member s x (member.bestOrder x) r = (t, verdict.pushed (member.graph.children x)) ∧
      Fronted member₀ member maxHypoLen t (verdict.front w x) ∧
      t.relSupportWinner = verdict.front s.relSupportWinner r := by
  cases verdict with
  | save =>
    obtain ⟨rest, hfront⟩ := h.front
    refine ⟨_, rfl, ⟨Search.save_front hfront, ?_, h.enumerated⟩, Search.save_support _ _ _⟩
    rw [Search.save_found]
    exact h.found
  | replace => exact ⟨_, rfl, ⟨⟨[], rfl⟩, rfl, hx⟩, rfl⟩
  | drop => exact ⟨s, rfl, h, rfl⟩

variable (hb : Built member₀ member (Enumerated member₀ maxHypoLen)) (ho : member₀.Observed)

include hb ho

end

/-- Two searches side by side: what is in front of the second one is what is in front of the
first one, renamed, and has the same support. -/
structure SideBySide (rename : MyId → MyId) (member member' found found' : Member) (maxHypoLen : Nat)
    (s t : Search) (w : List MyId) : Prop where
  left : Fronted member found maxHypoLen s w
  right : Fronted member' found' maxHypoLen t (w.map rename)
  support : s.relSupportWinner = t.relSupportWinner

section

variable {rename : MyId → MyId} {member member' found found' : Member} {maxHypoLen : Nat}
  (hr : Renamed rename member member')
  (hmono : ∀ x y, member.Holds x → member.Holds y → x < y → rename x < rename y)
  (hb : Built member found (Enumerated member maxHypoLen))
  (hb' : Built member' found' (Enumerated member' maxHypoLen))

include hr hmono hb hb'

/-- The children of a hypothesis and of its image correspond. -/
theorem Renamed.children_related {x : List MyId} (hx : Enumerated member maxHypoLen x) :
    List.Forall₂ (fun h h' => Enumerated member maxHypoLen h ∧ h' = h.map rename) (found.graph.children x)
      (found'.graph.children (x.map rename)) := by
  rw [hr.children hmono hb hb' hx, List.forall₂_map_right_iff, List.forall₂_same]
  exact fun h hh => ⟨((hb.graph x h).mp hh).1, rfl⟩

/-- One hypothesis and its image. Both callbacks see the same lengths and supports. -/
theorem SideBySide.step {s t : Search} {w x : List MyId}
    (h : SideBySide rename member member' found found' maxHypoLen s t w) (hx : Enumerated member maxHypoLen x)
    (verdict : Nat → ℚ → Nat → ℚ → Verdict) :
    ∃ s' p t' p' w', examine found (judge verdict) s x = (s', p) ∧
      examine found' (judge verdict) t (x.map rename) = (t', p') ∧
      SideBySide rename member member' found found' maxHypoLen s' t' w' ∧
      List.Forall₂ (fun h h' => Enumerated member maxHypoLen h ∧ h' = h.map rename) p p' := by
  have himage := (hr.enumerated_iff hmono).mpr ⟨x, hx, rfl⟩
  have hsupp := hr.orderedSupport hb hb' hx himage (List.Perm.refl _)
  have hsame : verdict t.frontSize t.relSupportWinner (x.map rename).length (found'.orderedSupport (x.map rename)) =
      verdict s.frontSize s.relSupportWinner x.length (found.orderedSupport x) := by
    rw [h.right.frontSize, h.left.frontSize, List.length_map, List.length_map, hsupp, h.support]
  rw [examine_eq, examine_eq, judge, judge, hsame]
  generalize verdict s.frontSize s.relSupportWinner x.length (found.orderedSupport x) = v
  obtain ⟨s', hs, hfs, hrs⟩ := h.left.carryOut hx v (found.orderedSupport x)
  obtain ⟨t', ht, hft, hrt⟩ := h.right.carryOut himage v (found'.orderedSupport (x.map rename))
  refine ⟨s', _, t', _, _, hs, ht, ⟨hfs, ?_, by rw [hrs, hrt, h.support, hsupp]⟩, ?_⟩
  · cases v <;> exact hft
  · cases v with
    | save => exact hr.children_related hmono hb hb' hx
    | replace => exact hr.children_related hmono hb hb' hx
    | drop => exact .nil

end

section

variable {rename : MyId → MyId} {member member' found found' : Member} {maxHypoLen : Nat}
  (hr : Renamed rename member member') (hb : Built member found (Enumerated member maxHypoLen))
  (hb' : Built member' found' (Enumerated member' maxHypoLen)) (ho : member.Observed) (ho' : member'.Observed)

include hr hb hb' ho ho'

end

end LockDoc.Hypothesizer
