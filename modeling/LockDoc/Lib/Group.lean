import Mathlib.Data.List.Dedup
import Mathlib.Data.List.Perm.Basic
import Mathlib.Data.List.Flatten

/-!
# Grouping rows

`GROUP BY` on a list of rows: one group for each key, with the rows that have it. Groups take
a list apart, and what aggregates say about them adds up to what holds of the list.
-/
namespace Group

variable {α β κ : Type} [DecidableEq κ]

/-- The groups of a list by a key. -/
def groups (key : α → κ) (xs : List α) : List (κ × List α) :=
  (xs.map key).dedup.map fun k => (k, xs.filter (fun x => key x = k))

theorem mem_groups {key : α → κ} {xs : List α} {g : κ × List α} :
    g ∈ groups key xs ↔ (∃ x ∈ xs, key x = g.1) ∧ g.2 = xs.filter (fun x => key x = g.1) := by
  simp only [groups, List.mem_map, List.mem_dedup]
  constructor
  · rintro ⟨k, hk, rfl⟩
    exact ⟨hk, rfl⟩
  · rintro ⟨hk, hg⟩
    exact ⟨g.1, hk, by rw [← hg]⟩

theorem group_of_mem (key : α → κ) {xs : List α} {x : α} (hx : x ∈ xs) :
    (key x, xs.filter (fun y => key y = key x)) ∈ groups key xs :=
  mem_groups.mpr ⟨⟨x, hx, rfl⟩, rfl⟩

theorem key_of_mem {key : α → κ} {xs : List α} {g : κ × List α} (hg : g ∈ groups key xs) {x : α} (hx : x ∈ g.2) :
    x ∈ xs ∧ key x = g.1 := by
  rw [(mem_groups.mp hg).2, List.mem_filter, decide_eq_true_eq] at hx
  exact hx

theorem flatMap_filter_perm {key : α → κ} {ks : List κ} (hnodup : ks.Nodup) {xs : List α}
    (hall : ∀ x ∈ xs, key x ∈ ks) : (ks.flatMap fun k => xs.filter (fun x => key x = k)).Perm xs := by
  induction ks generalizing xs with
  | nil =>
    have hnil : xs = [] := List.eq_nil_iff_forall_not_mem.mpr fun x hx => by simpa using hall x hx
    subst hnil
    exact List.Perm.refl _
  | cons k ks ih =>
    rw [List.nodup_cons] at hnodup
    have hrest : (ks.flatMap fun k' => xs.filter (fun x => key x = k')) =
        ks.flatMap fun k' => (xs.filter (fun x => !decide (key x = k))).filter (fun x => key x = k') := by
      refine List.flatMap_congr fun k' hk' => ?_
      rw [List.filter_filter]
      refine List.filter_congr fun x _ => ?_
      by_cases he : key x = k'
      · have hne : key x ≠ k := fun h => hnodup.1 (h ▸ he ▸ hk')
        simp [he ▸ hne, he]
      · simp [he]
    rw [List.flatMap_cons, hrest]
    refine List.Perm.trans (List.Perm.append_left _ (ih hnodup.2 ?_)) (List.filter_append_perm _ xs)
    intro x hx
    rw [List.mem_filter] at hx
    have hne : key x ≠ k := by simpa using hx.2
    exact (List.mem_cons.mp (hall x hx.1)).resolve_left hne

/-- The groups together are the list. -/
theorem flatMap_groups_perm (key : α → κ) (xs : List α) : ((groups key xs).flatMap Prod.snd).Perm xs := by
  rw [groups, List.flatMap_map]
  exact flatMap_filter_perm (List.nodup_dedup _) fun x hx => List.mem_dedup.mpr (List.mem_map_of_mem hx)

/-- What is said of every group in terms of its rows is said of the list. -/
theorem flatMap_groups_map_perm (key : α → κ) (f : κ → α → β) (xs : List α) :
    ((groups key xs).flatMap fun g => g.2.map (f g.1)).Perm (xs.map fun x => f (key x) x) := by
  have hsame : ((groups key xs).flatMap fun g => g.2.map (f g.1)) =
      ((groups key xs).flatMap Prod.snd).map fun x => f (key x) x := by
    rw [List.map_flatMap]
    refine List.flatMap_congr fun g hg => List.map_congr_left fun x hx => ?_
    rw [(key_of_mem hg hx).2]
  rw [hsame]
  exact (flatMap_groups_perm key xs).map _

/-- `COUNT(*)`: every group stands for as many rows as it counts. -/
theorem replicate_groups_perm (key : α → κ) (f : κ → β) (xs : List α) :
    ((groups key xs).flatMap fun g => List.replicate g.2.length (f g.1)).Perm (xs.map fun x => f (key x)) := by
  have hsame : ((groups key xs).flatMap fun g => List.replicate g.2.length (f g.1)) =
      (groups key xs).flatMap fun g => g.2.map (fun _ => f g.1) := by
    refine List.flatMap_congr fun g _ => ?_
    rw [List.map_const']
  rw [hsame]
  exact flatMap_groups_map_perm key (fun k _ => f k) xs

/-- The distinct values of a group are the pairs of its key that are distinct in the list. -/
theorem length_distinct [DecidableEq β] (key : α → κ) (val : α → β) (xs : List α) (k : κ) :
    (((xs.map fun x => (key x, val x)).dedup).filter fun p => p.1 = k).length =
      ((xs.filter fun x => key x = k).map val).dedup.length := by
  have hperm : (((xs.map fun x => (key x, val x)).dedup).filter fun p => p.1 = k).Perm
      (((xs.filter fun x => key x = k).map val).dedup.map fun v => (k, v)) := by
    have hinj : Function.Injective fun v : β => (k, v) := fun v v' h => congrArg Prod.snd h
    apply (List.perm_ext_iff_of_nodup ((List.nodup_dedup _).filter _) ((List.nodup_dedup _).map hinj)).mpr
    rintro ⟨k', v⟩
    simp only [List.mem_filter, List.mem_dedup, List.mem_map, Prod.mk.injEq, decide_eq_true_eq]
    constructor
    · rintro ⟨⟨x, hx, rfl, rfl⟩, rfl⟩
      exact ⟨val x, ⟨x, ⟨hx, rfl⟩, rfl⟩, rfl, rfl⟩
    · rintro ⟨-, ⟨x, ⟨hx, rfl⟩, rfl⟩, rfl, rfl⟩
      exact ⟨⟨x, hx, rfl, rfl⟩, rfl⟩
  rw [hperm.length_eq, List.length_map]

/-- `COUNT(DISTINCT …)`: every group stands for as many pairs of its key as there are distinct ones. -/
theorem replicate_distinct_perm {γ : Type} [DecidableEq β] (key : α → κ) (val : α → β) (f : κ → γ) (xs : List α) :
    ((groups key xs).flatMap fun g => List.replicate (g.2.map val).dedup.length (f g.1)).Perm
      (((xs.map fun x => (key x, val x)).dedup).map fun p => f p.1) := by
  let pairs := (xs.map fun x => (key x, val x)).dedup
  have hall : ∀ p ∈ pairs, p.1 ∈ (xs.map key).dedup := by
    intro p hp
    obtain ⟨x, hx, rfl⟩ := List.mem_map.mp (List.mem_dedup.mp hp)
    exact List.mem_dedup.mpr (List.mem_map_of_mem hx)
  have hsame : ((groups key xs).flatMap fun g => List.replicate (g.2.map val).dedup.length (f g.1)) =
      ((xs.map key).dedup.flatMap fun k => pairs.filter fun p => p.1 = k).map fun p => f p.1 := by
    rw [groups, List.flatMap_map, List.map_flatMap]
    refine List.flatMap_congr fun k _ => ?_
    have hkey : ∀ y ∈ (pairs.filter fun p => p.1 = k).map fun p => f p.1, y = f k := by
      intro y hy
      obtain ⟨p, hp, rfl⟩ := List.mem_map.mp hy
      rw [of_decide_eq_true (List.mem_filter.mp hp).2]
    rw [List.eq_replicate_iff.mpr ⟨List.length_map _, hkey⟩]
    exact congrArg (List.replicate · (f k)) (length_distinct key val xs k).symm
  rw [hsame]
  exact (flatMap_filter_perm (List.nodup_dedup _) hall).map _

end Group
