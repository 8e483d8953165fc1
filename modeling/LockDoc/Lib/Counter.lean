import LockDoc.Lib.Dict
import Mathlib

/-!
# Counts by key

A dictionary from keys to numbers in which no key stands twice. Numbers may be set or added,
and the counts of one counter may be added to another. A counter that is set from a list
with a key twice forgets the earlier number. At the end, two ways to label the items of a
list: when the sums under all labels agree, the labels do.
-/

structure Counter (κ : Type) where
  entries : Dict κ Nat
  nodup : (entries.map Prod.fst).Nodup

/-- What a list of pairs has under a key, every pair counted. -/
def sumUnder {κ : Type} [DecidableEq κ] (k : κ) (es : List (κ × Nat)) : Nat :=
  (es.map fun e => if e.1 = k then e.2 else 0).sum

namespace Counter

variable {κ : Type} [DecidableEq κ]

def empty : Counter κ := ⟨[], List.nodup_nil⟩

def count (c : Counter κ) (k : κ) : Nat := (c.entries.get? k).getD 0

def total (c : Counter κ) : Nat := (c.entries.map Prod.snd).sum

theorem keys_set (d : Dict κ Nat) (k : κ) (n : Nat) :
    (d.set k n).map Prod.fst = if k ∈ d.map Prod.fst then d.map Prod.fst else d.map Prod.fst ++ [k] := by
  unfold Dict.set
  split
  · rw [List.map_map]
    refine List.map_congr_left fun e _ => ?_
    rw [Function.comp_apply]
    split
    · rename_i he
      exact he.symm
    · rfl
  · rw [List.map_append, List.map_singleton]

def set (c : Counter κ) (k : κ) (n : Nat) : Counter κ where
  entries := c.entries.set k n
  nodup := by
    rw [keys_set]
    split
    · exact c.nodup
    · rename_i hk
      exact List.nodup_append.mpr ⟨c.nodup, List.nodup_singleton k, fun a ha b hb he =>
        hk (List.mem_singleton.mp hb ▸ he ▸ ha)⟩

def add (c : Counter κ) (k : κ) (n : Nat) : Counter κ := c.set k (c.count k + n)

def addAll (c : Counter κ) (es : List (κ × Nat)) : Counter κ := es.foldl (fun c e => c.add e.1 e.2) c

/-- The last number that a list has for a key. -/
def ofList (es : List (κ × Nat)) : Counter κ := es.foldl (fun c e => c.set e.1 e.2) empty

theorem count_set (c : Counter κ) (k k' : κ) (n : Nat) : (c.set k n).count k' = if k' = k then n else c.count k' := by
  rw [count, set, Dict.get?_set]
  split
  · rfl
  · rfl

theorem total_map {d : Dict κ Nat} {k : κ} (hd : (d.map Prod.fst).Nodup) (hk : k ∈ d.map Prod.fst) (n : Nat) :
    ((d.map fun e => if e.1 = k then (k, n) else e).map Prod.snd).sum + (d.get? k).getD 0 =
      (d.map Prod.snd).sum + n := by
  induction d with
  | nil => cases hk
  | cons e d ih =>
    rw [List.map_cons, List.nodup_cons] at hd
    rw [Dict.get?_cons_eq]
    by_cases he : e.1 = k
    · have hrest : (d.map fun e => if e.1 = k then (k, n) else e) = d := by
        conv_rhs => rw [← List.map_id d]
        refine List.map_congr_left fun x hx => if_neg fun hxk => hd.1 ?_
        rw [he, ← hxk]
        exact List.mem_map_of_mem hx
      rw [List.map_cons, hrest, if_pos he, if_pos he.symm]
      simp only [List.map_cons, List.sum_cons, Option.getD_some]
      omega
    · have ih := ih hd.2 ((List.mem_cons.mp hk).resolve_left (Ne.symm he))
      rw [List.map_cons, if_neg he, if_neg (Ne.symm he)]
      simp only [List.map_cons, List.sum_cons]
      omega

theorem total_set (c : Counter κ) (k : κ) (n : Nat) : (c.set k n).total + c.count k = c.total + n := by
  unfold total set count Dict.set
  split
  · rename_i hk
    exact total_map c.nodup hk n
  · rename_i hk
    rw [Dict.get?_of_not_mem hk]
    simp

theorem count_add (c : Counter κ) (k k' : κ) (n : Nat) :
    (c.add k n).count k' = c.count k' + if k = k' then n else 0 := by
  rw [add, count_set]
  by_cases hk : k' = k
  · simp [hk]
  · simp [hk, Ne.symm hk]

theorem total_add (c : Counter κ) (k : κ) (n : Nat) : (c.add k n).total = c.total + n := by
  have hset := total_set c k (c.count k + n)
  rw [add]
  omega

theorem count_addAll (c : Counter κ) (es : List (κ × Nat)) (k : κ) :
    (c.addAll es).count k = c.count k + sumUnder k es := by
  induction es generalizing c with
  | nil => rfl
  | cons e es ih =>
    rw [addAll, List.foldl_cons, ← addAll, ih, count_add, sumUnder, sumUnder, List.map_cons, List.sum_cons]
    omega

theorem total_addAll (c : Counter κ) (es : List (κ × Nat)) :
    (c.addAll es).total = c.total + (es.map Prod.snd).sum := by
  induction es generalizing c with
  | nil => rfl
  | cons e es ih =>
    rw [addAll, List.foldl_cons, ← addAll, ih, total_add, List.map_cons, List.sum_cons]
    omega

/-- The entries of a counter have under a key what the counter counts. -/
theorem sumUnder_entries (c : Counter κ) (k : κ) : sumUnder k c.entries = c.count k := by
  obtain ⟨d, hd⟩ := c
  rw [count]
  induction d with
  | nil => rfl
  | cons e d ih =>
    rw [List.map_cons, List.nodup_cons] at hd
    have ih := ih hd.2
    rw [Dict.get?_cons_eq]
    rw [sumUnder, List.map_cons, List.sum_cons]
    change _ + sumUnder k d = _
    rw [ih]
    by_cases he : e.1 = k
    · rw [if_pos he, if_pos he.symm, Dict.get?_of_not_mem (he ▸ hd.1)]
      rfl
    · rw [if_neg he, if_neg (Ne.symm he)]
      exact Nat.zero_add _

section

variable {es : List (κ × Nat)}

theorem ofList_append (es : List (κ × Nat)) (e : κ × Nat) : ofList (es ++ [e]) = (ofList es).set e.1 e.2 := by
  rw [ofList, List.foldl_append]
  rfl

theorem count_ofList_pos (hpos : ∀ e ∈ es, 0 < e.2) {k : κ} (hk : k ∈ es.map Prod.fst) : 0 < (ofList es).count k := by
  induction es using List.reverseRecOn with
  | nil => cases hk
  | append_singleton es e ih =>
    rw [ofList_append, count_set]
    split
    · exact hpos e (by simp)
    · rename_i hne
      refine ih (fun e he => hpos e (List.mem_append_left _ he)) ?_
      rw [List.map_append, List.map_singleton, List.mem_append, List.mem_singleton] at hk
      exact hk.resolve_right hne

theorem count_ofList_zero {k : κ} (hk : k ∉ es.map Prod.fst) : (ofList es).count k = 0 := by
  induction es using List.reverseRecOn with
  | nil => rfl
  | append_singleton es e ih =>
    rw [List.map_append, List.map_singleton, List.mem_append, List.mem_singleton, not_or] at hk
    rw [ofList_append, count_set, if_neg hk.2, ih hk.1]

theorem total_ofList_le (es : List (κ × Nat)) : (ofList es).total ≤ (es.map Prod.snd).sum := by
  induction es using List.reverseRecOn with
  | nil => exact Nat.le_refl 0
  | append_singleton es e ih =>
    have hset := total_set (ofList es) e.1 e.2
    rw [ofList_append, List.map_append, List.sum_append, List.map_singleton, List.sum_singleton]
    omega

/-- No number of a list is forgotten exactly when no key stands in it twice. -/
theorem total_ofList_iff (hpos : ∀ e ∈ es, 0 < e.2) :
    (ofList es).total = (es.map Prod.snd).sum ↔ (es.map Prod.fst).Nodup := by
  induction es using List.reverseRecOn with
  | nil => exact iff_of_true rfl List.nodup_nil
  | append_singleton es e ih =>
    have hinit : ∀ e ∈ es, 0 < e.2 := fun e he => hpos e (List.mem_append_left _ he)
    have ih := ih hinit
    have hset := total_set (ofList es) e.1 e.2
    have hle := total_ofList_le es
    rw [ofList_append, List.map_append, List.sum_append, List.map_singleton, List.sum_singleton, List.map_append,
      List.map_singleton]
    constructor
    · intro h
      have hfresh : e.1 ∉ es.map Prod.fst := fun hmem => by
        have := count_ofList_pos hinit hmem
        omega
      exact List.nodup_append.mpr ⟨ih.mp (by omega), List.nodup_singleton _, fun a ha b hb he =>
        hfresh (List.mem_singleton.mp hb ▸ he ▸ ha)⟩
    · intro h
      obtain ⟨hes, -, hfresh⟩ := List.nodup_append.mp h
      have hzero := count_ofList_zero fun hmem => hfresh _ hmem _ (List.mem_singleton_self _) rfl
      have htotal := ih.mpr hes
      omega

/-- A list without a key twice is counted as it is. -/
theorem count_ofList (h : (es.map Prod.fst).Nodup) (k : κ) : (ofList es).count k = sumUnder k es := by
  induction es using List.reverseRecOn with
  | nil => rfl
  | append_singleton es e ih =>
    rw [List.map_append, List.map_singleton] at h
    obtain ⟨hes, -, hfresh⟩ := List.nodup_append.mp h
    have ih := ih hes
    rw [ofList_append, count_set, sumUnder, List.map_append, List.sum_append, List.map_singleton, List.sum_singleton]
    change _ = sumUnder k es + _
    rw [← ih]
    by_cases hk : k = e.1
    · rw [if_pos hk, if_pos hk.symm, count_ofList_zero fun hmem => hfresh _ hmem _ (List.mem_singleton_self _) hk]
      omega
    · rw [if_neg hk, if_neg (Ne.symm hk)]
      omega

end

section

variable {ι β γ : Type} [DecidableEq β]

theorem eq_of_sum_eq {xs : List ι} {f g : ι → Nat} (hle : ∀ x ∈ xs, f x ≤ g x) (hsum : (xs.map f).sum = (xs.map g).sum) :
    ∀ x ∈ xs, f x = g x := by
  intro x hx
  by_contra hne
  have hlt : (xs.map f).sum < (xs.map g).sum :=
    List.sum_lt_sum f g hle ⟨x, hx, Nat.lt_of_le_of_ne (hle x hx) hne⟩
  omega

/-- Labels that never have a lower rank, and are the same where they have the same rank, are the
same everywhere when the sums of all weights under every label are. -/
theorem labels_eq (xs : List ι) (a b : ι → β) (w : γ → ι → Nat) (rank : β → Nat)
    (hrank : ∀ x ∈ xs, rank (a x) ≤ rank (b x) ∧ (rank (a x) = rank (b x) → a x = b x))
    (hpos : ∀ x ∈ xs, ∃ c, 0 < w c x)
    (hsum : ∀ q c, (xs.map fun x => if b x = q then w c x else 0).sum =
      (xs.map fun x => if a x = q then w c x else 0).sum) : ∀ x ∈ xs, a x = b x := by
  classical
  by_contra hall
  simp only [not_forall] at hall
  obtain ⟨x, hx, hne⟩ := hall
  -- among the items whose labels differ, one whose second label has the highest rank
  have hwrong : (xs.toFinset.filter fun x => a x ≠ b x).Nonempty := ⟨x, by simp [hx, hne]⟩
  obtain ⟨m, hm, hmax⟩ := Finset.exists_max_image _ (fun x => rank (b x)) hwrong
  obtain ⟨hm, hmne⟩ := Finset.mem_filter.mp hm
  have hm : m ∈ xs := List.mem_toFinset.mp hm
  obtain ⟨c, hc⟩ := hpos m hm
  have hlt : (xs.map fun x => if a x = b m then w c x else 0).sum <
      (xs.map fun x => if b x = b m then w c x else 0).sum := by
    refine List.sum_lt_sum _ _ (fun x hx => ?_) ⟨m, hm, ?_⟩
    · by_cases ha : a x = b m
      · have hb : b x = b m := by
          by_contra hb
          have hdiff : a x ≠ b x := fun he => hb (he ▸ ha)
          have hle := hmax x (Finset.mem_filter.mpr ⟨List.mem_toFinset.mpr hx, hdiff⟩)
          obtain ⟨hge, heq⟩ := hrank x hx
          exact hdiff (heq (Nat.le_antisymm hge (ha ▸ hle)))
        rw [if_pos ha, if_pos hb]
      · rw [if_neg ha]
        exact Nat.zero_le _
    · rw [if_neg hmne, if_pos rfl]
      exact hc
  rw [hsum] at hlt
  exact Nat.lt_irrefl _ hlt

end

end Counter
