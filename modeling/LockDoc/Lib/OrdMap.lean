import Mathlib

/-!
# Ordered maps with a default value

Facts about `Std.ExtTreeMap` that the standard library does not state: the sum of
a weight over all values, how one insertion changes it, the first entry in key
order with some property, and the last entry up to a key. A missing key counts as the default value, which
weighs nothing.
-/
namespace OrdMap

open Std

variable {κ β : Type} [Ord κ] [TransOrd κ]

theorem getD_eq (t : ExtTreeMap κ β) (k : κ) (d : β) : t.getD k d = t[k]?.getD d :=
  ExtTreeMap.getD_eq_getD_getElem?

/-- The entry with the greatest key up to `k` is the last of the list that qualifies. -/
theorem getEntryLE?_eq_findRev? (t : ExtTreeMap κ β) (k : κ) :
    t.getEntryLE? k = t.toList.findRev? (fun kv => (compare kv.1 k).isLE) := by
  obtain ⟨t⟩ := t
  induction t using ExtDTreeMap.inductionOn with
  | mk t =>
    change DTreeMap.Internal.Impl.Const.getEntryLE? k t.inner =
      (DTreeMap.Internal.Impl.Const.toList t.inner).findRev? _
    rw [DTreeMap.Internal.Impl.Const.getEntryLE?_eq_map, DTreeMap.Internal.Impl.getEntryLE?_eq_findRev? t.2.ordered,
      DTreeMap.Internal.Impl.Const.toList_eq_toListModel_map]
    simp only [List.findRev?_eq_find?_reverse, ← List.map_reverse, List.find?_map]
    rfl

variable [LawfulEqOrd κ]

theorem getD_insert_eq [DecidableEq κ] (t : ExtTreeMap κ β) (k k' : κ) (v d : β) :
    (t.insert k v).getD k' d = if k' = k then v else t.getD k' d := by
  rw [ExtTreeMap.getD_insert]
  by_cases h : k' = k
  · simp [h]
  · have hne : compare k k' ≠ .eq := by
      intro he
      exact h (LawfulEqOrd.eq_of_compare he).symm
    simp [h, hne]

theorem getElem?_insert_eq [DecidableEq κ] (t : ExtTreeMap κ β) (k k' : κ) (v : β) :
    (t.insert k v)[k']? = if k' = k then some v else t[k']? := by
  rw [ExtTreeMap.getElem?_insert]
  simp only [LawfulEqOrd.compare_eq_iff_eq, @eq_comm κ k]

theorem getElem?_erase_eq [DecidableEq κ] (t : ExtTreeMap κ β) (k k' : κ) :
    (t.erase k)[k']? = if k' = k then none else t[k']? := by
  rw [ExtTreeMap.getElem?_erase]
  simp only [LawfulEqOrd.compare_eq_iff_eq, @eq_comm κ k]

theorem map_insert {γ : Type} [DecidableEq κ] (t : ExtTreeMap κ β) (k : κ) (v : β) (f : β → γ) :
    (t.insert k v).map (fun _ => f) = (t.map fun _ => f).insert k (f v) := by
  apply ExtTreeMap.ext_getElem?
  intro k'
  rw [ExtTreeMap.getElem?_map, getElem?_insert_eq, getElem?_insert_eq, ExtTreeMap.getElem?_map]
  split <;> rfl

/-- The default value is mapped as well. -/
theorem getD_map {γ : Type} (t : ExtTreeMap κ β) (k : κ) (d : β) (f : β → γ) :
    (t.map fun _ => f).getD k (f d) = f (t.getD k d) := by
  rw [getD_eq, getD_eq, ExtTreeMap.getElem?_map, Option.getD_map]

theorem nodup_keys (t : ExtTreeMap κ β) : (t.toList.map Prod.fst).Nodup := by
  refine List.pairwise_map.mpr (t.distinct_keys_toList.imp ?_)
  intro a b hab he
  exact hab (he ▸ ReflOrd.compare_self)

theorem nodup_toList (t : ExtTreeMap κ β) : t.toList.Nodup := (nodup_keys t).of_map _

theorem getEntryLE?_eq_none {t : ExtTreeMap κ β} {k c : κ} {w : β} (h : t.getEntryLE? k = none)
    (hc : t[c]? = some w) : ¬(compare c k).isLE := by
  rw [getEntryLE?_eq_findRev?, List.findRev?_eq_find?_reverse, List.find?_eq_none] at h
  exact h (c, w) (List.mem_reverse.mpr (ExtTreeMap.mem_toList_iff_getElem?_eq_some.mpr hc))

theorem getEntryLE?_eq_some {t : ExtTreeMap κ β} {k b : κ} {v : β} (h : t.getEntryLE? k = some (b, v)) :
    t[b]? = some v ∧ (compare b k).isLE ∧
      ∀ (c : κ) (w : β), t[c]? = some w → (compare c k).isLE → (compare c b).isLE := by
  rw [getEntryLE?_eq_findRev?, List.findRev?_eq_find?_reverse, List.find?_eq_some_iff_append] at h
  obtain ⟨hle, above, below, hsplit, habove⟩ := h
  have hlist : t.toList = below.reverse ++ (b, v) :: above.reverse := by
    rw [← List.reverse_reverse t.toList, hsplit]
    simp
  have hmem : (b, v) ∈ t.toList := by simp [hlist]
  refine ⟨ExtTreeMap.mem_toList_iff_getElem?_eq_some.mp hmem, hle, ?_⟩
  intro c w hc hck
  have hcm : (c, w) ∈ t.toList := ExtTreeMap.mem_toList_iff_getElem?_eq_some.mpr hc
  have hord : t.toList.Pairwise (fun x y => compare x.1 y.1 = .lt) := ExtTreeMap.ordered_keys_toList
  rw [hlist] at hcm hord
  rcases List.mem_append.mp hcm with hb | ha
  · have hlt := (List.pairwise_append.mp hord).2.2 (c, w) hb (b, v) (by simp)
    simp only at hlt
    rw [hlt]
    rfl
  · rcases List.mem_cons.mp ha with he | ha
    · cases he
      exact Std.ReflCmp.isLE_rfl
    · exact absurd hck (by simpa using habove (c, w) (List.mem_reverse.mp ha))

theorem erase_of_none {t : ExtTreeMap κ β} {k : κ} (h : t[k]? = none) : t.erase k = t := by
  apply ExtTreeMap.ext_getElem?
  intro a
  rw [ExtTreeMap.getElem?_erase]
  split
  · rename_i hc
    rw [← LawfulEqOrd.eq_of_compare hc, h]
  · rfl

theorem erase_insert (t : ExtTreeMap κ β) (k : κ) (v : β) : (t.insert k v).erase k = t.erase k := by
  apply ExtTreeMap.ext_getElem?
  intro a
  rw [ExtTreeMap.getElem?_erase, ExtTreeMap.getElem?_erase, ExtTreeMap.getElem?_insert]
  split <;> rfl

/-- The weight of all values together. -/
def total (f : β → Nat) (t : ExtTreeMap κ β) : Nat := (t.toList.map (fun kv => f kv.2)).sum

omit [LawfulEqOrd κ] in
theorem total_map {γ : Type} (f : γ → Nat) (g : β → γ) (t : ExtTreeMap κ β) :
    total f (t.map fun _ => g) = total (f ∘ g) t := by
  rw [total, ExtTreeMap.toList_map, List.map_map]
  rfl

/-- The entries of a map, with the one of a given key in front. -/
theorem toList_perm_cons [DecidableEq κ] (t : ExtTreeMap κ β) {k : κ} {v : β} (h : t[k]? = some v) :
    t.toList.Perm ((k, v) :: (t.erase k).toList) := by
  refine (List.perm_ext_iff_of_nodup (nodup_toList t) ?_).mpr ?_
  · refine List.nodup_cons.mpr ⟨?_, nodup_toList _⟩
    rw [ExtTreeMap.mem_toList_iff_getElem?_eq_some]
    simp
  · rintro ⟨a, b⟩
    rw [List.mem_cons, ExtTreeMap.mem_toList_iff_getElem?_eq_some,
      ExtTreeMap.mem_toList_iff_getElem?_eq_some, getElem?_erase_eq]
    by_cases ha : a = k
    · subst ha
      simp [h, eq_comm]
    · simp [ha]

/-- A new key goes in front. -/
theorem toList_insert_perm [DecidableEq κ] {t : ExtTreeMap κ β} {k : κ} (h : t[k]? = none) (v : β) :
    (t.insert k v).toList.Perm ((k, v) :: t.toList) := by
  have hp := toList_perm_cons (t.insert k v) (k := k) (v := v) (by simp)
  rwa [erase_insert, erase_of_none h] at hp

theorem total_eq_add_erase [DecidableEq κ] (f : β → Nat) (t : ExtTreeMap κ β) (k : κ) (d : β) (hd : f d = 0) :
    total f t = f (t.getD k d) + total f (t.erase k) := by
  cases h : t[k]? with
  | none =>
    rw [erase_of_none h, getD_eq, h]
    simp [hd]
  | some v =>
    have hp := (toList_perm_cons t h).map (fun kv => f kv.2)
    rw [getD_eq, h]
    simpa [total] using hp.sum_eq

/-- An insertion exchanges the weight of one key. -/
theorem total_insert [DecidableEq κ] (f : β → Nat) (t : ExtTreeMap κ β) (k : κ) (v d : β) (hd : f d = 0) :
    total f (t.insert k v) + f (t.getD k d) = total f t + f v := by
  have h₁ := total_eq_add_erase f (t.insert k v) k d hd
  have h₂ := total_eq_add_erase f t k d hd
  rw [erase_insert, getD_insert_eq, if_pos rfl] at h₁
  omega

theorem le_total [DecidableEq κ] (f : β → Nat) (t : ExtTreeMap κ β) (k : κ) (d : β) (hd : f d = 0) :
    f (t.getD k d) ≤ total f t := by
  have := total_eq_add_erase f t k d hd
  omega

/-- Nothing weighs anything exactly when no key does. -/
theorem total_eq_zero [DecidableEq κ] (f : β → Nat) (t : ExtTreeMap κ β) (d : β) (hd : f d = 0) :
    total f t = 0 ↔ ∀ k, f (t.getD k d) = 0 := by
  constructor
  · intro h k
    have := le_total f t k d hd
    omega
  · intro h
    apply List.sum_eq_zero
    simp only [List.mem_map, Prod.exists]
    rintro _ ⟨k, v, hv, rfl⟩
    have hk := h k
    rwa [getD_eq, ExtTreeMap.mem_toList_iff_getElem?_eq_some.mp hv] at hk

/-- If only one key weighs anything, it weighs everything. -/
theorem total_eq_of_others_zero [DecidableEq κ] (f : β → Nat) (t : ExtTreeMap κ β) (k : κ) (d : β)
    (hd : f d = 0) (h : ∀ k', k' ≠ k → f (t.getD k' d) = 0) : total f t = f (t.getD k d) := by
  rw [total_eq_add_erase f t k d hd]
  have hz : total f (t.erase k) = 0 := by
    rw [total_eq_zero f _ d hd]
    intro k'
    rw [ExtTreeMap.getD_erase]
    split
    · exact hd
    · rename_i hc
      refine h k' ?_
      rintro rfl
      exact hc ReflOrd.compare_self
  omega

/-- The counts of the keys with a property together. -/
def sumWhere (p : κ → Bool) (t : ExtTreeMap κ Nat) : Nat := ((t.toList.filter (fun kv => p kv.1)).map Prod.snd).sum

theorem sumWhere_erase [DecidableEq κ] (p : κ → Bool) (t : ExtTreeMap κ Nat) (k : κ) :
    sumWhere p t = (if p k then t.getD k 0 else 0) + sumWhere p (t.erase k) := by
  cases h : t[k]? with
  | none =>
    rw [erase_of_none h, getD_eq, h]
    simp
  | some v =>
    have hp := ((toList_perm_cons t h).filter (fun kv => p kv.1)).map Prod.snd
    rw [getD_eq, h]
    rw [sumWhere, hp.sum_eq]
    by_cases hk : p k <;> simp [hk, sumWhere]

/-- Counting at a key. -/
theorem sumWhere_insert [DecidableEq κ] (p : κ → Bool) (t : ExtTreeMap κ Nat) (k : κ) (n : Nat) :
    sumWhere p (t.insert k (t.getD k 0 + n)) = sumWhere p t + if p k then n else 0 := by
  rw [sumWhere_erase p t k, sumWhere_erase p (t.insert k _) k, erase_insert, getD_insert_eq, if_pos rfl]
  split <;> omega

/-- No entry has the property. -/
theorem find?_eq_none {p : κ × β → Bool} {t : ExtTreeMap κ β} :
    t.toList.find? p = none ↔ ∀ k v, t[k]? = some v → p (k, v) = false := by
  rw [List.find?_eq_none]
  constructor
  · intro h k v hv
    simpa using h (k, v) (ExtTreeMap.mem_toList_iff_getElem?_eq_some.mpr hv)
  · rintro h ⟨k, v⟩ hv
    simp [h k v (ExtTreeMap.mem_toList_iff_getElem?_eq_some.mp hv)]

/-- The entry that is found has the property, and no smaller key has it. -/
theorem find?_eq_some {p : κ × β → Bool} {t : ExtTreeMap κ β} {k : κ} {v : β}
    (h : t.toList.find? p = some (k, v)) :
    t[k]? = some v ∧ p (k, v) = true ∧ ∀ k' v', t[k']? = some v' → compare k' k = .lt → p (k', v') = false := by
  obtain ⟨hp, as, bs, hl, has⟩ := List.find?_eq_some_iff_append.mp h
  have hmem : (k, v) ∈ t.toList := List.mem_of_find?_eq_some h
  refine ⟨ExtTreeMap.mem_toList_iff_getElem?_eq_some.mp hmem, hp, ?_⟩
  intro k' v' hv' hlt
  have hm := ExtTreeMap.mem_toList_iff_getElem?_eq_some.mpr hv'
  have ho := t.ordered_keys_toList
  rw [hl] at hm ho
  rcases List.mem_append.mp hm with hm | hm
  · simpa using has _ hm
  · rcases List.mem_cons.mp hm with hm | hm
    · cases hm
      rw [ReflOrd.compare_self] at hlt
      cases hlt
    · have hgt := (List.pairwise_cons.mp (List.pairwise_append.mp ho).2.1).1 _ hm
      rw [OrientedOrd.eq_swap, hgt] at hlt
      cases hlt

/-- Two maps that have a property at the same keys have it first at the same key. -/
theorem find?_key_congr {γ : Type} {p : β → Bool} {q : γ → Bool} {t : ExtTreeMap κ β} {u : ExtTreeMap κ γ} {d : β} {d' : γ}
    (hd : p d = false) (hd' : q d' = false) (h : ∀ k, p (t.getD k d) = q (u.getD k d')) :
    (t.toList.find? (fun kv => p kv.2)).map Prod.fst = (u.toList.find? (fun kv => q kv.2)).map Prod.fst := by
  -- A key with the property in one map has it in the other.
  have left : ∀ (k : κ) (v : β), t[k]? = some v → p v = true → ∃ w, u[k]? = some w ∧ q w = true := by
    intro k v hv hp
    have hk := h k
    rw [getD_eq, hv, Option.getD_some, hp, getD_eq] at hk
    cases hw : u[k]? with
    | none => rw [hw, Option.getD_none, hd'] at hk; cases hk
    | some w => rw [hw] at hk; exact ⟨w, rfl, hk.symm⟩
  have right : ∀ (k : κ) (w : γ), u[k]? = some w → q w = true → ∃ v, t[k]? = some v ∧ p v = true := by
    intro k w hw hq
    have hk := h k
    rw [getD_eq u, hw, Option.getD_some, hq, getD_eq] at hk
    cases hv : t[k]? with
    | none => rw [hv, Option.getD_none, hd] at hk; cases hk
    | some v => rw [hv] at hk; exact ⟨v, rfl, hk⟩
  cases ht : t.toList.find? (fun kv => p kv.2) with
  | none =>
    cases hu : u.toList.find? (fun kv => q kv.2) with
    | none => rfl
    | some kw =>
      obtain ⟨k, w⟩ := kw
      obtain ⟨hw, hq, -⟩ := find?_eq_some hu
      obtain ⟨v, hv, hp⟩ := right k w hw hq
      have := find?_eq_none.mp ht k v hv
      simp [hp] at this
  | some kv =>
    obtain ⟨k, v⟩ := kv
    obtain ⟨hv, hp, hmin⟩ := find?_eq_some ht
    obtain ⟨w, hw, hq⟩ := left k v hv hp
    cases hu : u.toList.find? (fun kv => q kv.2) with
    | none =>
      have := find?_eq_none.mp hu k w hw
      simp [hq] at this
    | some kw =>
      obtain ⟨k', w'⟩ := kw
      obtain ⟨hw', hq', hmin'⟩ := find?_eq_some hu
      obtain ⟨v', hv', hp'⟩ := right k' w' hw' hq'
      simp only [Option.map_some, Option.some.injEq]
      cases hc : compare k k' with
      | eq => exact LawfulEqOrd.eq_of_compare hc
      | lt =>
        have := hmin' k w hw hc
        simp [hq] at this
      | gt =>
        rw [OrientedOrd.eq_swap, Ordering.swap_eq_gt] at hc
        have := hmin k' v' hv' hc
        simp [hp'] at this

end OrdMap
