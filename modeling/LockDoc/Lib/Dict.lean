import Mathlib

/-!
# Dictionaries in the order of insertion

A dictionary whose keys keep the order in which they were set first. Collecting values under
two keys gives, for each outer key, the values in the order in which they came.
-/

abbrev Dict (κ ν : Type) := List (κ × ν)

namespace Dict

variable {κ μ ν : Type} [DecidableEq κ]

def get? (d : Dict κ ν) (k : κ) : Option ν := d.lookup k

def set (d : Dict κ ν) (k : κ) (v : ν) : Dict κ ν :=
  if k ∈ d.map Prod.fst then d.map fun e => if e.1 = k then (k, v) else e else d ++ [(k, v)]

theorem set_fresh {d : Dict κ ν} {k : κ} (h : k ∉ d.map Prod.fst) (v : ν) : d.set k v = d ++ [(k, v)] := if_neg h

theorem get?_cons_eq (e : κ × ν) (d : Dict κ ν) (k : κ) :
    get? (e :: d) k = if k = e.1 then some e.2 else get? d k := by
  obtain ⟨a, v⟩ := e
  rw [get?, get?, List.lookup_cons]
  by_cases hk : k = a
  · simp [hk]
  · simp [hk, beq_false_of_ne hk]

theorem get?_map_self {d : Dict κ ν} {k : κ} (h : k ∈ d.map Prod.fst) (v : ν) :
    get? (d.map fun e => if e.1 = k then (k, v) else e) k = some v := by
  induction d with
  | nil => cases h
  | cons e d ih =>
    rw [List.map_cons, get?_cons_eq]
    by_cases he : e.1 = k
    · simp [he]
    · rw [if_neg he, if_neg (Ne.symm he)]
      exact ih ((List.mem_cons.mp h).resolve_left (Ne.symm he))

theorem get?_map_ne {k k' : κ} (h : k' ≠ k) (d : Dict κ ν) (v : ν) :
    get? (d.map fun e => if e.1 = k then (k, v) else e) k' = get? d k' := by
  induction d with
  | nil => rfl
  | cons e d ih =>
    rw [List.map_cons, get?_cons_eq, get?_cons_eq, ih]
    by_cases he : e.1 = k
    · simp [he, h]
    · rw [if_neg he]

theorem get?_of_not_mem {d : Dict κ ν} {k : κ} (h : k ∉ d.map Prod.fst) : get? d k = none := by
  induction d with
  | nil => rfl
  | cons e d ih =>
    rw [List.map_cons, List.mem_cons, not_or] at h
    rw [get?_cons_eq, if_neg h.1, ih h.2]

theorem get?_set (d : Dict κ ν) (k k' : κ) (v : ν) :
    (d.set k v).get? k' = if k' = k then some v else d.get? k' := by
  unfold set
  split
  · rename_i h
    split
    · rename_i hk
      rw [hk, get?_map_self h]
    · rename_i hk
      exact get?_map_ne hk d v
  · rename_i h
    by_cases hk : k' = k
    · subst hk
      have hnone : d.lookup k' = none := get?_of_not_mem h
      simp [get?, List.lookup_append, hnone]
    · simp [get?, List.lookup_append, List.lookup_cons, hk, beq_false_of_ne hk]

/-- Change the value under a key, which starts as `init`. -/
def update (d : Dict κ ν) (init : ν) (k : κ) (f : ν → ν) : Dict κ ν := d.set k (f ((d.get? k).getD init))

/-- Every value changes what is under its key. -/
def accumulate {α : Type} (init : ν) (key : α → κ) (f : α → ν → ν) (xs : List α) : Dict κ ν :=
  xs.foldl (fun (d : Dict κ ν) x => d.update init (key x) (f x)) []

theorem accumulate_append {α : Type} (init : ν) (key : α → κ) (f : α → ν → ν) (xs : List α) (x : α) :
    accumulate init key f (xs ++ [x]) = (accumulate init key f xs).update init (key x) (f x) := by simp [accumulate]

/-- What has become of the value under a key. -/
theorem get?_accumulate {α : Type} (init : ν) (key : α → κ) (f : α → ν → ν) (xs : List α) (k : κ) :
    (accumulate init key f xs).get? k =
      if xs.any (fun x => key x = k) then some ((xs.filter fun x => key x = k).foldl (fun v x => f x v) init)
      else none := by
  induction xs using List.reverseRecOn with
  | nil => rfl
  | append_singleton xs x ih =>
    rw [accumulate_append, update, get?_set, List.any_append, List.filter_append, List.foldl_append]
    by_cases hk : key x = k
    · subst hk
      have hold : ((accumulate init key f xs).get? (key x)).getD init =
          (xs.filter fun y => key y = key x).foldl (fun v x => f x v) init := by
        rw [ih]
        split
        · rfl
        · rename_i hnone
          have hempty : (xs.filter fun y => key y = key x) = [] := by
            rw [List.filter_eq_nil_iff]
            intro y hy he
            exact hnone (List.any_eq_true.mpr ⟨y, hy, he⟩)
          rw [hempty]
          rfl
      rw [hold]
      simp
    · rw [if_neg (Ne.symm hk), ih]
      simp [hk]

theorem keys_set (d : Dict κ ν) (k : κ) (v : ν) :
    (d.set k v).map Prod.fst = if k ∈ d.map Prod.fst then d.map Prod.fst else d.map Prod.fst ++ [k] := by
  unfold set
  split
  · rw [List.map_map]
    refine List.map_congr_left fun e _ => ?_
    by_cases he : e.1 = k <;> simp [he]
  · simp

theorem nodup_set {d : Dict κ ν} (hd : (d.map Prod.fst).Nodup) (k : κ) (v : ν) : ((d.set k v).map Prod.fst).Nodup := by
  rw [keys_set]
  split
  · exact hd
  · rename_i hnew
    exact List.nodup_append.mpr ⟨hd, List.nodup_singleton _, fun a ha b hb he =>
      hnew (by rwa [← List.mem_singleton.mp hb, ← he])⟩

theorem nodup_accumulate {α : Type} (init : ν) (key : α → κ) (f : α → ν → ν) (xs : List α) :
    ((accumulate init key f xs).map Prod.fst).Nodup := by
  induction xs using List.reverseRecOn with
  | nil => exact List.nodup_nil
  | append_singleton xs x ih =>
    rw [accumulate_append, update]
    exact nodup_set ih _ _

theorem mem_keys {d : Dict κ ν} {k : κ} : k ∈ d.map Prod.fst ↔ (d.get? k).isSome = true := by
  induction d with
  | nil => simp [get?]
  | cons e d ih =>
    rw [List.map_cons, List.mem_cons, get?_cons_eq, ih]
    split <;> simp [*]

theorem get?_of_mem {d : Dict κ ν} (hd : (d.map Prod.fst).Nodup) {e : κ × ν} (he : e ∈ d) : d.get? e.1 = some e.2 := by
  induction d with
  | nil => cases he
  | cons e' d ih =>
    rw [List.map_cons, List.nodup_cons] at hd
    rw [get?_cons_eq]
    rcases List.mem_cons.mp he with rfl | he
    · rw [if_pos rfl]
    · have hne : e.1 ≠ e'.1 := fun heq => hd.1 (heq ▸ List.mem_map_of_mem he)
      rw [if_neg hne, ih hd.2 he]

/-- The sum of a measure over all values. -/
def total (m : ν → Nat) (d : Dict κ ν) : Nat := (d.map fun e => m e.2).sum

theorem total_set {d : Dict κ ν} (hd : (d.map Prod.fst).Nodup) (m : ν → Nat) (k : κ) (v : ν) :
    total m (d.set k v) + ((d.get? k).map m).getD 0 = total m d + m v := by
  by_cases hk : k ∈ d.map Prod.fst
  · rw [set, if_pos hk]
    induction d with
    | nil => cases hk
    | cons e d ih =>
      rw [List.map_cons, List.nodup_cons] at hd
      rw [get?_cons_eq, List.map_cons]
      by_cases he : e.1 = k
      · have hrest : (d.map fun e => if e.1 = k then (k, v) else e) = d :=
          (List.map_congr_left fun e' he' => if_neg fun heq =>
            hd.1 (List.mem_map.mpr ⟨e', he', heq.trans he.symm⟩)).trans (List.map_id' d)
        rw [if_pos he.symm, hrest, if_pos he]
        simp only [total, List.map_cons, List.sum_cons, Option.map_some, Option.getD_some]
        omega
      · have hmem : k ∈ d.map Prod.fst := (List.mem_cons.mp hk).resolve_left (Ne.symm he)
        have hsum := ih hd.2 hmem
        rw [if_neg (Ne.symm he), if_neg he]
        simp only [total, List.map_cons, List.sum_cons] at hsum ⊢
        omega
  · rw [set_fresh hk, get?_of_not_mem hk]
    simp [total]

/-- A measure that every value raises by an amount of its own is the same for one key or for many. -/
theorem total_accumulate {α : Type} {init : ν} {key : α → κ} {f : α → ν → ν} {m : ν → Nat} {amount : α → Nat}
    (hinit : m init = 0) (hf : ∀ x v, m (f x v) = m v + amount x) (xs : List α) :
    total m (accumulate init key f xs) = m (xs.foldl (fun v x => f x v) init) := by
  induction xs using List.reverseRecOn with
  | nil => exact hinit.symm
  | append_singleton xs x ih =>
    have hset := total_set (nodup_accumulate init key f xs) m (key x)
      (f x (((accumulate init key f xs).get? (key x)).getD init))
    have hold : (((accumulate init key f xs).get? (key x)).map m).getD 0 =
        m (((accumulate init key f xs).get? (key x)).getD init) := by
      cases (accumulate init key f xs).get? (key x) <;> simp [hinit]
    rw [hf, hold, ih] at hset
    rw [accumulate_append, update, List.foldl_append, List.foldl_cons, List.foldl_nil, hf]
    omega

/-- The values that come under one outer key. -/
def under (xs : List (κ × μ × ν)) (k : κ) : List (μ × ν) := (xs.filter fun x => x.1 = k).map Prod.snd

theorem under_append (xs ys : List (κ × μ × ν)) (k : κ) : under (xs ++ ys) k = under xs k ++ under ys k := by
  rw [under, List.filter_append, List.map_append]
  rfl

/-- Values that all come under one key. -/
theorem under_map (k k' : κ) (es : List (μ × ν)) : under (es.map fun e => (k', e)) k = if k' = k then es else [] := by
  by_cases hk : k' = k
  · simp [under, List.filter_map, Function.comp_def, hk]
  · simp [under, List.filter_map, Function.comp_def, hk]

theorem mem_under {xs : List (κ × μ × ν)} {k : κ} {e : μ × ν} : e ∈ under xs k ↔ (k, e) ∈ xs := by
  rw [under, List.mem_map]
  constructor
  · rintro ⟨⟨k', e'⟩, hx, rfl⟩
    obtain ⟨hx, hk⟩ := List.mem_filter.mp hx
    exact of_decide_eq_true hk ▸ hx
  · intro hx
    exact ⟨(k, e), List.mem_filter.mpr ⟨hx, decide_eq_true rfl⟩, rfl⟩

/-- A new pair of keys is new under its outer key. -/
theorem fresh_under {xs : List (κ × μ × ν)} {x : κ × μ × ν}
    (h : (x.1, x.2.1) ∉ xs.map fun x => (x.1, x.2.1)) : x.2.1 ∉ (under xs x.1).map Prod.fst := by
  intro hm
  obtain ⟨e, he, hinner⟩ := List.mem_map.mp hm
  refine h (List.mem_map.mpr ⟨(x.1, e), mem_under.mp he, ?_⟩)
  rw [hinner]

section

variable {α : Type} {key : α → κ} {f : α → List (μ × ν)} {xs : List α}

/-- The values of one of several sources with different outer keys. -/
theorem under_flatMap (hnodup : (xs.map key).Nodup) {a : α} (ha : a ∈ xs) :
    under (xs.flatMap fun a => (f a).map fun e => (key a, e)) (key a) = f a := by
  induction xs with
  | nil => cases ha
  | cons b xs ih =>
    rw [List.map_cons, List.nodup_cons] at hnodup
    rw [List.flatMap_cons, under_append, under_map]
    rcases List.mem_cons.mp ha with rfl | ha
    · have hrest : under (xs.flatMap fun a => (f a).map fun e => (key a, e)) (key a) = [] := by
        refine List.eq_nil_iff_forall_not_mem.mpr fun e he => hnodup.1 ?_
        obtain ⟨b, hb, hm⟩ := List.mem_flatMap.mp (mem_under.mp he)
        obtain ⟨_, -, heq⟩ := List.mem_map.mp hm
        have hkey : key b = key a := congrArg Prod.fst heq
        rw [← hkey]
        exact List.mem_map_of_mem hb
      rw [if_pos rfl, hrest, List.append_nil]
    · have hne : key b ≠ key a := fun he => hnodup.1 (he ▸ List.mem_map_of_mem ha)
      rw [if_neg hne, ih hnodup.2 ha, List.nil_append]

omit [DecidableEq κ] in
/-- Several sources with different outer keys hold no pair of keys twice. -/
theorem nodup_flatMap (hnodup : (xs.map key).Nodup) (hf : ∀ a ∈ xs, ((f a).map Prod.fst).Nodup) :
    ((xs.flatMap fun a => (f a).map fun e => (key a, e)).map fun x => (x.1, x.2.1)).Nodup := by
  rw [List.map_flatMap, List.nodup_flatMap]
  constructor
  · intro a ha
    have hpairs : (((f a).map fun e => (key a, e)).map fun x => (x.1, x.2.1)) =
        ((f a).map Prod.fst).map fun m => (key a, m) := by simp
    rw [hpairs]
    exact (hf a ha).map fun _ _ he => congrArg Prod.snd he
  · refine (List.pairwise_map.mp hnodup).imp fun hne x hx hy => hne ?_
    obtain ⟨_, hm, rfl⟩ := List.mem_map.mp hx
    obtain ⟨_, -, rfl⟩ := List.mem_map.mp hm
    obtain ⟨_, hm, he⟩ := List.mem_map.mp hy
    obtain ⟨_, -, rfl⟩ := List.mem_map.mp hm
    exact (congrArg Prod.fst he).symm

end

variable [DecidableEq μ]

/-- Enter a value under two keys. -/
def collect (d : Dict κ (Dict μ ν)) (x : κ × μ × ν) : Dict κ (Dict μ ν) :=
  d.set x.1 (((d.get? x.1).getD []).set x.2.1 x.2.2)

/-- What is found under an outer key after values with distinct pairs of keys were entered. -/
theorem get?_collect {xs : List (κ × μ × ν)} (hnodup : (xs.map fun x => (x.1, x.2.1)).Nodup) (k : κ) :
    (xs.foldl collect []).get? k = if under xs k = [] then none else some (under xs k) := by
  induction xs using List.reverseRecOn with
  | nil => rfl
  | append_singleton xs x ih =>
    rw [List.map_append, List.map_singleton, List.nodup_append] at hnodup
    obtain ⟨hxs, -, hfresh⟩ := hnodup
    have hnew := fresh_under fun hm => hfresh _ hm _ List.mem_cons_self rfl
    have ih := ih hxs
    rw [List.foldl_append, List.foldl_cons, List.foldl_nil, collect, get?_set, under_append,
      ← List.map_singleton (f := fun e => (x.1, e)), under_map]
    by_cases hk : k = x.1
    · have hget : ((xs.foldl collect []).get? x.1).getD [] = under xs x.1 := by
        rw [← hk, ih]
        split
        · rename_i he
          rw [he]
          rfl
        · rfl
      rw [if_pos hk, hget, set_fresh hnew, ← hk]
      simp
    · rw [if_neg hk, ih]
      simp [Ne.symm hk]

end Dict
