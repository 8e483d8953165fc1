import LockDoc.Hypothesizer.Report

/-!
# Lock orders as text

A printed lock order is a row of words with arrows between them. As the names of locks hold no
blanks, the words can be taken apart again, and different orders are different texts.
-/
namespace LockDoc.Hypothesizer

theorem all_intercalate {p : Char → Bool} {sep : Text} (hsep : sep.all p = true) {xs : List Text}
    (h : ∀ x ∈ xs, x.all p = true) : (sep.intercalate xs).all p = true := by
  induction xs with
  | nil => rfl
  | cons x xs ih =>
    have hx := h x List.mem_cons_self
    have ih := ih fun y hy => h y (List.mem_cons_of_mem _ hy)
    cases xs with
    | nil => simpa using hx
    | cons y xs =>
      have hsplit : sep.intercalate (x :: y :: xs) = x ++ sep ++ sep.intercalate (y :: xs) := by
        simp [List.intercalate]
      rw [hsplit, List.all_append, List.all_append, hx, hsep, ih]
      rfl

/-- Words between separators around a middle part are these words and the middle parts between
separators. -/
theorem intercalate_intersperse (sep mid : Text) (xs : List Text) :
    (sep ++ mid ++ sep).intercalate xs = sep.intercalate (xs.intersperse mid) := by
  induction xs with
  | nil => rfl
  | cons x xs ih =>
    cases xs with
    | nil => rfl
    | cons y xs =>
      have hleft : (sep ++ mid ++ sep).intercalate (x :: y :: xs) =
          x ++ (sep ++ mid ++ sep) ++ (sep ++ mid ++ sep).intercalate (y :: xs) := by simp [List.intercalate]
      rw [hleft, ih, List.intersperse_cons_cons]
      cases hrest : (y :: xs).intersperse mid with
      | nil => cases xs <;> simp at hrest
      | cons z zs => simp [List.intercalate]

theorem intersperse_inj {α : Type} {m : α} {xs ys : List α} (h : xs.intersperse m = ys.intersperse m) : xs = ys := by
  induction xs generalizing ys with
  | nil =>
    cases ys with
    | nil => rfl
    | cons y ys => cases ys <;> simp at h
  | cons x xs ih =>
    cases ys with
    | nil => cases xs <;> simp at h
    | cons y ys =>
      cases xs with
      | nil => cases ys <;> simp_all
      | cons x' xs =>
        cases ys with
        | nil => simp at h
        | cons y' ys =>
          rw [List.intersperse_cons_cons, List.intersperse_cons_cons, List.cons.injEq, List.cons.injEq] at h
          rw [h.1, ih h.2.2]

theorem mem_intersperse {α : Type} {m x : α} {xs : List α} (h : x ∈ xs.intersperse m) : x = m ∨ x ∈ xs := by
  induction xs with
  | nil => cases h
  | cons y xs ih =>
    cases xs with
    | nil => exact .inr h
    | cons z xs =>
      rw [List.intersperse_cons_cons] at h
      rcases List.mem_cons.mp h with rfl | h
      · exact .inr List.mem_cons_self
      · rcases List.mem_cons.mp h with rfl | h
        · exact .inl rfl
        · exact (ih h).imp_right (List.mem_cons_of_mem _)

section

variable {r : Report} {l l' : List MyId}

theorem all_locks2string {p : Char → Bool} {locks : List Text} {separator quote : Text}
    (hempty : "(no locks held)".toList.all p = true) (hs : separator.all p = true) (hq : quote.all p = true)
    (h : ∀ id ∈ l, (locks.getD id []).all p = true) : (locks2string locks l separator quote).all p = true := by
  unfold locks2string
  split
  · exact hempty
  · refine all_intercalate hs fun x hx => ?_
    obtain ⟨id, hid, rfl⟩ := List.mem_map.mp hx
    rw [List.all_append, List.all_append, hq, h id hid]
    rfl

/-- The words of a printed order. -/
theorem splitOn_order (hne : l ≠ []) (h : ∀ id ∈ l, ' ' ∉ r.locks.getD id []) :
    (r.order l).splitOn ' ' = (l.map fun id => r.locks.getD id []).intersperse ['-', '>'] := by
  have hnames : (l.map fun id => ([] : Text) ++ r.locks.getD id [] ++ []) = l.map fun id => r.locks.getD id [] := by
    simp
  rw [Report.order, locks2string, if_neg hne, hnames]
  change ((([' '] : Text) ++ ['-', '>'] ++ [' ']).intercalate _).splitOn ' ' = _
  rw [intercalate_intersperse, List.splitOn_intercalate]
  · intro x hx
    rcases mem_intersperse hx with rfl | hx
    · decide
    · obtain ⟨id, hid, rfl⟩ := List.mem_map.mp hx
      exact h id hid
  · intro he
    have hnil : (l.map fun id => r.locks.getD id []) = [] := intersperse_inj he
    exact hne (List.map_eq_nil_iff.mp hnil)

theorem order_ne_nolock (hne : l ≠ []) (h : ∀ id ∈ l, ' ' ∉ r.locks.getD id []) : r.order l ≠ r.order [] := by
  intro he
  have hwords := splitOn_order hne h
  have hempty : (r.order []).splitOn ' ' = ["(no".toList, "locks".toList, "held)".toList] := by
    have hjoin : r.order [] = [' '].intercalate ["(no".toList, "locks".toList, "held)".toList] := by
      rw [Report.order, locks2string, if_pos rfl]
      decide +kernel
    rw [hjoin]
    exact List.splitOn_intercalate ' ' (by decide +kernel) (by simp)
  rw [he, hempty] at hwords
  -- The second word of an order of several locks is an arrow.
  rcases l with _ | ⟨a, _ | ⟨b, l⟩⟩
  · exact hne rfl
  · simp at hwords
  · rw [List.map_cons, List.map_cons, List.intersperse_cons_cons, List.cons.injEq, List.cons.injEq] at hwords
    exact absurd hwords.2.1 (by decide +kernel)

/-- Orders of known locks with different names are different texts. -/
theorem order_inj (hnodup : r.locks.Nodup) (hblank : ∀ name ∈ r.locks, ' ' ∉ name)
    (hl : ∀ id ∈ l, id < r.locks.length) (hl' : ∀ id ∈ l', id < r.locks.length) (h : r.order l = r.order l') :
    l = l' := by
  have hmem : ∀ id, id < r.locks.length → r.locks.getD id [] ∈ r.locks := by
    intro id hid
    rw [List.getD_eq_getElem _ _ hid]
    exact List.getElem_mem hid
  have hwords := fun id (hid : id < r.locks.length) => hblank _ (hmem id hid)
  by_cases hne : l = []
  · by_cases hne' : l' = []
    · rw [hne, hne']
    · exact absurd (hne ▸ h.symm) (order_ne_nolock hne' fun id hid => hwords id (hl' id hid))
  · by_cases hne' : l' = []
    · exact absurd (hne' ▸ h) (order_ne_nolock hne fun id hid => hwords id (hl id hid))
    · have hnames := splitOn_order hne fun id hid => hwords id (hl id hid)
      rw [h, splitOn_order hne' fun id hid => hwords id (hl' id hid)] at hnames
      have hindex : ∀ k : List MyId, (∀ id ∈ k, id < r.locks.length) →
          (k.map fun id => r.locks.getD id []).map r.locks.idxOf = k := by
        intro k hk
        rw [List.map_map]
        refine (List.map_congr_left fun id hid => ?_).trans (List.map_id k)
        rw [Function.comp_apply, List.getD_eq_getElem _ _ (hk id hid)]
        exact hnodup.idxOf_getElem id (hk id hid)
      rw [← hindex l hl, ← intersperse_inj hnames, hindex l' hl']

end

end LockDoc.Hypothesizer
