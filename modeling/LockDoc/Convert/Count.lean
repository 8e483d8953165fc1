import LockDoc.Lib.OrdMap
import LockDoc.Convert.Effect

/-!
# Entries on all stacks

How many transactions a sub lock has on the stacks of all contexts together, and
how opening and finishing transactions changes that number.
-/
namespace LockDoc.Convert

namespace LockManager

/-- The number of entries of a sub lock on the stacks of all contexts. -/
def held (lm : LockManager) (x : LockPtr × SubLock) : Nat :=
  OrdMap.total (fun s => (labels s).count x) lm.activeTXNs

@[simp] theorem stack_setLock (lm : LockManager) (l : LockPtr) (lk : RWLock) (c : Int) :
    (lm.setLock l lk).stack c = lm.stack c := rfl

@[simp] theorem held_setLock (lm : LockManager) (l : LockPtr) (lk : RWLock) (x : LockPtr × SubLock) :
    (lm.setLock l lk).held x = lm.held x := rfl

@[simp] theorem stack_stderr (lm : LockManager) (msgs : List Msg) (c : Int) :
    LockManager.stack { lm with stderr := msgs } c = lm.stack c := rfl

@[simp] theorem held_stderr (lm : LockManager) (msgs : List Msg) (x : LockPtr × SubLock) :
    LockManager.held { lm with stderr := msgs } x = lm.held x := rfl

@[simp] theorem heap_setLock (lm : LockManager) (l k : LockPtr) (lk : RWLock) :
    (lm.setLock l lk).heap k = if k = l then lk else lm.heap k := by
  simp [setLock, Function.update_apply]

theorem stack_insert (lm : LockManager) (c d : Int) (s : List TXN) :
    (lm.setStack c s).stack d = if d = c then s else lm.stack d :=
  OrdMap.getD_insert_eq ..

/-- Exchanging one stack exchanges its entries. -/
theorem held_setStack (lm : LockManager) (c : Int) (s : List TXN) (x : LockPtr × SubLock) :
    (lm.setStack c s).held x + (labels (lm.stack c)).count x = lm.held x + (labels s).count x :=
  OrdMap.total_insert (fun s => (labels s).count x) lm.activeTXNs c s [] (by simp)

theorem count_le_held (lm : LockManager) (c : Int) (x : LockPtr × SubLock) :
    (labels (lm.stack c)).count x ≤ lm.held x :=
  OrdMap.le_total (fun s => (labels s).count x) lm.activeTXNs c [] (by simp)

theorem held_eq_zero (lm : LockManager) (x : LockPtr × SubLock) :
    lm.held x = 0 ↔ ∀ c, x ∉ labels (lm.stack c) := by
  rw [held, OrdMap.total_eq_zero (fun s => (labels s).count x) lm.activeTXNs [] (by simp)]
  simp only [List.count_eq_zero]
  rfl

theorem held_pos_of_mem {lm : LockManager} {c : Int} {x : LockPtr × SubLock}
    (h : x ∈ labels (lm.stack c)) : 0 < lm.held x := by
  have := lm.count_le_held c x
  have := List.count_pos_iff.mpr h
  omega

/-- When only one context has entries of a sub lock, its stack has them all. -/
theorem held_eq_count {lm : LockManager} {c : Int} {x : LockPtr × SubLock}
    (h : ∀ d, d ≠ c → x ∉ labels (lm.stack d)) : lm.held x = (labels (lm.stack c)).count x := by
  refine OrdMap.total_eq_of_others_zero (fun s => (labels s).count x) lm.activeTXNs c [] (by simp) ?_
  intro d hd
  exact List.count_eq_zero.mpr (h d hd)

theorem isOnTXNStack_iff {lm : LockManager} {c : Int} {l : LockPtr} {side : SubLock} :
    lm.isOnTXNStack c l side ↔ (l, side) ∈ labels (lm.stack c) := by
  simp [isOnTXNStack, mem_labels, TXN.label]

/-- A `V()` works on a stack with an entry of the sub lock, if there is one anywhere. -/
theorem releaseCtx_mem {lm : LockManager} {l : LockPtr} {side : SubLock} {c : Int} (ctx : Int)
    (h : (l, side) ∈ labels (lm.stack c)) : (l, side) ∈ labels (lm.stack (lm.releaseCtx l side ctx)) := by
  unfold releaseCtx
  split
  · unfold findTXN
    cases hf : lm.activeTXNs.toList.find?
      (fun kv => kv.2.any (fun t => t.lock = l && t.subLock = side)) with
    | none =>
      have hc := OrdMap.find?_eq_none.mp hf c
      obtain ⟨t, ht, hl⟩ := mem_labels.mp h
      rw [stack, OrdMap.getD_eq] at ht
      cases hs : lm.activeTXNs[c]? with
      | none => simp [hs] at ht
      | some s =>
        rw [hs] at ht
        have := List.any_eq_false.mp (hc s hs) t ht
        simp only [TXN.label, Prod.mk.injEq] at hl
        simp [hl] at this
    | some kv =>
      obtain ⟨hk, hp, -⟩ := OrdMap.find?_eq_some hf
      rw [stack, OrdMap.getD_eq, hk]
      obtain ⟨t, ht, hl⟩ := List.any_eq_true.mp hp
      exact mem_labels.mpr ⟨t, ht, by simpa [TXN.label] using hl⟩
  · rename_i hn
    simp only [Bool.or_eq_true, Bool.not_eq_true', not_or, Bool.not_eq_false] at hn
    exact isOnTXNStack_iff.mp hn.2

section Finished

variable {lm lm' : LockManager} {l : LockPtr} {ts : Nat} {side : SubLock} {rr found : Bool} {ctx ctxOld : Int}

theorem stack_closed (lm : LockManager) (ts : Nat) (ctx ctxOld d : Int) (above popped below kept : List TXN)
    (msgs : List Msg) : (lm.closed ts ctx ctxOld above popped below kept msgs).stack d =
      if d = ctx then restart ts ctx lm.nextTXNID above ++ kept else lm.stack d :=
  OrdMap.getD_insert_eq ..

theorem Finished.stack_other (h : Finished lm l ts side rr ctx ctxOld found lm') {d : Int} (hd : d ≠ ctx) :
    lm'.stack d = lm.stack d := by
  cases h <;> simp [stack_closed, hd]

/-- The entries of the other contexts stay. -/
theorem Finished.held (h : Finished lm l ts side rr ctx ctxOld found lm') (x : LockPtr × SubLock) :
    lm'.held x + (labels (lm.stack ctx)).count x = lm.held x + (labels (lm'.stack ctx)).count x := by
  cases h with
  | found above t below msgs =>
    rw [stack_closed, if_pos rfl]
    exact held_setStack lm ctx _ x
  | missing msgs =>
    rw [stack_closed, if_pos rfl]
    exact held_setStack lm ctx _ x

/-- A plain close takes the topmost entry of the sub lock away. -/
theorem Finished.labels_closed (h : Finished lm l ts side false ctx ctxOld true lm') :
    labels (lm'.stack ctx) = (labels (lm.stack ctx)).erase (l, side) := by
  cases h with
  | found above t below msgs hs ha ht =>
    have hn : (l, side) ∉ labels above := by
      intro hm
      obtain ⟨u, hu, hl⟩ := mem_labels.mp hm
      exact ha u hu hl
    rw [stack_closed, if_pos rfl, hs, labels_append, labels_append, labels_restart, labels_cons, ht,
      List.erase_append_right _ hn, List.erase_cons_head]
    rfl

theorem Finished.labels_missing (h : Finished lm l ts side rr ctx ctxOld false lm') :
    labels (lm'.stack ctx) = labels (lm.stack ctx) := by
  cases h with
  | missing msgs => simp [stack_closed]

theorem Finished.mem_of_found (h : Finished lm l ts side rr ctx ctxOld true lm') :
    (l, side) ∈ labels (lm.stack ctx) := by
  cases h with
  | found above t below msgs hs ha ht => simp [hs, ht]

theorem Finished.not_mem_of_missing (h : Finished lm l ts side rr ctx ctxOld false lm') :
    (l, side) ∉ labels (lm.stack ctx) := by
  cases h with
  | missing msgs hn =>
    intro hm
    obtain ⟨u, hu, hl⟩ := mem_labels.mp hm
    exact hn u hu hl

/-- A flush never adds an entry. -/
theorem Finished.labels_sublist (h : Finished lm l ts side rr ctx ctxOld found lm') :
    (labels (lm'.stack ctx)).Sublist (labels (lm.stack ctx)) := by
  cases h with
  | found above t below msgs hs ha ht =>
    have hk : (if rr then sweep l below else below).Sublist below := by
      split
      · exact List.filter_sublist
      · exact List.Sublist.refl _
    rw [stack_closed, if_pos rfl, hs, labels_append, labels_append, labels_restart, labels_cons]
    exact (List.Sublist.refl _).append ((hk.map TXN.label).cons _)
  | missing msgs hn => simp [stack_closed]

theorem Finished.held_le (h : Finished lm l ts side rr ctx ctxOld found lm') (x : LockPtr × SubLock) :
    lm'.held x ≤ lm.held x := by
  have h₁ := h.held x
  have h₂ := h.labels_sublist.count_le x
  omega

/-- If a lock is on a stack with one side only, and at most once if that is the write
side, a flush of this side leaves exactly the entries of the other locks. -/
theorem Finished.labels_flushed (h : Finished lm l ts side true ctx ctxOld true lm')
    (hside : ∀ x ∈ labels (lm.stack ctx), x.1 = l → x.2 = side)
    (hone : (labels (lm.stack ctx)).count (l, .writer) ≤ 1) :
    labels (lm'.stack ctx) = (labels (lm.stack ctx)).filter (fun x => x.1 ≠ l) := by
  cases h with
  | found above t below msgs hs ha ht =>
    rw [hs, labels_append, labels_cons, ht] at hside hone
    have habove : (labels above).filter (fun x => x.1 ≠ l) = labels above := by
      rw [List.filter_eq_self]
      intro x hx
      obtain ⟨u, hu, rfl⟩ := mem_labels.mp hx
      have hne := ha u hu
      have := hside u.label (by simp [hx])
      simp only [ne_eq, decide_not, Bool.not_eq_eq_eq_not, Bool.not_true, decide_eq_false_iff_not]
      intro hl
      exact hne (Prod.ext hl (this hl))
    have hbelow : labels (sweep l below) = (labels below).filter (fun x => x.1 ≠ l) := by
      simp only [labels, sweep, List.filter_map]
      congr 1
      apply List.filter_congr
      intro u hu
      have hm : u.label ∈ labels below := mem_labels.mpr ⟨u, hu, rfl⟩
      have hu := hside u.label (by simp [hm])
      simp only [Function.comp_apply]
      refine decide_eq_decide.mpr (not_congr ?_)
      constructor
      · intro he
        rw [he]
      · intro hl
        cases side with
        | reader => exact Prod.ext hl (hu hl)
        | writer =>
          have : u.label = (l, .writer) := Prod.ext hl (hu hl)
          rw [this] at hm
          have := List.count_pos_iff.mpr hm
          simp at hone
          omega
    rw [stack_closed, if_pos rfl, hs, labels_append, labels_restart, labels_append, labels_cons,
      List.filter_append, habove, List.filter_cons_of_neg (by simp [ht])]
    exact congrArg _ hbelow

end Finished

end LockManager

end LockDoc.Convert
