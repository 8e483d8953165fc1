import LockDoc.Convert.HeldSet
import LockDoc.Convert.Keys

/-!
# The final flush

`closeAllTXNs` takes every stack down from the top: the topmost transaction always matches
itself, so nothing is reopened and no id is handed out. What it writes are the rows of the
transactions that are still open and have accesses, on every run and with or without contexts.
-/
namespace LockDoc.Convert

open FallibleRun

namespace LockManager

/-- What the flush of the state `lm` at the time `ts` leaves and writes. -/
structure Drained (ts : Nat) (lm lm' : LockManager) (txns : List TxnRow) (held : List LockHeldRow) : Prop where
  emptied : ∀ c, lm'.stack c = []
  nextTXNID : lm'.nextTXNID = lm.nextTXNID
  txnsOFile : lm'.txnsOFile = lm.txnsOFile ++ txns
  locksHeldOFile : lm'.locksHeldOFile = lm.locksHeldOFile ++ held
  once : ∀ c, ∀ t ∈ lm.stack c, 0 < t.memAccessCounter →
    txns.filter (fun r => r.id = t.id) = [⟨t.id, t.startTs, t.startCtx, ts, c⟩]
  only : ∀ r ∈ txns, ∃ c, ∃ t ∈ lm.stack c, 0 < t.memAccessCounter ∧ r.id = t.id
  locks : ∀ c above t below, lm.stack c = above ++ t :: below → 0 < t.memAccessCounter →
    (held.filter (fun r => r.txnId = t.id)).Perm ((labels (t :: below)).dedup.filterMap (lm.heldRow? t.id))
  locksOnly : ∀ r ∈ held, ∃ c, ∃ t ∈ lm.stack c, 0 < t.memAccessCounter ∧ r.txnId = t.id

/-- The flush ends, and drains every stack; open transactions have ids of their own. -/
def Drains (ts : Nat) (lm : LockManager) : Prop :=
  lm.IdsFresh ∧ ∃ lm' txns held, lm.closeAllTXNs ts = .ok lm' ∧ Drained ts lm lm' txns held

/-- The rows of one context among those of all of them. -/
theorem filter_flatMap {β : Type} {cs : List Int} {f : Int → List β} {p : β → Bool} {c : Int} (hd : cs.Nodup)
    (hc : c ∈ cs) (hother : ∀ d ∈ cs, d ≠ c → (f d).filter p = []) :
    (cs.flatMap f).filter p = (f c).filter p := by
  induction cs with
  | nil => cases hc
  | cons d cs ih =>
    rw [List.nodup_cons] at hd
    rw [List.flatMap_cons, List.filter_append]
    cases hc with
    | head =>
      have hrest : (cs.flatMap f).filter p = [] := by
        rw [List.filter_flatMap, List.flatMap_eq_nil_iff]
        intro e he
        exact hother e (List.mem_cons_of_mem _ he) fun hec => hd.1 (hec ▸ he)
      rw [hrest, List.append_nil]
    | tail _ hc =>
      have hne : d ≠ c := fun he => hd.1 (he ▸ hc)
      rw [hother d List.mem_cons_self hne, List.nil_append]
      exact ih hd.2 hc fun e he => hother e (List.mem_cons_of_mem _ he)

theorem mem_keys {lm : LockManager} {c : Int} {t : TXN} (h : t ∈ lm.stack c) : c ∈ lm.activeTXNs.keys := by
  by_contra hc
  rw [stack_of_not_mem_keys hc] at h
  cases h

/-- The flush hands out no id. -/
theorem closeAllTXNs_nextTXNID {lm lm' : LockManager} {ts : Nat} (h : lm.closeAllTXNs ts = .ok lm') :
    lm'.nextTXNID = lm.nextTXNID :=
  closeAllTXNs_rule (I := fun m => m.nextTXNID = lm.nextTXNID) (fun _ _ h => h) (fun _ _ _ _ _ _ _ h => h) h rfl

/-- What the keys of the output promise is enough for the flush. -/
theorem Keyed.drains {lm : LockManager} (h : lm.Keyed) (ts : Nat) : lm.Drains ts := by
  have hfresh := h.ids
  obtain ⟨lm', hok⟩ : ∃ lm', lm.closeAllTXNs ts = .ok lm' :=
    closeFold_total fun c t ht => (h.used c t.label (mem_labels.mpr ⟨t, ht, rfl⟩)).has
  have hclosed := closeAllTXNs_ok hok
  refine ⟨hfresh, lm', _, _, hok, ?_, closeAllTXNs_nextTXNID hok, hclosed.txns, hclosed.locks, ?_, ?_, ?_, ?_⟩
  · intro c
    rw [hclosed.stack]
    split
    · rfl
    · rename_i hc
      exact stack_of_not_mem_keys hc
  · intro c t ht hcount
    obtain ⟨pre, mid, hs⟩ := List.append_of_mem ht
    have hnd := hfresh.nodup c
    rw [hs, ← List.append_nil (pre ++ t :: mid)] at hnd
    rw [filter_flatMap lm.nodup_keys (mem_keys ht) fun d _ hd => ?_, hs, txnRows_filter (ids_apart hnd) hcount]
    rw [List.filter_eq_nil_iff]
    intro r hr
    obtain ⟨u, hu, he⟩ := txnRows_id r hr
    simpa [he] using hfresh.apart d c hd u hu t ht
  · intro r hr
    obtain ⟨c, -, hr⟩ := List.mem_flatMap.mp hr
    obtain ⟨t, ht, rfl⟩ := List.mem_map.mp hr
    obtain ⟨ht, hcount⟩ := List.mem_filter.mp ht
    exact ⟨c, t, ht, of_decide_eq_true hcount, rfl⟩
  · intro c above t below hs hcount
    have ht : t ∈ lm.stack c := by simp [hs]
    have hnd := hfresh.nodup c
    rw [hs, ← List.append_nil (above ++ t :: below)] at hnd
    rw [filter_flatMap lm.nodup_keys (mem_keys ht) fun d _ hd => ?_, hs, closedHeldRows_filter (ids_apart hnd) hcount,
      List.append_nil]
    · refine heldRows_distinct h.lockIds t.id fun x hx => h.used c x ?_
      rw [hs]
      obtain ⟨u, hu, he⟩ := mem_labels.mp hx
      exact mem_labels.mpr ⟨u, List.mem_append_right _ hu, he⟩
    · rw [List.filter_eq_nil_iff]
      intro r hr
      obtain ⟨u, hu, he⟩ := closedHeldRows_txnId r hr
      simpa [he] using hfresh.apart d c hd u hu t ht
  · intro r hr
    obtain ⟨c, -, hr⟩ := List.mem_flatMap.mp hr
    obtain ⟨⟨row, hrow, hid⟩, -⟩ := closedHeldRows_recorded ts c r hr
    obtain ⟨t, ht, rfl⟩ := List.mem_map.mp hrow
    obtain ⟨ht, hcount⟩ := List.mem_filter.mp ht
    exact ⟨c, t, ht, of_decide_eq_true hcount, hid.symm⟩

end LockManager

/-- The final flush drains every stack and writes what is still open, from every state of every
run and from the state that the end of the main loop leaves. -/
theorem closeAllTXNs_drains (cfg : Config) (trace : List Event) :
    Throughout (step cfg) (fun σ => ∀ ts, σ.lockManager.Drains ts ∧
      (writeMemAccesses cfg 'v' 0 { σ with allocOFile := σ.allocOFile ++ openAllocRows σ }).lockManager.Drains ts)
      trace (.init cfg) := by
  have hall : Along (step cfg) (fun _ _ => True) trace (.init cfg) := fun _ _ _ _ _ _ => trivial
  intro pre post he σ hσ ts
  have hk := throughout_of_invariant (fun s e t hs _ hst => step_keysKept hs hst) hall (init_keysKept cfg)
    pre post he σ hσ
  have hrows : KeysKept { σ with allocOFile := σ.allocOFile ++ openAllocRows σ } :=
    ⟨hk.wellFormed, hk.keyed, ⟨hk.locks.nodup, hk.locks.used⟩, hk.accesses.same rfl rfl rfl⟩
  exact ⟨hk.keyed.drains ts, (hrows.written cfg 'v' 0).keyed.drains ts⟩

end LockDoc.Convert
