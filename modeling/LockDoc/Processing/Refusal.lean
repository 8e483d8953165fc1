import LockDoc.Processing.ReadBack

/-!
# Reports that are not read

Python opens the report as ASCII and gives up on a column beyond its limit, while the
hypothesizer prints any name. Without a winner no row is marked, not even that of the entry
that the conflict list starts with.
-/
namespace LockDoc.Processing

open Worklist LockDoc.Hypothesizer

variable {F : Type} [Zero F]

/-- Every member has a row in the mode `csv`. -/
theorem IsSelected.exists_row {r : Report} {winner : Member} (h : IsSelected r winner) (sorting : Sorting) :
    ∃ found rest, winner.observedOrders sorting = found :: rest := by
  obtain ⟨member₀, hs, -⟩ := h.selected
  have hne : winner.conflictList ≠ [] := by
    cases hw : winner.winnerFound with
    | true =>
      obtain ⟨w, rest, hfront⟩ := hs.front hw
      simp [hfront]
    | false => simp [hs.undecided hw]
  obtain ⟨e, entries, hentries⟩ := List.exists_cons_of_ne_nil hne
  obtain ⟨n, hn, -⟩ := hs.mem_of_entry sorting (e := e) (by rw [hentries]; exact List.mem_cons_self)
  exact List.exists_cons_of_ne_nil (List.ne_nil_of_mem hn)

end LockDoc.Processing
