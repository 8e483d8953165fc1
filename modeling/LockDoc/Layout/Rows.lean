import LockDoc.Layout.Offsets
import LockDoc.Layout.Words

/-!
# The rows that the printer writes

On a type tree with arrays of one dimension every call appends whole rows, one per leaf, and
leaves `offset` and the prefixes of the `ext` record as they were.
-/
namespace LockDoc.Layout

variable {σ : Type} {e : Ext σ}

mutual
/-- Arrays have one dimension, their elements are known, and the names that are printed hold
neither the delimiter nor a line end. -/
def Tag.regular : Tag → Bool
  | .notFound _ => false
  | .base name _ => isPlain name
  | .pointer target => target.plain
  | .qualified _ of => of.words.plain
  | .subroutine signature => signature.plain
  | .enumeration name _ => name.all isPlain
  | .union name _ _ => name.all isPlain
  | .typedef name of => name.all isPlain && (!of.resolveTypedef.isNamed || of.regular)
  | .array of nr_entries _ => nr_entries.length == 1 && of.regular
  | .struct _ name _ members => name.all isPlain && members.regular

def Members.regular : Members → Bool
  | .nil => true
  | .cons m type rest => (!m.isPlaced type || m.name.all isPlain && type.regular) && rest.regular
end

/-- Five columns, of which none is torn apart by the delimiter or a line end. -/
def WellFormedRow (row : List Text) : Prop := row.length = 5 ∧ ∀ column ∈ row, isPlain column = true

/-- The offset column. -/
def offsetColumn (row : List Text) : Option Text := row[3]?

/-- From `p` to `q` the printer appended one row per offset and changed no other field that a
row depends on. -/
structure Writes (p q : Printer σ) (offsets : List Nat) : Prop where
  rows : ∃ rows : List (List Text), q.out = p.out ++ rows.flatMap (Text.row delimiter) ∧ (∀ row ∈ rows, WellFormedRow row) ∧
    rows.map offsetColumn = offsets.map fun n => some (Text.ofInt (printedOffset n))
  offset : q.offset = p.offset
  name_prefixes : q.name_prefixes = p.name_prefixes

theorem Writes.refl (p : Printer σ) : Writes p p [] := ⟨⟨[], by simp⟩, rfl, rfl⟩

theorem Writes.trans {p q r : Printer σ} {a b : List Nat} (h : Writes p q a) (h' : Writes q r b) :
    Writes p r (a ++ b) := by
  obtain ⟨rows, hout, hwf, hcol⟩ := h.rows
  obtain ⟨rows', hout', hwf', hcol'⟩ := h'.rows
  refine ⟨⟨rows ++ rows', ?_, ?_, ?_⟩, h'.offset.trans h.offset, h'.name_prefixes.trans h.name_prefixes⟩
  · rw [hout', hout, List.flatMap_append, List.append_assoc]
  · intro row hrow
    rcases List.mem_append.1 hrow with hrow | hrow
    · exact hwf row hrow
    · exact hwf' row hrow
  · rw [List.map_append, List.map_append, hcol, hcol']

/-- A loop whose every turn writes rows. -/
theorem Writes.foldl {f : Printer σ → Nat → Printer σ} {g : Nat → List Nat} {p : Printer σ}
    (step : ∀ i q, q.offset = p.offset → q.name_prefixes = p.name_prefixes → Writes q (f q i) (g i)) :
    ∀ (l : List Nat) (q : Printer σ), q.offset = p.offset → q.name_prefixes = p.name_prefixes →
      Writes q (l.foldl f q) (l.flatMap g)
  | [], q, _, _ => Writes.refl q
  | i :: l, q, ho, hn => by
    have hi := step i q ho hn
    have hrest := Writes.foldl step l (f q i) (hi.offset.trans ho) (hi.name_prefixes.trans hn)
    simpa only [List.foldl_cons, List.flatMap_cons] using hi.trans hrest

/-- What is written inside an expanded struct is written outside too. -/
theorem Writes.leave {p q : Printer σ} {cm_name : Option Text} {offset : UInt32} {offsets : List Nat}
    (h : Writes (p.enter cm_name offset) q offsets) : Writes p (q.leave offset) offsets where
  rows := h.rows
  offset := by
    simp only [Printer.leave, h.offset, Printer.enter]
    exact UInt32.add_sub_cancel _ _
  name_prefixes := by
    simp only [Printer.leave, h.name_prefixes, Printer.enter, List.dropLast_concat]

end LockDoc.Layout
