import LockDoc.Lib.Run
import LockDoc.Lib.Text

/-!
# Reading a file of columns

How Python opens a text file, and its reader for the dialect `excel` with another delimiter: a
field that starts with a quote may hold the delimiter and line ends, and a quote inside it is
doubled. What the reader yields for text without quotes are the columns between the delimiters.
-/
namespace LockDoc.Processing

open FallibleRun

/-- The exceptions that end the reading of a file. -/
inductive PyError where
  | unicodeDecode
  | csv
  | key
  | type
  | value
  deriving DecidableEq, Repr

/-- `encoding = 'ascii'`. -/
def decodeAscii (file : Text) : Except PyError Text :=
  if file.all (fun c => c.toNat < 128) then .ok file else .error .unicodeDecode

/-- The text mode `t`: every end of a line is read as `\n`. -/
def universalNewlines : Text → Text
  | [] => []
  | '\r' :: '\n' :: text => '\n' :: universalNewlines text
  | '\r' :: text => '\n' :: universalNewlines text
  | c :: text => c :: universalNewlines text

inductive ParserState where
  | startRecord
  | startField
  | inField
  | inQuotedField
  | quoteInQuotedField
  deriving DecidableEq, Repr

structure CsvReader where
  state : ParserState
  field : Text
  fields : List Text
  rows : List (List Text)
  deriving DecidableEq, Repr

/-- `csv.field_size_limit()`. -/
def fieldSizeLimit : Nat := 131072

namespace CsvReader

def start : CsvReader := ⟨.startRecord, [], [], []⟩

def addChar (s : CsvReader) (state : ParserState) (c : Char) : Except PyError CsvReader :=
  if fieldSizeLimit ≤ s.field.length then .error .csv
  else .ok { s with state := state, field := s.field ++ [c] }

def saveField (s : CsvReader) : CsvReader :=
  { s with state := .startField, field := [], fields := s.fields ++ [s.field] }

def endRecord (s : CsvReader) : CsvReader :=
  ⟨.startRecord, [], [], s.rows ++ [s.fields ++ [s.field]]⟩

/-- One character of a line. A line of nothing but its end is an empty row. -/
def step (delimiter : Char) (s : CsvReader) (c : Char) : Except PyError CsvReader :=
  match s.state with
  | .startRecord | .startField =>
    if c = '\n' then
      if s.state = .startRecord then .ok { s with rows := s.rows ++ [[]] } else .ok s.endRecord
    else if c = '"' then .ok { s with state := .inQuotedField }
    else if c = delimiter then .ok s.saveField
    else s.addChar .inField c
  | .inField =>
    if c = '\n' then .ok s.endRecord
    else if c = delimiter then .ok s.saveField
    else s.addChar .inField c
  | .inQuotedField =>
    if c = '"' then .ok { s with state := .quoteInQuotedField } else s.addChar .inQuotedField c
  | .quoteInQuotedField =>
    if c = '"' then s.addChar .inQuotedField c
    else if c = delimiter then .ok s.saveField
    else if c = '\n' then .ok s.endRecord
    else s.addChar .inField c

/-- The end of the file ends a record that has been begun. -/
def finish (s : CsvReader) : List (List Text) :=
  if s.state = .startRecord then s.rows else s.endRecord.rows

end CsvReader

/-- `csv.reader`. -/
def readCsv (delimiter : Char) (text : Text) : Except PyError (List (List Text)) := do
  let s ← text.foldlM (CsvReader.step delimiter) CsvReader.start
  .ok s.finish

/-- A value of a line of `csv.DictReader`: the last column of that name counts, and a row that is
too short has no value there. -/
def cell (fieldnames row : List Text) (name : Text) : Except PyError (Option Text) :=
  if fieldnames.contains name then .ok row[fieldnames.length - 1 - fieldnames.reverse.idxOf name]? else .error .key

/-- The rows that `csv.DictReader` reads after the header. -/
def dataRows (rows : List (List Text)) : List (List Text) := rows.tail.filter (· ≠ [])

/-- The characters that the reader keeps in a field as they are. -/
def isFieldChar (c : Char) : Bool :=
  c.toNat < 128 && c != '\n' && c != '\r' && c != '"' && c != ';'

theorem isFieldChar_iff {c : Char} :
    isFieldChar c = true ↔ c.toNat < 128 ∧ c ≠ '\n' ∧ c ≠ '\r' ∧ c ≠ '"' ∧ c ≠ ';' := by
  simp [isFieldChar, and_assoc]

/-- A field that the reader gives back. -/
structure Readable (field : Text) : Prop where
  chars : field.all isFieldChar = true
  short : field.length ≤ fieldSizeLimit

theorem foldlM_append_ok {σ α ε : Type} {f : σ → α → Except ε σ} {xs ys : List α} {s t : σ}
    (h : xs.foldlM f s = .ok t) : (xs ++ ys).foldlM f s = ys.foldlM f t := by
  rw [List.foldlM_append, h]
  rfl

namespace CsvReader

/-- The rest of a field that has been begun. -/
theorem foldlM_inField {field : Text} (hchars : field.all isFieldChar = true) {s : CsvReader}
    (hs : s.state = .inField) (hlen : s.field.length + field.length ≤ fieldSizeLimit) :
    field.foldlM (step ';') s = .ok { s with field := s.field ++ field } := by
  induction field generalizing s with
  | nil =>
    rw [List.append_nil]
    rfl
  | cons c field ih =>
    simp only [List.all_cons, Bool.and_eq_true, isFieldChar_iff] at hchars
    obtain ⟨⟨-, hn, -, hq, hd⟩, hrest⟩ := hchars
    simp only [List.length_cons] at hlen
    have hstep : step ';' s c = .ok { s with field := s.field ++ [c] } := by
      rw [step, hs]
      simp only [hn, hd, if_false, addChar]
      rw [if_neg (by omega), ← hs]
    have hnext := ih (s := { s with field := s.field ++ [c] }) hrest hs (by simp; omega)
    rw [List.foldlM_cons, hstep]
    exact hnext.trans (by simp)

/-- A field from its beginning, up to the delimiter or the end of the line. -/
theorem foldlM_field {field : Text} (h : Readable field) {s : CsvReader}
    (hs : s.state = .startField ∨ s.state = .startRecord) (hf : s.field = []) :
    (field ++ [';']).foldlM (step ';') s = .ok ⟨.startField, [], s.fields ++ [field], s.rows⟩ ∧
      ((s.state = .startRecord → field ≠ []) →
        (field ++ ['\n']).foldlM (step ';') s = .ok ⟨.startRecord, [], [], s.rows ++ [s.fields ++ [field]]⟩) := by
  obtain ⟨state, sfield, fields, rows⟩ := s
  obtain rfl : sfield = [] := hf
  cases field with
  | nil =>
    constructor
    · rcases hs with rfl | rfl <;> rfl
    · intro hne
      rcases hs with rfl | rfl
      · rfl
      · exact absurd rfl (hne rfl)
  | cons c field =>
    obtain ⟨hchars, hshort⟩ := h
    simp only [List.all_cons, Bool.and_eq_true, isFieldChar_iff] at hchars
    obtain ⟨⟨-, hn, -, hq, hd⟩, hrest⟩ := hchars
    have hlimit : 0 < fieldSizeLimit := by decide
    have hfirst : step ';' ⟨state, [], fields, rows⟩ c = .ok ⟨.inField, [c], fields, rows⟩ := by
      rcases hs with rfl | rfl <;>
        simp only [step, hn, hq, hd, if_false, addChar, List.length_nil, List.nil_append,
          if_neg (Nat.not_le.mpr hlimit)]
    have hfield : (c :: field).foldlM (step ';') ⟨state, [], fields, rows⟩ =
        .ok ⟨.inField, c :: field, fields, rows⟩ := by
      rw [List.foldlM_cons, hfirst]
      exact foldlM_inField hrest rfl (by simpa [Nat.add_comm] using hshort)
    exact ⟨foldlM_append_ok hfield, fun _ => foldlM_append_ok hfield⟩

/-- A row is read as its fields. -/
theorem foldlM_row {row : List Text} (hne : row ≠ []) (h : ∀ field ∈ row, Readable field) {s : CsvReader}
    (hs : s.state = .startField ∨ s.state = .startRecord) (hf : s.field = [])
    (hblank : s.state = .startRecord → row ≠ [[]]) :
    (Text.row ';' row).foldlM (step ';') s = .ok ⟨.startRecord, [], [], s.rows ++ [s.fields ++ row]⟩ := by
  induction row generalizing s with
  | nil => exact absurd rfl hne
  | cons field row ih =>
    have hfield := foldlM_field (h field List.mem_cons_self) hs hf
    cases row with
    | nil =>
      have hsplit : Text.row ';' [field] = field ++ ['\n'] := by simp [Text.row]
      rw [hsplit]
      exact hfield.2 fun hst he => hblank hst (by rw [he])
    | cons next row =>
      rw [Text.row_cons_cons, foldlM_append_ok hfield.1,
        ih (by simp) (fun f hm => h f (List.mem_cons_of_mem _ hm)) (.inl rfl) rfl (by simp)]
      simp

end CsvReader

/-- Rows of several readable fields come back as they were written. -/
theorem readCsv_rows {rows : List (List Text)} (h : ∀ row ∈ rows, 2 ≤ row.length ∧ ∀ field ∈ row, Readable field) :
    readCsv ';' (rows.flatMap (Text.row ';')) = .ok rows := by
  have main : ∀ (rows : List (List Text)) (seen : List (List Text)),
      (∀ row ∈ rows, 2 ≤ row.length ∧ ∀ field ∈ row, Readable field) →
      (rows.flatMap (Text.row ';')).foldlM (CsvReader.step ';') ⟨.startRecord, [], [], seen⟩ =
        .ok ⟨.startRecord, [], [], seen ++ rows⟩ := by
    intro rows
    induction rows with
    | nil =>
      intro seen _
      rw [List.append_nil]
      rfl
    | cons row rows ih =>
      intro seen h
      obtain ⟨hlen, hfields⟩ := h row List.mem_cons_self
      have hrow := CsvReader.foldlM_row (s := ⟨.startRecord, [], [], seen⟩) (by rintro rfl; simp at hlen) hfields
        (.inr rfl) rfl (fun _ => by rintro rfl; simp at hlen)
      rw [List.flatMap_cons, foldlM_append_ok hrow, List.nil_append,
        ih _ fun r hr => h r (List.mem_cons_of_mem _ hr)]
      simp
  rw [readCsv, CsvReader.start, main rows [] h]
  rfl

/-- The characters of a row. -/
theorem row_chars {row : List Text} (h : ∀ field ∈ row, field.all isFieldChar = true) {c : Char}
    (hc : c ∈ Text.row ';' row) : c.toNat < 128 ∧ c ≠ '\r' := by
  induction row with
  | nil =>
    obtain rfl : c = '\n' := by simpa [Text.row] using hc
    decide
  | cons field row ih =>
    have ih := ih fun f hf => h f (List.mem_cons_of_mem _ hf)
    have hfield : c ∈ field → c.toNat < 128 ∧ c ≠ '\r' := by
      intro hm
      obtain ⟨hascii, -, hr, -⟩ := isFieldChar_iff.mp (List.all_eq_true.mp (h field List.mem_cons_self) c hm)
      exact ⟨hascii, hr⟩
    cases row with
    | nil =>
      have hc : c ∈ field ∨ c = '\n' := by simpa [Text.row] using hc
      rcases hc with hm | rfl
      · exact hfield hm
      · decide
    | cons next row =>
      have hc : c ∈ field ∨ c = ';' ∨ c ∈ Text.row ';' (next :: row) := by simpa [Text.row_cons_cons] using hc
      rcases hc with hm | rfl | hm
      · exact hfield hm
      · decide
      · exact ih hm

/-- A text of such characters is the same after it was decoded. -/
theorem decode_universal {text : Text} (h : ∀ c ∈ text, c.toNat < 128 ∧ c ≠ '\r') :
    decodeAscii text = .ok text ∧ universalNewlines text = text := by
  constructor
  · rw [decodeAscii, if_pos]
    exact List.all_eq_true.mpr fun c hc => by simpa using (h c hc).1
  · induction text with
    | nil => rfl
    | cons c text ih =>
      have hc := (h c List.mem_cons_self).2
      have hrest := ih fun d hd => h d (List.mem_cons_of_mem _ hd)
      rw [universalNewlines.eq_4]
      · rw [hrest]
      · rintro rest rfl
        exact absurd rfl hc
      · rintro rfl
        exact absurd rfl hc

end LockDoc.Processing
