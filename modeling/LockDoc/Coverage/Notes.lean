import LockDoc.Lib.Run
import LockDoc.Lib.Worklist
import LockDoc.Coverage.Blocks
import LockDoc.Coverage.GcovIo

/-!
# Notes files

`read_graph_file` of `bb2lines/main.cpp` and the loop over the files of a directory. A notes file
is a sequence of tagged records; a LINES record belongs to the function record in front of it if
only records of the function lie between them. What the reader takes from the words of a file are
the LINES records of its functions, whatever the byte order of the file and wherever the borders
of the buffer fall.
-/
namespace LockDoc.Coverage

open Worklist (Yields)

def gcovTagFunction : UInt32 := 0x01000000
def gcovTagLines : UInt32 := 0x01450000
def gcovDataMagic : UInt32 := 0x67636461
def gcovNoteMagic : UInt32 := 0x67636e6f

def gcovTagMask (tag : UInt32) : UInt32 := (tag - 1) ^^^ tag

/-- `GCOV_TAG_IS_SUBTAG`. -/
def gcovTagIsSubtag (tag sub : UInt32) : Bool :=
  gcovTagMask tag >>> 8 == gcovTagMask sub && (sub ^^^ tag) &&& ~~~gcovTagMask tag == 0

/-- Why there is no result: the bound on the rounds of a loop is too small, or the code takes the
first or last element of an empty vector. -/
inductive NotesFault where
  | outOfFuel
  | emptyVector
  deriving DecidableEq, Repr

/-- The loop over the items of a LINES record. -/
def readItems : Nat → GcovVar → Except NotesFault (List LineItem × GcovVar)
  | 0, _ => .error .outOfFuel
  | n + 1, g =>
    let (lineno, g) := g.gcovReadUnsigned
    if lineno ≠ 0 then do
      let (items, g) ← readItems n g
      .ok (.line lineno :: items, g)
    else
      match g.gcovReadString with
      | (none, g) => .ok ([], g)
      | (some source, g) => do
        let (items, g) ← readItems n g
        .ok (.source source :: items, g)

/-- The code needs a file with a line at the beginning of a record. -/
def LinesRecord.ofItems (blockno : Nat) : List LineItem → Except NotesFault LinesRecord
  | .source file :: .line line :: items => .ok ⟨blockno, file, line, items⟩
  | _ => .error .emptyVector

/-- The variables of the loop over the tags: `fn` points to a function or not. -/
structure GraphReader where
  g : GcovVar
  fn : Bool
  currentTag : UInt32
  maps : Maps

/-- The numbers at the end and at the beginning of a function record, which are not used. -/
def skipUnsigned : Nat → GcovVar → GcovVar
  | 0, g => g
  | n + 1, g => skipUnsigned n g.gcovReadUnsigned.2

/-- A function record without a name or a source file is left where the reader is. -/
def readFunction (s : GraphReader) (base length : Nat) : GraphReader :=
  let (name, g) := (skipUnsigned 3 s.g).gcovReadString
  let (source, g) := (skipUnsigned 1 g).gcovReadString
  let g := skipUnsigned 3 g
  if name.isNone || source.isNone then { s with g := g, fn := false }
  else { s with g := g.gcovSync base length, fn := true, currentTag := gcovTagFunction }

/-- A LINES record of a function. -/
def readLinesRecord (filePrefix : String) (n : Nat) (s : GraphReader) (base length : Nat) :
    Except NotesFault GraphReader := do
  let (blockno, g) := s.g.gcovReadUnsigned
  let (items, g) ← readItems n g
  let r ← LinesRecord.ofItems blockno items
  .ok { s with g := g.gcovSync base length, maps := readLines filePrefix s.maps r }

/-- Any other record; one that is no part of the function ends it. -/
def readOther (tag : UInt32) (s : GraphReader) (base length : Nat) : GraphReader :=
  let g := s.g.gcovSync base length
  if s.currentTag ≠ 0 && !gcovTagIsSubtag s.currentTag tag then { s with g := g, fn := false, currentTag := 0 }
  else { s with g := g }

/-- One round of the loop over the tags. -/
def readRecord (filePrefix : String) (n : Nat) (tag : UInt32) (s : GraphReader) : Except NotesFault GraphReader :=
  let (length, g) := s.g.gcovReadUnsigned
  let s := { s with g := g }
  if tag = gcovTagFunction then .ok (readFunction s g.gcovPosition length)
  else if s.fn && tag = gcovTagLines then readLinesRecord filePrefix n s g.gcovPosition length
  else .ok (readOther tag s g.gcovPosition length)

def readRecords (filePrefix : String) : Nat → GraphReader → Except NotesFault Maps
  | 0, _ => .error .outOfFuel
  | n + 1, s =>
    let (tag, g) := s.g.gcovReadUnsigned
    if tag = 0 then .ok s.maps
    else do
      let s ← readRecord filePrefix n (UInt32.ofNat tag) { s with g := g }
      readRecords filePrefix n s

/-- `read_graph_file`; the maps are global. -/
def readGraphFile (filePrefix : String) (n : Nat) (maps : Maps) (file : List Word) : Except NotesFault Maps :=
  let (magic, g) := (GcovVar.gcovOpen file).gcovReadUnsigned
  let (isData, g) := g.gcovMagic (UInt32.ofNat magic) gcovDataMagic
  let (isNote, g) := if isData ≠ 0 then (0, g) else g.gcovMagic (UInt32.ofNat magic) gcovNoteMagic
  if isData = 0 && isNote = 0 then .ok maps
  else readRecords filePrefix n ⟨skipUnsigned 3 g, false, 0, maps⟩

/-- The regular expression of `main` for the names of notes files. -/
def isNotesFile (filename : String) : Bool := ".gcno".toList.isSuffixOf filename.toList

/-- The notes files of the directory, one after the other. -/
def readDirectory (cfg : Setting) (n : Nat) (directory : List (String × List Word)) : Except NotesFault Maps :=
  directory.foldlM (fun maps file =>
    if isNotesFile file.1 then readGraphFile cfg.filePrefix n maps file.2 else .ok maps) .empty

/-- `main`, up to the printing: the directory, then the addresses. -/
def bb2linesMain (cfg : Setting) (n : Nat) (directory : List (String × List Word)) (inputs : List (Nat × AddrLine)) :
    Except NotesFault Maps := do
  let maps ← readDirectory cfg n directory
  .ok (inputs.foldl (coverAddress cfg) maps)

/-- The bytes of a string. -/
def stringBytes (s : String) : List UInt8 := s.toList.map fun c => UInt8.ofNat c.toNat

/-- Bytes in whole words, with at least one zero behind them. -/
def packed : List UInt8 → List Word
  | a :: b :: c :: d :: bytes => ⟨a, b, c, d⟩ :: packed bytes
  | [a, b, c] => [⟨a, b, c, 0⟩]
  | [a, b] => [⟨a, b, 0, 0⟩]
  | [a] => [⟨a, 0, 0, 0⟩]
  | [] => [⟨0, 0, 0, 0⟩]

/-- A string in a notes file. -/
def stringWords (bigEndian : Bool) (s : String) : List Word :=
  Word.number bigEndian (packed (stringBytes s)).length :: packed (stringBytes s)

/-- What a function record holds; `more` is what later compilers append to it. -/
structure FunctionRecord where
  ident : UInt32
  linenoChecksum : UInt32
  cfgChecksum : UInt32
  name : String
  artificial : UInt32
  source : String
  startLine : UInt32
  columnStart : UInt32
  endLine : UInt32
  more : List Word
  deriving Repr

/-- A record of a notes file. -/
inductive NotesRecord where
  | function (f : FunctionRecord)
  | lines (r : LinesRecord)
  | other (tag : UInt32) (payload : List Word)
  deriving Repr

def LineItem.words (bigEndian : Bool) : LineItem → List Word
  | .source name => Word.number bigEndian 0 :: stringWords bigEndian name
  | .line lineno => [Word.number bigEndian lineno]

namespace NotesRecord

def tag : NotesRecord → UInt32
  | function _ => gcovTagFunction
  | lines _ => gcovTagLines
  | other tag _ => tag

def payload (bigEndian : Bool) : NotesRecord → List Word
  | function f =>
    [f.ident, f.linenoChecksum, f.cfgChecksum].map (Word.ofUInt32 bigEndian) ++ (stringWords bigEndian f.name ++
      ([f.artificial].map (Word.ofUInt32 bigEndian) ++ (stringWords bigEndian f.source ++
        ([f.startLine, f.columnStart, f.endLine].map (Word.ofUInt32 bigEndian) ++ f.more))))
  | lines r =>
    Word.number bigEndian r.blockno ::
      (r.allItems.flatMap (LineItem.words bigEndian) ++ [Word.number bigEndian 0, Word.number bigEndian 0])
  | other _ payload => payload

def words (bigEndian : Bool) (record : NotesRecord) : List Word :=
  Word.ofUInt32 bigEndian record.tag :: Word.number bigEndian (record.payload bigEndian).length ::
    record.payload bigEndian

end NotesRecord

/-- A notes file before it is written. -/
structure NotesFile where
  bigEndian : Bool
  version : UInt32
  stamp : UInt32
  supportUnexecutedBlocks : UInt32
  records : List NotesRecord
  deriving Repr

def NotesFile.words (file : NotesFile) : List Word :=
  [gcovNoteMagic, file.version, file.stamp, file.supportUnexecutedBlocks].map (Word.ofUInt32 file.bigEndian) ++
    file.records.flatMap (NotesRecord.words file.bigEndian)

/-- The characters of a C string. -/
def IsCString (s : String) : Prop := ∀ c ∈ s.toList, 0 < c.toNat ∧ c.toNat < 256

instance (s : String) : Decidable (IsCString s) := List.decidableBAll _ s.toList

def LineItem.Valid : LineItem → Prop
  | .source name => IsCString name
  | .line lineno => 0 < lineno ∧ lineno < 2 ^ 32

instance : (item : LineItem) → Decidable item.Valid
  | .source name => inferInstanceAs (Decidable (IsCString name))
  | .line lineno => inferInstanceAs (Decidable (0 < lineno ∧ lineno < 2 ^ 32))

/-- Numbers fit into words, strings hold no zero, and the tag of a record tells what it is. -/
def NotesRecord.Valid : NotesRecord → Prop
  | function f => IsCString f.name ∧ IsCString f.source
  | lines r => r.blockno < 2 ^ 32 ∧ ∀ item ∈ r.allItems, item.Valid
  | other tag _ => tag ≠ 0 ∧ tag ≠ gcovTagFunction ∧ tag ≠ gcovTagLines

instance : (record : NotesRecord) → Decidable record.Valid
  | .function f => inferInstanceAs (Decidable (IsCString f.name ∧ IsCString f.source))
  | .lines r => inferInstanceAs (Decidable (r.blockno < 2 ^ 32 ∧ ∀ item ∈ r.allItems, item.Valid))
  | .other tag _ => inferInstanceAs (Decidable (tag ≠ 0 ∧ tag ≠ gcovTagFunction ∧ tag ≠ gcovTagLines))

/-- Whether the records behind this one belong to a function, and the LINES record that it is. -/
def NotesRecord.keeps (fn : Bool) : NotesRecord → Bool
  | function _ => true
  | lines _ => fn
  | other tag _ => fn && gcovTagIsSubtag gcovTagFunction tag

def NotesRecord.linesIn (fn : Bool) : NotesRecord → List LinesRecord
  | lines r => if fn then [r] else []
  | _ => []

/-- The LINES records that belong to a function; `fn` tells whether there is one. -/
def linesRecords : Bool → List NotesRecord → List LinesRecord
  | _, [] => []
  | fn, record :: records => record.linesIn fn ++ linesRecords (record.keeps fn) records

theorem packed_bytes (bytes : List UInt8) :
    ∃ k, (packed bytes).flatMap Word.bytes = bytes ++ 0 :: List.replicate k 0 := by
  fun_induction packed bytes with
  | case1 a b c d bytes ih =>
    obtain ⟨k, hk⟩ := ih
    refine ⟨k, ?_⟩
    rw [List.flatMap_cons, hk]
    rfl
  | case2 a b c => exact ⟨0, rfl⟩
  | case3 a b => exact ⟨1, rfl⟩
  | case4 a => exact ⟨2, rfl⟩
  | case5 => exact ⟨3, rfl⟩

theorem packed_length_pos (bytes : List UInt8) : 0 < (packed bytes).length := by
  unfold packed
  split <;> exact Nat.succ_pos _

/-- A string ends at the first zero. -/
theorem cString_packed {s : String} (hs : IsCString s) : GcovVar.cString (packed (stringBytes s)) = s := by
  obtain ⟨k, hk⟩ := packed_bytes (stringBytes s)
  have hbyte : ∀ c ∈ s.toList, (UInt8.ofNat c.toNat).toNat = c.toNat := fun c hc =>
    UInt8.toNat_ofNat_of_lt (hs c hc).2
  have hne : ∀ b ∈ stringBytes s, decide (b ≠ 0) = true := by
    intro b hb
    obtain ⟨c, hc, rfl⟩ := List.mem_map.mp hb
    apply decide_eq_true
    intro hzero
    have hnat := congrArg UInt8.toNat hzero
    rw [hbyte c hc] at hnat
    have hpos := (hs c hc).1
    rw [hnat] at hpos
    exact absurd hpos (by decide)
  have htake : (stringBytes s ++ 0 :: List.replicate k 0).takeWhile (fun b => decide (b ≠ 0)) = stringBytes s := by
    rw [List.takeWhile_append_of_pos hne]
    simp
  unfold GcovVar.cString
  rw [hk, htake, stringBytes, List.map_map]
  have hmap : s.toList.map ((fun b : UInt8 => Char.ofNat b.toNat) ∘ fun c => UInt8.ofNat c.toNat) = s.toList := by
    conv_rhs => rw [← List.map_id s.toList]
    refine List.map_congr_left fun c hc => ?_
    rw [Function.comp_apply, hbyte c hc, Char.ofNat_toNat]
    rfl
  rw [hmap, String.ofList_toList]

section

variable {g : GcovVar} {bigEndian : Bool} {rest : List Word} {n : Nat}

theorem readString_words {s : String} (hs : IsCString s) (h : g.At bigEndian (stringWords bigEndian s ++ rest)) :
    ∃ g', g.gcovReadString = (some s, g') ∧ g.Advances g' bigEndian (stringWords bigEndian s).length rest := by
  have hsmall : (packed (stringBytes s)).length < 2 ^ 32 := by
    have hlen := h.position_le
    have hfile := h.small
    simp only [stringWords, List.length_append, List.length_cons] at hlen
    omega
  obtain ⟨g₁, hread₁, hadv₁⟩ := h.readUnsigned hsmall
  obtain ⟨g₂, hread₂, hadv₂⟩ := hadv₁.reached.readWords
  have hpos := packed_length_pos (stringBytes s)
  refine ⟨g₂, ?_, ?_⟩
  · rw [GcovVar.gcovReadString, hread₁]
    simp only [if_neg (Nat.pos_iff_ne_zero.mp hpos), hread₂, Option.map_some, cString_packed hs]
  · rw [stringWords, List.length_cons, Nat.add_comm]
    exact hadv₁.trans hadv₂

theorem readString_null (h : g.At bigEndian (Word.number bigEndian 0 :: rest)) :
    ∃ g', g.gcovReadString = (none, g') ∧ g.Advances g' bigEndian 1 rest := by
  obtain ⟨g', hread, hadv⟩ := h.readUnsigned (Nat.two_pow_pos 32)
  refine ⟨g', ?_, hadv⟩
  rw [GcovVar.gcovReadString, hread]
  rfl

theorem skipUnsigned_words (words : List Word) (h : g.At bigEndian (words ++ rest)) :
    g.Advances (skipUnsigned words.length g) bigEndian words.length rest := by
  induction words generalizing g with
  | nil => exact ⟨h, rfl⟩
  | cons w words ih =>
    obtain ⟨g', hread, hadv⟩ := h.readWord
    have hskip : skipUnsigned (w :: words).length g = skipUnsigned words.length g' := by
      rw [List.length_cons, skipUnsigned, hread]
    rw [hskip, List.length_cons, Nat.add_comm]
    exact hadv.trans (ih hadv.reached)

theorem length_le_words (items : List LineItem) : items.length ≤ (items.flatMap (LineItem.words bigEndian)).length := by
  induction items with
  | nil => exact Nat.le_refl _
  | cons item items ih =>
    have hpos : 0 < (item.words bigEndian).length := by cases item <;> exact Nat.succ_pos _
    rw [List.flatMap_cons, List.length_append, List.length_cons]
    omega

/-- The loop over the items of a record ends at the two zeros. -/
theorem readItems_words {items : List LineItem} (hv : ∀ item ∈ items, item.Valid) (hn : items.length < n)
    (h : g.At bigEndian (items.flatMap (LineItem.words bigEndian) ++
      ([Word.number bigEndian 0, Word.number bigEndian 0] ++ rest))) :
    ∃ g', readItems n g = .ok (items, g') ∧
      g.Advances g' bigEndian ((items.flatMap (LineItem.words bigEndian)).length + 2) rest := by
  induction items generalizing g n with
  | nil =>
    obtain ⟨m, rfl⟩ : ∃ m, n = m + 1 := ⟨n - 1, by omega⟩
    obtain ⟨g₁, hread₁, hadv₁⟩ := h.readUnsigned (Nat.two_pow_pos 32)
    obtain ⟨g₂, hread₂, hadv₂⟩ := readString_null hadv₁.reached
    refine ⟨g₂, ?_, hadv₁.trans hadv₂⟩
    rw [readItems, hread₁]
    simp [hread₂]
  | cons item items ih =>
    obtain ⟨m, rfl⟩ : ∃ m, n = m + 1 := ⟨n - 1, by omega⟩
    have hm : items.length < m := Nat.lt_of_succ_lt_succ hn
    obtain ⟨hitem, hrest⟩ := List.forall_mem_cons.mp hv
    rw [List.flatMap_cons, List.append_assoc] at h
    rw [List.flatMap_cons, List.length_append, Nat.add_assoc]
    cases item with
    | line lineno =>
      obtain ⟨g₁, hread₁, hadv₁⟩ := h.readUnsigned hitem.2
      obtain ⟨g₂, hread₂, hadv₂⟩ := ih hrest hm hadv₁.reached
      refine ⟨g₂, ?_, hadv₁.trans hadv₂⟩
      rw [readItems, hread₁]
      simp [Nat.pos_iff_ne_zero.mp hitem.1, hread₂, bind, Except.bind]
    | source name =>
      obtain ⟨g₁, hread₁, hadv₁⟩ := h.readUnsigned (Nat.two_pow_pos 32)
      obtain ⟨g₂, hread₂, hadv₂⟩ := readString_words hitem hadv₁.reached
      obtain ⟨g₃, hread₃, hadv₃⟩ := ih hrest hm hadv₂.reached
      refine ⟨g₃, ?_, ?_⟩
      · rw [readItems, hread₁]
        simp [hread₂, hread₃, bind, Except.bind]
      · have hlen : (LineItem.words bigEndian (.source name)).length = 1 + (stringWords bigEndian name).length := by
          rw [LineItem.words, List.length_cons, Nat.add_comm]
        rw [hlen]
        exact (hadv₁.trans hadv₂).trans hadv₃

end

/-- The variables of the loop while the reader is at these words. -/
structure GraphReader.At (s : GraphReader) (bigEndian inFunction : Bool) (rest : List Word) : Prop where
  reached : s.g.At bigEndian rest
  fn : s.fn = inFunction
  currentTag : s.currentTag = if inFunction then gcovTagFunction else 0

section

variable {s : GraphReader} {bigEndian fn : Bool} {rest : List Word} {n : Nat}

/-- A function record is read up to the part that later compilers append, and that is skipped. -/
theorem readFunction_words {f : FunctionRecord} (hname : IsCString f.name) (hsource : IsCString f.source)
    (h : s.g.At bigEndian ((NotesRecord.function f).payload bigEndian ++ rest)) :
    (readFunction s s.g.gcovPosition ((NotesRecord.function f).payload bigEndian).length).At bigEndian true rest ∧
      (readFunction s s.g.gcovPosition ((NotesRecord.function f).payload bigEndian).length).maps = s.maps := by
  have hshape : (NotesRecord.function f).payload bigEndian ++ rest =
      [f.ident, f.linenoChecksum, f.cfgChecksum].map (Word.ofUInt32 bigEndian) ++ (stringWords bigEndian f.name ++
        ([f.artificial].map (Word.ofUInt32 bigEndian) ++ (stringWords bigEndian f.source ++
          ([f.startLine, f.columnStart, f.endLine].map (Word.ofUInt32 bigEndian) ++ (f.more ++ rest))))) := by
    simp only [NotesRecord.payload, List.append_assoc]
  rw [hshape] at h
  have hadv₁ := skipUnsigned_words _ h
  obtain ⟨g₂, hread₂, hadv₂⟩ := readString_words hname hadv₁.reached
  have hadv₃ := skipUnsigned_words _ hadv₂.reached
  obtain ⟨g₄, hread₄, hadv₄⟩ := readString_words hsource hadv₃.reached
  have hadv₅ := skipUnsigned_words _ hadv₄.reached
  simp only [List.length_map, List.length_cons, List.length_nil, Nat.zero_add, Nat.reduceAdd]
    at hadv₁ hadv₃ hadv₅ hread₂ hread₄
  have hposition := ((((hadv₁.trans hadv₂).trans hadv₃).trans hadv₄).trans hadv₅).position
  have hend : s.g.gcovPosition + ((NotesRecord.function f).payload bigEndian).length =
      (skipUnsigned 3 g₄).gcovPosition + f.more.length := by
    rw [hposition]
    simp only [NotesRecord.payload, List.length_append, List.length_map, List.length_cons, List.length_nil]
    omega
  have hread : readFunction s s.g.gcovPosition ((NotesRecord.function f).payload bigEndian).length =
      { s with
        g := (skipUnsigned 3 g₄).gcovSync s.g.gcovPosition ((NotesRecord.function f).payload bigEndian).length
        fn := true, currentTag := gcovTagFunction } := by
    simp [readFunction, hread₂, hread₄]
  rw [hread]
  exact ⟨⟨hadv₅.reached.sync hend, rfl, rfl⟩, rfl⟩

/-- The items of a LINES record fill it. -/
theorem readLinesRecord_words {filePrefix : String} {r : LinesRecord} (hv : (NotesRecord.lines r).Valid)
    (hn : ((NotesRecord.lines r).payload bigEndian).length ≤ n)
    (h : s.g.At bigEndian ((NotesRecord.lines r).payload bigEndian ++ rest)) :
    ∃ g, readLinesRecord filePrefix n s s.g.gcovPosition ((NotesRecord.lines r).payload bigEndian).length =
        .ok { s with g := g, maps := readLines filePrefix s.maps r } ∧ g.At bigEndian rest := by
  obtain ⟨g₁, hread₁, hadv₁⟩ := h.readUnsigned hv.1
  have hitems : r.allItems.length < n := by
    have hle := @length_le_words bigEndian r.allItems
    simp only [NotesRecord.payload, List.length_append, List.length_cons] at hn
    omega
  have hreached := hadv₁.reached
  rw [List.append_eq, List.append_assoc] at hreached
  obtain ⟨g₂, hread₂, hadv₂⟩ := readItems_words hv.2 hitems hreached
  have hat : g₂.At bigEndian (([] : List Word) ++ rest) := hadv₂.reached
  have hend : s.g.gcovPosition + ((NotesRecord.lines r).payload bigEndian).length =
      g₂.gcovPosition + ([] : List Word).length := by
    rw [(hadv₁.trans hadv₂).position]
    simp only [NotesRecord.payload, List.length_append, List.length_cons, List.length_nil]
    omega
  have hof : LinesRecord.ofItems r.blockno r.allItems = .ok r := rfl
  refine ⟨_, ?_, hat.sync hend⟩
  simp [readLinesRecord, hread₁, hread₂, hof, bind, Except.bind]

/-- A record that is skipped ends the function or does not. -/
theorem readOther_words {tag : UInt32} {payload : List Word} (h : s.At bigEndian fn (payload ++ rest)) :
    (readOther tag s s.g.gcovPosition payload.length).At bigEndian (fn && gcovTagIsSubtag gcovTagFunction tag) rest ∧
      (readOther tag s s.g.gcovPosition payload.length).maps = s.maps := by
  have hsync := h.reached.sync rfl
  have htag : gcovTagFunction ≠ 0 := by decide
  have hfn := h.fn
  have hcurrent := h.currentTag
  unfold readOther
  cases fn with
  | false =>
    rw [if_neg Bool.false_ne_true] at hcurrent
    rw [hcurrent, if_neg (by simp)]
    exact ⟨⟨hsync, hfn, rfl⟩, rfl⟩
  | true =>
    rw [if_pos rfl] at hcurrent
    rw [hcurrent, Bool.true_and]
    cases hsub : gcovTagIsSubtag gcovTagFunction tag with
    | true =>
      rw [if_neg (by simp)]
      exact ⟨⟨hsync, hfn, rfl⟩, rfl⟩
    | false =>
      rw [if_pos (by simp [htag])]
      exact ⟨⟨hsync, rfl, rfl⟩, rfl⟩

/-- One record is read to its end, and a LINES record of a function is taken in. -/
theorem readRecord_words {filePrefix : String} {record : NotesRecord} (hv : record.Valid)
    (hn : (record.payload bigEndian).length ≤ n)
    (h : s.At bigEndian fn (Word.number bigEndian (record.payload bigEndian).length ::
      (record.payload bigEndian ++ rest))) :
    ∃ s', readRecord filePrefix n record.tag s = .ok s' ∧ s'.At bigEndian (record.keeps fn) rest ∧
      s'.maps = (record.linesIn fn).foldl (readLines filePrefix) s.maps := by
  have hsmall : (record.payload bigEndian).length < 2 ^ 32 := by
    have hlen := h.reached.position_le
    have hfile := h.reached.small
    simp only [List.length_append, List.length_cons] at hlen
    omega
  obtain ⟨g, hread, hadv⟩ := h.reached.readUnsigned hsmall
  have hat : GraphReader.At { s with g := g } bigEndian fn (record.payload bigEndian ++ rest) :=
    ⟨hadv.reached, h.fn, h.currentTag⟩
  have hlines : gcovTagLines ≠ gcovTagFunction := by decide
  unfold readRecord
  simp only [hread]
  cases record with
  | function f =>
    have htag : (NotesRecord.function f).tag = gcovTagFunction := rfl
    obtain ⟨hfunction, hmaps⟩ := readFunction_words hv.1 hv.2 hat.reached
    rw [if_pos htag]
    exact ⟨_, rfl, hfunction, hmaps⟩
  | lines r =>
    have htag : (NotesRecord.lines r).tag = gcovTagLines := rfl
    rw [htag, if_neg hlines]
    cases fn with
    | true =>
      obtain ⟨g', hrecord, hreached⟩ := readLinesRecord_words hv hn hat.reached
      rw [if_pos (by simp [h.fn]), hrecord]
      exact ⟨_, rfl, ⟨hreached, h.fn, h.currentTag⟩, rfl⟩
    | false =>
      obtain ⟨hother, hmaps⟩ := readOther_words hat
      rw [if_neg (by simp [h.fn])]
      exact ⟨_, rfl, hother, hmaps⟩
  | other tag payload =>
    have htag : (NotesRecord.other tag payload).tag = tag := rfl
    obtain ⟨hother, hmaps⟩ := readOther_words hat
    rw [htag, if_neg hv.2.1, if_neg (by simp [hv.2.2])]
    exact ⟨_, rfl, hother, hmaps⟩

/-- The loop over the tags takes in the LINES records of the functions and ends with the file. -/
theorem readRecords_words {filePrefix : String} {records : List NotesRecord} (hv : ∀ record ∈ records, record.Valid)
    (h : s.At bigEndian fn (records.flatMap (NotesRecord.words bigEndian)))
    (hn : (records.flatMap (NotesRecord.words bigEndian)).length < n) :
    readRecords filePrefix n s = .ok ((linesRecords fn records).foldl (readLines filePrefix) s.maps) := by
  induction records generalizing s fn n with
  | nil =>
    obtain ⟨m, rfl⟩ : ∃ m, n = m + 1 := ⟨n - 1, by omega⟩
    have hzero := h.reached.readUnsigned_end
    rw [readRecords]
    simp [hzero, linesRecords]
  | cons record records ih =>
    obtain ⟨m, rfl⟩ : ∃ m, n = m + 1 := ⟨n - 1, by omega⟩
    obtain ⟨hrecord, hrecords⟩ := List.forall_mem_cons.mp hv
    have htag : Word.ofUInt32 bigEndian record.tag = Word.number bigEndian record.tag.toNat := by
      rw [Word.number, UInt32.ofNat_toNat]
    have hne : record.tag.toNat ≠ 0 := by
      cases record with
      | function f => exact (by decide : gcovTagFunction.toNat ≠ 0)
      | lines r => exact (by decide : gcovTagLines.toNat ≠ 0)
      | other tag payload => exact fun hzero => hrecord.1 (UInt32.toNat_inj.mp hzero)
    rw [List.flatMap_cons, NotesRecord.words, htag] at h hn
    simp only [List.length_append, List.length_cons] at hn
    obtain ⟨g, hread, hadv⟩ := h.reached.readUnsigned record.tag.toNat_lt
    have hat : GraphReader.At { s with g := g } bigEndian fn (Word.number bigEndian (record.payload bigEndian).length ::
        (record.payload bigEndian ++ records.flatMap (NotesRecord.words bigEndian))) :=
      ⟨hadv.reached, h.fn, h.currentTag⟩
    have hpayload : (record.payload bigEndian).length ≤ m := by omega
    obtain ⟨s', hstep, hat', hmaps⟩ := @readRecord_words _ _ _ _ _ filePrefix record hrecord hpayload hat
    have hrest := ih hrecords hat' (by omega : _ < m)
    rw [readRecords, hread]
    simp only [hne, if_false, UInt32.ofNat_toNat, hstep, bind, Except.bind, hrest, hmaps, linesRecords, List.foldl_append]

end

/-- The magic number tells the byte order, and that the file is a notes file. -/
theorem readMagic {bigEndian : Bool} {rest : List Word} {file : List Word} (hsize : file.length < 2 ^ 27)
    (hfile : file = Word.ofUInt32 bigEndian gcovNoteMagic :: rest) :
    ∃ magic g isNote g', (GcovVar.gcovOpen file).gcovReadUnsigned = (magic, g) ∧
      g.gcovMagic (UInt32.ofNat magic) gcovDataMagic = (0, g) ∧
      g.gcovMagic (UInt32.ofNat magic) gcovNoteMagic = (isNote, g') ∧ isNote ≠ 0 ∧ g'.At bigEndian rest := by
  have hopen := GcovVar.At.open file hsize
  have hat : (GcovVar.gcovOpen file).At false (Word.ofUInt32 bigEndian gcovNoteMagic :: rest) := by
    rw [← hfile]
    exact hopen
  obtain ⟨g, hread, hadv⟩ := hat.readWord
  rw [if_neg Bool.false_ne_true] at hread
  have hreached := hadv.reached
  cases bigEndian with
  | false =>
    have hvalue : (Word.ofUInt32 false gcovNoteMagic).value = gcovNoteMagic := value_littleEndian _
    have hdata : gcovNoteMagic ≠ gcovDataMagic := by decide
    have hswapped : swapBytes gcovNoteMagic ≠ gcovDataMagic := by decide
    refine ⟨_, g, 1, g, hread, ?_, ?_, by decide, hreached⟩
    · rw [UInt32.ofNat_toNat, hvalue, GcovVar.gcovMagic, if_neg hdata, if_neg hswapped]
    · rw [UInt32.ofNat_toNat, hvalue, GcovVar.gcovMagic, if_pos rfl]
  | true =>
    have hdata : (Word.ofUInt32 true gcovNoteMagic).value ≠ gcovDataMagic := by decide
    have hswapped : swapBytes (Word.ofUInt32 true gcovNoteMagic).value ≠ gcovDataMagic := by
      rw [swapBytes_bigEndian]
      decide
    have hnote : (Word.ofUInt32 true gcovNoteMagic).value ≠ gcovNoteMagic := by decide
    refine ⟨_, g, -1, { g with endian := true }, hread, ?_, ?_, by decide,
      ⟨hreached.window, hreached.rest, rfl, hreached.room, hreached.bounded, hreached.small⟩⟩
    · rw [UInt32.ofNat_toNat, GcovVar.gcovMagic, if_neg hdata, if_neg hswapped]
    · rw [UInt32.ofNat_toNat, GcovVar.gcovMagic, if_neg hnote, if_pos (swapBytes_bigEndian _)]

/-- A file is read in as many rounds as it has words. -/
theorem readGraphFile_words {filePrefix : String} {file : NotesFile} (hv : ∀ record ∈ file.records, record.Valid)
    (hsize : file.words.length < 2 ^ 27) {n : Nat} (hn : file.words.length ≤ n) (maps : Maps) :
    readGraphFile filePrefix n maps file.words =
      .ok ((linesRecords false file.records).foldl (readLines filePrefix) maps) := by
  have hshape : file.words = Word.ofUInt32 file.bigEndian gcovNoteMagic ::
      ([file.version, file.stamp, file.supportUnexecutedBlocks].map (Word.ofUInt32 file.bigEndian) ++
        file.records.flatMap (NotesRecord.words file.bigEndian)) := rfl
  obtain ⟨magic, g, isNote, g', hread, hdata, hmagic, hnote, hat⟩ := readMagic hsize hshape
  have hskip := skipUnsigned_words _ hat
  have hlen : (file.records.flatMap (NotesRecord.words file.bigEndian)).length < n := by
    rw [hshape] at hn
    simp only [List.length_cons, List.length_append] at hn
    omega
  have hrecords := @readRecords_words ⟨skipUnsigned 3 g', false, 0, maps⟩ _ false _ filePrefix _ hv
    ⟨hskip.reached, rfl, rfl⟩ hlen
  unfold readGraphFile
  simp only [hread, hdata, ne_eq, not_true_eq_false, if_false, hmagic, hnote, decide_false, Bool.and_false,
    Bool.false_eq_true]
  exact hrecords

/-- The LINES records of the functions in the notes files of a directory. -/
def directoryRecords (directory : List (String × NotesFile)) : List LinesRecord :=
  (directory.filter fun file => isNotesFile file.1).flatMap fun file => linesRecords false file.2.records

/-- The notes files of a directory give the LINES records of their functions. -/
theorem readDirectory_words (cfg : Setting) {directory : List (String × NotesFile)}
    (hv : ∀ file ∈ directory, ∀ record ∈ file.2.records, record.Valid)
    (hsize : ∀ file ∈ directory, file.2.words.length < 2 ^ 27) {n : Nat} (hn : 2 ^ 27 ≤ n) :
    readDirectory cfg n (directory.map fun file => (file.1, file.2.words)) =
      .ok ((directoryRecords directory).foldl (readLines cfg.filePrefix) .empty) := by
  unfold readDirectory
  generalize Maps.empty = maps
  induction directory generalizing maps with
  | nil => rfl
  | cons file directory ih =>
    obtain ⟨hfile, hrest⟩ := List.forall_mem_cons.mp hv
    obtain ⟨hsmall, hsizes⟩ := List.forall_mem_cons.mp hsize
    rw [List.map_cons, List.foldlM_cons]
    cases hname : isNotesFile file.1 with
    | false =>
      rw [if_neg Bool.false_ne_true]
      refine (ih hrest hsizes maps).trans ?_
      simp [directoryRecords, hname]
    | true =>
      rw [if_pos rfl, readGraphFile_words hfile hsmall (hsmall.le.trans hn)]
      refine (ih hrest hsizes _).trans ?_
      simp [directoryRecords, hname, List.foldl_append]

/-- A function with a block in two files, written by a big-endian machine. -/
def twoFilesNotes : NotesFile where
  bigEndian := true
  version := 0x4138302a
  stamp := 7
  supportUnexecutedBlocks := 1
  records := [.function ⟨1, 2, 3, "iget", 0, "fs/inode.c", 10, 1, 20, [⟨0, 0, 0, 20⟩]⟩, .other 0x01410000 [⟨0, 0, 0, 4⟩],
    .lines ⟨2, "fs/inode.c", 11, [.line 12, .source "include/fs.h", .line 5]⟩]

theorem twoFilesNotes_valid : ∀ file ∈ [("inode.gcno", twoFilesNotes)],
    (∀ record ∈ file.2.records, record.Valid) ∧ file.2.words.length < 2 ^ 27 := by
  have hrecords : ∀ record ∈ twoFilesNotes.records, record.Valid := by decide +kernel
  have hlen : twoFilesNotes.words.length ≤ 100 := by decide +kernel
  intro file hfile
  rw [List.mem_singleton.mp hfile]
  exact ⟨hrecords, Nat.lt_of_le_of_lt hlen (by decide)⟩

/-- A line that is printed for an address; the number is printed as a signed one. -/
structure ConvertRow where
  address : Nat
  file : String
  line : Int32
  deriving DecidableEq, Repr

/-- An `unsigned` for `%d`. -/
def asSigned (line : Nat) : Int32 := (UInt32.ofNat line).toInt32

theorem asSigned_inj {line line' : Nat} (h : line < 2 ^ 32) (h' : line' < 2 ^ 32) :
    asSigned line = asSigned line' ↔ line = line' := by
  constructor
  · intro he
    have hu := congrArg Int32.toUInt32 he
    simp only [asSigned, UInt32.toUInt32_toInt32] at hu
    have hn := congrArg UInt32.toNat hu
    exact (UInt32.toNat_ofNat_of_lt h).symm.trans (hn.trans (UInt32.toNat_ofNat_of_lt h'))
  · exact congrArg asSigned

/-- `convert_basic_blocks`: the lines of the block of every address. -/
def convertBasicBlocks (cfg : Setting) : Maps → List (Nat × AddrLine) → List ConvertRow
  | _, [] => []
  | maps, input :: inputs =>
    match getBasicBlock cfg maps input.1 input.2 with
    | (some bb, maps) =>
      (bb.sourceLines.flatMap fun sl => sl.lines.map fun line => ⟨input.1, sl.filename, asSigned line⟩) ++
        convertBasicBlocks cfg maps inputs
    | (none, maps) => convertBasicBlocks cfg maps inputs

/-- The lookup does not depend on what is covered. -/
theorem getBasicBlock_covered (cfg : Setting) (maps : Maps) (addr : Nat) (answer : AddrLine)
    (covered : String → Option (Finset Nat)) :
    getBasicBlock cfg { maps with coveredLines := covered } addr answer =
      ((getBasicBlock cfg maps addr answer).1, { (getBasicBlock cfg maps addr answer).2 with coveredLines := covered }) := by
  have hfind : ∀ line file, findLineAndFileInBbMap cfg.filePrefix cfg.files { maps with coveredLines := covered } line file =
      findLineAndFileInBbMap cfg.filePrefix cfg.files maps line file := fun _ _ => rfl
  have hharder : ∀ line file, searchHarder cfg { maps with coveredLines := covered } addr line file =
      ((searchHarder cfg maps addr line file).1,
        { (searchHarder cfg maps addr line file).2 with coveredLines := covered }) := by
    intro line file
    unfold searchHarder
    rw [hfind]
    split <;> rfl
  unfold getBasicBlock
  simp only [hfind, hharder]
  split
  · split <;> rfl
  · split
    · rfl
    · split
      · split
        · rfl
        · split <;> rfl
      · rfl

/-- The printed lines do not depend on it either. -/
theorem convertBasicBlocks_covered (cfg : Setting) (inputs : List (Nat × AddrLine)) (maps : Maps)
    (covered : String → Option (Finset Nat)) :
    convertBasicBlocks cfg { maps with coveredLines := covered } inputs = convertBasicBlocks cfg maps inputs := by
  induction inputs generalizing maps with
  | nil => rfl
  | cons input inputs ih =>
    simp only [convertBasicBlocks, getBasicBlock_covered]
    generalize getBasicBlock cfg maps input.1 input.2 = result
    obtain ⟨_ | bb, next⟩ := result
    · exact ih next
    · simp only [ih]

/-- All coverable lines are 32-bit numbers. -/
def Maps.WordLines (maps : Maps) : Prop := ∀ file, ∀ line ∈ linesOf maps.coverableLines file, line < 2 ^ 32

/-- From any state of the maps, the lines that the addresses cover are those that are printed for them. -/
theorem mem_foldl_coverAddress (cfg : Setting) (inputs : List (Nat × AddrLine)) {maps : Maps} (hs : maps.Sound)
    (hw : maps.WordLines) (file : String) {line : Nat} (hline : line < 2 ^ 32) :
    line ∈ linesOf (inputs.foldl (coverAddress cfg) maps).coveredLines file ↔
      line ∈ linesOf maps.coveredLines file ∨
        ∃ row ∈ convertBasicBlocks cfg maps inputs, row.file = file ∧ row.line = asSigned line := by
  induction inputs generalizing maps with
  | nil => simp [convertBasicBlocks]
  | cons input inputs ih =>
    have hkept : (getBasicBlock cfg maps input.1 input.2).2.coveredLines = maps.coveredLines := by
      have h := getBasicBlock_covered cfg maps input.1 input.2 maps.coveredLines
      exact congrArg (fun result => result.2.coveredLines) h
    obtain ⟨hsound, -, hcoverable⟩ := hs.coverAddress cfg input
    have hwords : (coverAddress cfg maps input).WordLines := by
      unfold Maps.WordLines
      rw [hcoverable]
      exact hw
    have hfound := (looks_getBasicBlock hs cfg input.1 input.2).found
    rw [List.foldl_cons]
    refine (ih hsound hwords).trans ?_
    rw [coverAddress, convertBasicBlocks]
    generalize getBasicBlock cfg maps input.1 input.2 = result at hkept hfound ⊢
    obtain ⟨_ | bb, next⟩ := result
    · simp only at hkept ⊢
      rw [hkept]
    · simp only at hkept ⊢
      rw [convertBasicBlocks_covered, mem_linesOf_insertLines, hkept, or_assoc]
      refine or_congr Iff.rfl ?_
      simp only [List.mem_append, List.mem_flatMap, List.mem_map, or_and_right, exists_or, Lists]
      refine or_congr ?_ Iff.rfl
      constructor
      · rintro ⟨sl, hsl, hfile, hl⟩
        exact ⟨_, ⟨sl, hsl, line, hl, rfl⟩, hfile, rfl⟩
      · rintro ⟨row, ⟨sl, hsl, l, hl, rfl⟩, hfile, he⟩
        -- Two lines of 32 bits that are printed alike are the same.
        have hword := hw file l (hfound bb rfl file l ⟨sl, hsl, hfile, hl⟩)
        rw [(asSigned_inj hword hline).mp he] at hl
        exact ⟨sl, hsl, hfile, hl⟩

/-- Reading files covers nothing. -/
def Maps.Uncovered (maps : Maps) : Prop := ∀ file, linesOf maps.coveredLines file = ∅

theorem Maps.Uncovered.readLines {maps : Maps} (h : maps.Uncovered) (filePrefix : String) (r : LinesRecord) :
    (readLines filePrefix maps r).Uncovered := fun file => (linesOf_emptyEntries _ _ file).trans (h file)

theorem readFunction_maps (s : GraphReader) (base length : Nat) : (readFunction s base length).maps = s.maps := by
  simp only [readFunction, apply_ite GraphReader.maps, ite_self]

theorem readOther_maps (tag : UInt32) (s : GraphReader) (base length : Nat) :
    (readOther tag s base length).maps = s.maps := by
  simp only [readOther, apply_ite GraphReader.maps, ite_self]

/-- A line number is a word of the file. -/
def LineItem.Fits : LineItem → Prop
  | .source _ => True
  | .line lineno => lineno < 2 ^ 32

theorem readUnsigned_lt (g : GcovVar) : g.gcovReadUnsigned.1 < 2 ^ 32 := by
  unfold GcovVar.gcovReadUnsigned
  split
  · exact UInt32.toNat_lt _
  · exact Nat.two_pow_pos 32

theorem readItems_fits {n : Nat} {g : GcovVar} {items : List LineItem} {g' : GcovVar}
    (h : readItems n g = .ok (items, g')) : ∀ item ∈ items, item.Fits := by
  induction n generalizing g items with
  | zero => cases h
  | succ n ih =>
    have hlt := readUnsigned_lt g
    unfold readItems at h
    generalize g.gcovReadUnsigned = read at h hlt
    obtain ⟨lineno, g₁⟩ := read
    dsimp only at h hlt
    split at h
    · obtain ⟨⟨rest, g₂⟩, hrest, h⟩ := FallibleRun.bind_ok.mp h
      cases h
      exact List.forall_mem_cons.mpr ⟨hlt, ih hrest⟩
    · split at h
      · cases h
        exact fun item hitem => by cases hitem
      · obtain ⟨⟨rest, g₂⟩, hrest, h⟩ := FallibleRun.bind_ok.mp h
        cases h
        exact List.forall_mem_cons.mpr ⟨trivial, ih hrest⟩

theorem LinesRecord.ofItems_ok {blockno : Nat} {items : List LineItem} {r : LinesRecord}
    (h : LinesRecord.ofItems blockno items = .ok r) : r.allItems = items := by
  unfold LinesRecord.ofItems at h
  split at h
  · cases h
    rfl
  · cases h

section

variable {filePrefix : String} {P : Maps → Prop}
  (hP : ∀ maps r, P maps → (∀ item ∈ r.allItems, item.Fits) → P (readLines filePrefix maps r))

include hP

theorem readRecord_preserves {n : Nat} {tag : UInt32} {s s' : GraphReader}
    (h : readRecord filePrefix n tag s = .ok s') (hs : P s.maps) : P s'.maps := by
  unfold readRecord at h
  simp only at h
  split at h
  · rw [← Except.ok.inj h, readFunction_maps]
    exact hs
  · split at h
    · unfold readLinesRecord at h
      simp only at h
      obtain ⟨⟨items, g⟩, hitems, h⟩ := FallibleRun.bind_ok.mp h
      obtain ⟨r, hr, h⟩ := FallibleRun.bind_ok.mp h
      rw [← Except.ok.inj h]
      refine hP _ r hs ?_
      rw [LinesRecord.ofItems_ok hr]
      exact readItems_fits hitems
    · rw [← Except.ok.inj h, readOther_maps]
      exact hs

theorem readRecords_preserves {n : Nat} {s : GraphReader} {maps : Maps}
    (h : readRecords filePrefix n s = .ok maps) (hs : P s.maps) : P maps := by
  induction n generalizing s with
  | zero => cases h
  | succ n ih =>
    rw [readRecords] at h
    simp only at h
    split at h
    · cases h
      exact hs
    · obtain ⟨s', hstep, hrest⟩ := FallibleRun.bind_ok.mp h
      exact ih hrest (readRecord_preserves hP hstep hs)

end

/-- A file without a magic number is left out. -/
theorem readGraphFile_cases (filePrefix : String) (n : Nat) (maps : Maps) (file : List Word) :
    readGraphFile filePrefix n maps file = .ok maps ∨
      ∃ g, readGraphFile filePrefix n maps file = readRecords filePrefix n ⟨g, false, 0, maps⟩ := by
  unfold readGraphFile
  generalize (GcovVar.gcovOpen file).gcovReadUnsigned = read
  obtain ⟨magic, g⟩ := read
  simp only
  generalize g.gcovMagic (UInt32.ofNat magic) gcovDataMagic = data
  obtain ⟨isData, g⟩ := data
  simp only
  generalize (if isData ≠ 0 then (0, g) else g.gcovMagic (UInt32.ofNat magic) gcovNoteMagic) = note
  obtain ⟨isNote, g⟩ := note
  simp only
  split
  · exact .inl rfl
  · exact .inr ⟨_, rfl⟩

/-- What taking in a record preserves holds after reading a directory. -/
theorem readDirectory_preserves {cfg : Setting} {P : Maps → Prop}
    (hP : ∀ maps r, P maps → (∀ item ∈ r.allItems, item.Fits) → P (readLines cfg.filePrefix maps r))
    (hempty : P .empty) {n : Nat} {directory : List (String × List Word)} {maps : Maps}
    (h : readDirectory cfg n directory = .ok maps) : P maps := by
  have hfold : ∀ (directory : List (String × List Word)) (maps₀ : Maps), P maps₀ →
      directory.foldlM (fun maps file =>
        if isNotesFile file.1 then readGraphFile cfg.filePrefix n maps file.2 else .ok maps) maps₀ = .ok maps →
      P maps := by
    intro directory
    induction directory with
    | nil =>
      rintro maps₀ h₀ ⟨⟩
      exact h₀
    | cons file directory ih =>
      intro maps₀ h₀ h
      obtain ⟨maps₁, hfile, hrest⟩ := FallibleRun.bind_ok.mp h
      refine ih maps₁ ?_ hrest
      dsimp only at hfile
      split at hfile
      · rcases readGraphFile_cases cfg.filePrefix n maps₀ file.2 with hskip | ⟨g, hread⟩
        · rw [hskip] at hfile
          cases hfile
          exact h₀
        · rw [hread] at hfile
          exact readRecords_preserves hP hfile h₀
      · cases hfile
        exact h₀
  exact hfold directory .empty hempty h

theorem Maps.WordLines.readLines {maps : Maps} (h : maps.WordLines) (filePrefix : String) {r : LinesRecord}
    (hr : ∀ item ∈ r.allItems, item.Fits) : (readLines filePrefix maps r).WordLines := by
  intro file line hl
  rcases (coverable_readLines filePrefix maps r file line).mp hl with hl | hl
  · exact h file line hl
  · obtain ⟨before, after, he, -⟩ := (r.lists_iff_names file line).mp hl
    exact hr (.line line) (by simp [he])

/-- The two modes agree, whatever the files hold: the covered lines of a file are 32-bit numbers,
and exactly those that are printed for one of the addresses, as signed numbers. -/
theorem covered_iff_converted {cfg : Setting} {n : Nat} {directory : List (String × List Word)} {maps : Maps}
    (h : readDirectory cfg n directory = .ok maps) (inputs : List (Nat × AddrLine)) :
    ∃ covered, bb2linesMain cfg n directory inputs = .ok covered ∧
      (∀ file, ∀ line ∈ linesOf covered.coveredLines file, line < 2 ^ 32) ∧
      ∀ file (line : UInt32), line.toNat ∈ linesOf covered.coveredLines file ↔
        ∃ row ∈ convertBasicBlocks cfg maps inputs, row.file = file ∧ row.line = line.toInt32 := by
  have hread := @readDirectory_preserves cfg (fun maps => maps.Sound ∧ maps.Uncovered ∧ maps.WordLines)
    (fun maps r hm hr => ⟨hm.1.readLines _ r, hm.2.1.readLines _ r, hm.2.2.readLines _ hr⟩)
    ⟨Maps.sound_empty, fun _ => rfl, fun _ _ hl => by cases hl⟩ n directory maps h
  obtain ⟨hs, huncovered, hw⟩ := hread
  obtain ⟨hsound, -, hcoverable⟩ := foldl_coverAddress cfg inputs hs
  refine ⟨inputs.foldl (coverAddress cfg) maps, ?_, fun file line hl => ?_, fun file line => ?_⟩
  · rw [bb2linesMain, h]
    rfl
  · have hl' := hsound.covered file hl
    rw [hcoverable] at hl'
    exact hw file line hl'
  · rw [mem_foldl_coverAddress cfg inputs hs hw file line.toNat_lt, huncovered file]
    simp [asSigned]

/-- The address of the second line of the block. -/
theorem twoFilesNotes_converted : ∃ covered,
    bb2linesMain ⟨"/linux/", fun _ => false, []⟩ (2 ^ 27) [("inode.gcno", twoFilesNotes.words)]
      [(0x40, ⟨some "/linux/fs/inode.c", 12⟩)] = .ok covered ∧
    (∀ file, ∀ line ∈ linesOf covered.coveredLines file, line < 2 ^ 32) ∧
    ∀ file (line : UInt32), line.toNat ∈ linesOf covered.coveredLines file ↔
      ∃ row ∈ convertBasicBlocks ⟨"/linux/", fun _ => false, []⟩ (readLines "/linux/" .empty
        ⟨2, "fs/inode.c", 11, [.line 12, .source "include/fs.h", .line 5]⟩) [(0x40, ⟨some "/linux/fs/inode.c", 12⟩)],
        row.file = file ∧ row.line = line.toInt32 := by
  have hread := readDirectory_words ⟨"/linux/", fun _ => false, []⟩ (fun file hfile => (twoFilesNotes_valid file hfile).1)
    (fun file hfile => (twoFilesNotes_valid file hfile).2) (Nat.le_refl _)
  exact covered_iff_converted hread _

end LockDoc.Coverage
