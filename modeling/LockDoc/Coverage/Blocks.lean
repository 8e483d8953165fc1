import Mathlib
import LockDoc.Lib.KeyedSet

/-!
# Basic blocks and covered lines

`bb2lines/main.cpp`: the LINES records of the `.gcno` files become basic blocks, kept by file
and ordered by their start line, where records with one start line are merged. Input addresses
are then resolved to blocks, by what addr2line says and a search, and the lines of these
blocks are covered. The counters of the failure summary are left out.
-/
namespace LockDoc.Coverage

structure SourceLine where
  filename : String
  lines : List Nat
  deriving DecidableEq, Repr

structure BasicBlock where
  blockno : Nat
  sourceLines : List SourceLine
  isValid : Bool
  deriving DecidableEq, Repr

namespace BasicBlock

/-- `source_lines.front()`, undefined on a block without source lines. -/
def front (bb : BasicBlock) : SourceLine := bb.sourceLines.headD ⟨"", []⟩

/-- `lines.front()` of it, undefined if there are none. -/
def startLine (bb : BasicBlock) : Nat := bb.front.lines.headD 0

def filename (bb : BasicBlock) : String := bb.front.filename

end BasicBlock

/-- What a record lists after its block number: a zero and a name, or a line number. -/
inductive LineItem where
  | source (name : String)
  | line (lineno : Nat)
  deriving DecidableEq, Repr

/-- A LINES record. It names a source file first, and a line of it. -/
structure LinesRecord where
  blockno : Nat
  file : String
  line : Nat
  items : List LineItem
  deriving DecidableEq, Repr

/-- All that a record lists. -/
def LinesRecord.allItems (r : LinesRecord) : List LineItem := .source r.file :: .line r.line :: r.items

/-- `bb.source_lines.back().lines.push_back(lineno)`. -/
def pushLine (lineno : Nat) : List SourceLine → List SourceLine
  | [] => []
  | [sl] => [{ sl with lines := sl.lines ++ [lineno] }]
  | sl :: sls => sl :: pushLine lineno sls

def readItem (sls : List SourceLine) : LineItem → List SourceLine
  | .source name => sls ++ [⟨name, []⟩]
  | .line lineno => pushLine lineno sls

/-- The source lines that the loop over a record collects. -/
def LinesRecord.sourceLines (r : LinesRecord) : List SourceLine :=
  r.allItems.foldl readItem []

def LinesRecord.block (r : LinesRecord) : BasicBlock := ⟨r.blockno, r.sourceLines, true⟩

/-- The global maps. -/
structure Maps where
  basicBlocksMap : String → List BasicBlock
  basicBlocksAddrMap : Nat → Option BasicBlock
  coveredLines : String → Option (Finset Nat)
  coverableLines : String → Option (Finset Nat)

def Maps.empty : Maps := ⟨fun _ => [], fun _ => none, fun _ => none, fun _ => none⟩

/-- `m[filename].insert(line)`, for all lines of all files. -/
def insertLines (m : String → Option (Finset Nat)) (sls : List SourceLine) : String → Option (Finset Nat) :=
  sls.foldl (fun m sl => sl.lines.foldl
    (fun m line => Function.update m sl.filename (some (insert line ((m sl.filename).getD ∅)))) m) m

/-- Files without an entry get an empty one. -/
def emptyEntries (m : String → Option (Finset Nat)) (sls : List SourceLine) : String → Option (Finset Nat) :=
  sls.foldl (fun m sl => if (m sl.filename).isNone then Function.update m sl.filename (some ∅) else m) m

/-- Puts a block into a set. A block with the same start line is taken out and merged into it. -/
def mergeBlock (bb : BasicBlock) (blocks : List BasicBlock) : List BasicBlock :=
  match KeyedSet.find? BasicBlock.startLine bb.startLine blocks with
  | some old => KeyedSet.insert BasicBlock.startLine { bb with sourceLines := bb.sourceLines ++ old.sourceLines }
      (KeyedSet.erase BasicBlock.startLine bb.startLine blocks)
  | none => KeyedSet.insert BasicBlock.startLine bb blocks

/-- Takes a record in. -/
def readLines (filePrefix : String) (maps : Maps) (r : LinesRecord) : Maps :=
  let bb := r.block
  let sourceName := filePrefix ++ bb.filename
  { maps with
    coveredLines := emptyEntries maps.coveredLines bb.sourceLines
    coverableLines := insertLines maps.coverableLines bb.sourceLines
    basicBlocksMap :=
      Function.update maps.basicBlocksMap sourceName (mergeBlock bb (maps.basicBlocksMap sourceName)) }

/-- What addr2line says about an address. -/
structure AddrLine where
  file : Option String
  line : Nat
  deriving DecidableEq, Repr

def isLineAndFileInBb (filePrefix : String) (line : Nat) (filename : String) (bb : BasicBlock) : Bool :=
  bb.sourceLines.any (fun sl => filePrefix ++ sl.filename == filename && sl.lines.contains line)

/-- The search through all blocks, in the order in which the map lists its files. -/
def findLineAndFileInBbMap (filePrefix : String) (files : List String) (maps : Maps) (line : Nat)
    (filename : String) : Option BasicBlock :=
  (files.flatMap maps.basicBlocksMap).find? (isLineAndFileInBb filePrefix line filename)

def Maps.remember (maps : Maps) (addr : Nat) (bb : BasicBlock) : Maps :=
  { maps with basicBlocksAddrMap := Function.update maps.basicBlocksAddrMap addr (some bb) }

/-- The invalid block, which stands for an address without a block. -/
def BasicBlock.invalid : BasicBlock := ⟨0, [], false⟩

/-- The parameters of a run: the prefix of the files, the regular expression, and the order in
which the map lists its files. -/
structure Setting where
  filePrefix : String
  regexSearch : String → Bool
  files : List String

/-- The last search, for files that match the regular expression. -/
def searchHarder (cfg : Setting) (maps : Maps) (addr line : Nat) (file : String) : Option BasicBlock × Maps :=
  match (if cfg.regexSearch file then findLineAndFileInBbMap cfg.filePrefix cfg.files maps line file else none) with
  | some bb => (some bb, maps.remember addr bb)
  | none => (none, maps.remember addr .invalid)

def getBasicBlock (cfg : Setting) (maps : Maps) (addr : Nat) (answer : AddrLine) : Option BasicBlock × Maps :=
  match maps.basicBlocksAddrMap addr with
  | some bb => if bb.isValid then (some bb, maps) else (none, maps)
  | none =>
    match answer.file with
    | none => (none, maps)
    | some file =>
      if maps.basicBlocksMap file ≠ [] then
        match KeyedSet.lastUpTo BasicBlock.startLine answer.line (maps.basicBlocksMap file) with
        | some bb => (some bb, maps.remember addr bb)
        | none =>
          match findLineAndFileInBbMap cfg.filePrefix cfg.files maps answer.line file with
          | some bb => (some bb, maps.remember addr bb)
          | none => searchHarder cfg maps addr answer.line file
      else searchHarder cfg maps addr answer.line file

/-- One input address of `determine_coverage`. -/
def coverAddress (cfg : Setting) (maps : Maps) (input : Nat × AddrLine) : Maps :=
  match getBasicBlock cfg maps input.1 input.2 with
  | (some bb, maps) => { maps with coveredLines := insertLines maps.coveredLines bb.sourceLines }
  | (none, maps) => maps

/-- All records, then all addresses. -/
def bb2lines (cfg : Setting) (records : List LinesRecord) (inputs : List (Nat × AddrLine)) : Maps :=
  inputs.foldl (coverAddress cfg) (records.foldl (readLines cfg.filePrefix) .empty)

/-- A source line names this line of this file. -/
def Lists (sls : List SourceLine) (file : String) (line : Nat) : Prop := ∃ sl ∈ sls, sl.filename = file ∧ line ∈ sl.lines

/-- The last name among the items. -/
def LastName (items : List LineItem) (file : String) : Prop :=
  ∃ before after, items = before ++ .source file :: after ∧ ∀ name, .source name ∉ after

/-- One of the items is the line, and the last name in front of it is the file. -/
def NamesLine (items : List LineItem) (file : String) (line : Nat) : Prop :=
  ∃ before after, items = before ++ .line line :: after ∧ LastName before file

/-- A record names a line of a file. -/
def LinesRecord.Names (r : LinesRecord) (file : String) (line : Nat) : Prop := NamesLine r.allItems file line

/-- The set of lines that a map has for a file. -/
def linesOf (m : String → Option (Finset Nat)) (file : String) : Finset Nat := (m file).getD ∅

/-- Exactly the listed lines are added. -/
theorem mem_linesOf_insertLines {m : String → Option (Finset Nat)} {sls : List SourceLine} {file : String} {line : Nat} :
    line ∈ linesOf (insertLines m sls) file ↔ line ∈ linesOf m file ∨ Lists sls file line := by
  have hone : ∀ (lines : List Nat) (name : String) (m : String → Option (Finset Nat)),
      line ∈ linesOf (lines.foldl
        (fun m line => Function.update m name (some (insert line ((m name).getD ∅)))) m) file ↔
        line ∈ linesOf m file ∨ (name = file ∧ line ∈ lines) := by
    intro lines name m
    induction lines generalizing m with
    | nil => simp
    | cons l lines ih =>
      rw [List.foldl_cons, ih]
      by_cases hf : file = name
      · subst hf
        simp only [linesOf, Function.update_self, Option.getD_some, Finset.mem_insert, List.mem_cons]
        tauto
      · simp [linesOf, Function.update_of_ne hf, Ne.symm hf]
  unfold insertLines Lists
  induction sls generalizing m with
  | nil => simp
  | cons sl sls ih =>
    rw [List.foldl_cons]
    refine ih.trans ?_
    rw [hone]
    simp only [List.mem_cons, exists_eq_or_imp, or_assoc]

/-- No line is added. -/
theorem linesOf_emptyEntries (m : String → Option (Finset Nat)) (sls : List SourceLine) (file : String) :
    linesOf (emptyEntries m sls) file = linesOf m file := by
  unfold emptyEntries
  induction sls generalizing m with
  | nil => rfl
  | cons sl sls ih =>
    rw [List.foldl_cons, ih]
    split
    · rename_i hnone
      by_cases hf : file = sl.filename
      · subst hf
        rw [Option.isNone_iff_eq_none] at hnone
        simp [linesOf, hnone]
      · rw [linesOf, Function.update_of_ne hf, linesOf]
    · rfl

theorem lastName_append_source (items : List LineItem) (name file : String) :
    LastName (items ++ [.source name]) file ↔ name = file := by
  constructor
  · rintro ⟨before, after, he, hno⟩
    cases after using List.reverseRecOn with
    | nil =>
      have h := List.append_inj_right' he rfl
      simpa using h
    | append_singleton after item =>
      rw [← List.cons_append, ← List.append_assoc] at he
      obtain ⟨-, h⟩ := List.append_singleton_inj.mp he
      exact absurd (by simp [← h]) (hno name)
  · rintro rfl
    exact ⟨items, [], rfl, by simp⟩

theorem lastName_append_line (items : List LineItem) (lineno : Nat) (file : String) :
    LastName (items ++ [.line lineno]) file ↔ LastName items file := by
  constructor
  · rintro ⟨before, after, he, hno⟩
    cases after using List.reverseRecOn with
    | nil =>
      have h := List.append_inj_right' he rfl
      simp at h
    | append_singleton after item =>
      rw [← List.cons_append, ← List.append_assoc] at he
      obtain ⟨hinit, -⟩ := List.append_singleton_inj.mp he
      exact ⟨before, after, hinit, fun name h => hno name (List.mem_append_left _ h)⟩
  · rintro ⟨before, after, rfl, hno⟩
    refine ⟨before, after ++ [.line lineno], by simp, fun name h => ?_⟩
    simp [hno name] at h

theorem namesLine_append (items : List LineItem) (item : LineItem) (file : String) (line : Nat) :
    NamesLine (items ++ [item]) file line ↔
      NamesLine items file line ∨ (item = .line line ∧ LastName items file) := by
  constructor
  · rintro ⟨before, after, he, hlast⟩
    cases after using List.reverseRecOn with
    | nil =>
      obtain ⟨rfl, rfl⟩ := List.append_singleton_inj.mp he
      exact .inr ⟨rfl, hlast⟩
    | append_singleton after x =>
      rw [← List.cons_append, ← List.append_assoc] at he
      obtain ⟨hinit, -⟩ := List.append_singleton_inj.mp he
      exact .inl ⟨before, after, hinit, hlast⟩
  · rintro (⟨before, after, rfl, hlast⟩ | ⟨rfl, hlast⟩)
    · exact ⟨before, after ++ [item], by simp, hlast⟩
    · exact ⟨items, [], rfl, hlast⟩

theorem pushLine_append (lineno : Nat) (sls : List SourceLine) (sl : SourceLine) :
    pushLine lineno (sls ++ [sl]) = sls ++ [{ sl with lines := sl.lines ++ [lineno] }] := by
  induction sls with
  | nil => rfl
  | cons x sls ih =>
    cases sls with
    | nil => rfl
    | cons y sls =>
      rw [List.cons_append, List.cons_append, pushLine, ← List.cons_append, ih]
      · rfl
      · simp

/-- A line is pushed under the last name. -/
theorem lists_pushLine (lineno : Nat) (sls : List SourceLine) (file : String) (line : Nat) :
    Lists (pushLine lineno sls) file line ↔
      Lists sls file line ∨ (lineno = line ∧ sls.getLast?.map SourceLine.filename = some file) := by
  cases sls using List.reverseRecOn with
  | nil => simp [Lists, pushLine]
  | append_singleton sls sl =>
    simp only [pushLine_append, Lists, List.mem_append, List.mem_singleton, or_and_right, exists_or,
      exists_eq_left, List.getLast?_concat, Option.map_some, Option.some.injEq]
    rw [and_or_left, or_assoc, @eq_comm _ line, @and_comm (lineno = line)]

theorem getLast?_pushLine (lineno : Nat) (sls : List SourceLine) :
    (pushLine lineno sls).getLast?.map SourceLine.filename = sls.getLast?.map SourceLine.filename := by
  cases sls using List.reverseRecOn with
  | nil => rfl
  | append_singleton sls sl => rw [pushLine_append, List.getLast?_concat, List.getLast?_concat]; rfl

/-- What the loop has collected: the last name of the items is that of the last source line. -/
theorem foldl_readItem (items : List LineItem) : ∀ file,
    (∀ line, Lists (items.foldl readItem []) file line ↔ NamesLine items file line) ∧
    ((items.foldl readItem []).getLast?.map SourceLine.filename = some file ↔ LastName items file) := by
  induction items using List.reverseRecOn with
  | nil => simp [Lists, NamesLine, LastName]
  | append_singleton items item ih =>
    intro file
    obtain ⟨hlists, hlast⟩ := ih file
    rw [List.foldl_append, List.foldl_cons, List.foldl_nil]
    cases item with
    | source name =>
      refine ⟨fun line => ?_, ?_⟩
      · rw [namesLine_append, ← hlists]
        simp [readItem, Lists, or_and_right, exists_or]
      · rw [lastName_append_source, readItem, List.getLast?_concat]
        simp
    | line lineno =>
      refine ⟨fun line => ?_, ?_⟩
      · rw [readItem, lists_pushLine, namesLine_append, hlists, hlast, LineItem.line.injEq]
      · rw [readItem, getLast?_pushLine, lastName_append_line, hlast]

/-- The loop over a record loses nothing of it and adds nothing. -/
theorem LinesRecord.lists_iff_names (r : LinesRecord) (file : String) (line : Nat) :
    Lists r.sourceLines file line ↔ r.Names file line := (foldl_readItem r.allItems file).1 line

/-- The first file of a block and its first line stay. -/
theorem readItem_front (file : String) (line : Nat) (item : LineItem) {lines : List Nat} {sls : List SourceLine} :
    ∃ lines' sls', readItem (⟨file, line :: lines⟩ :: sls) item = ⟨file, line :: lines'⟩ :: sls' := by
  cases item with
  | source name => exact ⟨lines, _, rfl⟩
  | line lineno =>
    cases sls with
    | nil => exact ⟨lines ++ [lineno], [], rfl⟩
    | cons sl sls => exact ⟨lines, _, rfl⟩

theorem LinesRecord.sourceLines_front (r : LinesRecord) :
    ∃ lines sls, r.sourceLines = ⟨r.file, r.line :: lines⟩ :: sls := by
  have main : ∀ (items : List LineItem) (lines : List Nat) (sls : List SourceLine),
      ∃ lines' sls', items.foldl readItem (⟨r.file, r.line :: lines⟩ :: sls) = ⟨r.file, r.line :: lines'⟩ :: sls' := by
    intro items
    induction items with
    | nil => exact fun lines sls => ⟨lines, sls, rfl⟩
    | cons item items ih =>
      intro lines sls
      obtain ⟨lines', sls', h⟩ := @readItem_front r.file r.line item lines sls
      rw [List.foldl_cons, h]
      exact ih lines' sls'
  exact main r.items [] []

theorem LinesRecord.startLine_append (r : LinesRecord) (sls : List SourceLine) :
    BasicBlock.startLine ⟨r.blockno, r.sourceLines ++ sls, true⟩ = r.line := by
  obtain ⟨lines, sls', h⟩ := r.sourceLines_front
  rw [BasicBlock.startLine, BasicBlock.front, h]
  rfl

theorem LinesRecord.startLine_block (r : LinesRecord) : r.block.startLine = r.line := by
  have h := r.startLine_append []
  rwa [List.append_nil] at h

theorem LinesRecord.filename_block (r : LinesRecord) : r.block.filename = r.file := by
  obtain ⟨lines, sls, h⟩ := r.sourceLines_front
  rw [BasicBlock.filename, BasicBlock.front, LinesRecord.block, h]
  rfl

/-- Some block of the file with this start line lists all of these source lines. -/
def Maps.Keeps (maps : Maps) (filePrefix : String) (r : LinesRecord) : Prop :=
  ∃ bb ∈ maps.basicBlocksMap (filePrefix ++ r.file), bb.startLine = r.line ∧ ∀ sl ∈ r.sourceLines, sl ∈ bb.sourceLines

/-- All lines of a block can be covered. -/
def Maps.Coverable (maps : Maps) (bb : BasicBlock) : Prop :=
  ∀ file line, Lists bb.sourceLines file line → line ∈ linesOf maps.coverableLines file

/-- The invariant: files keep their blocks in the order of their start lines, and all lines of
blocks, cached blocks and covered lines are coverable. -/
structure Maps.Sound (maps : Maps) : Prop where
  sorted : ∀ file, KeyedSet.Sorted BasicBlock.startLine (maps.basicBlocksMap file)
  blocks : ∀ file, ∀ bb ∈ maps.basicBlocksMap file, maps.Coverable bb
  cached : ∀ addr bb, maps.basicBlocksAddrMap addr = some bb → maps.Coverable bb
  covered : ∀ file, linesOf maps.coveredLines file ⊆ linesOf maps.coverableLines file

theorem Maps.sound_empty : Maps.empty.Sound where
  sorted _ := List.Pairwise.nil
  blocks _ bb h := by cases h
  cached _ bb h := by cases h
  covered _ := Finset.Subset.refl _

/-- After the merge the block of the record lists its own lines and those of the block it
replaces, and the other blocks are as before. -/
theorem mergeBlock_spec (r : LinesRecord) {blocks : List BasicBlock}
    (hs : KeyedSet.Sorted BasicBlock.startLine blocks) :
    ∃ bb, bb.startLine = r.line ∧
      (∀ sl, sl ∈ bb.sourceLines ↔
        sl ∈ r.sourceLines ∨ ∃ old ∈ blocks, old.startLine = r.line ∧ sl ∈ old.sourceLines) ∧
      KeyedSet.Sorted BasicBlock.startLine (mergeBlock r.block blocks) ∧
      ∀ y, y ∈ mergeBlock r.block blocks ↔ y = bb ∨ (y ∈ blocks ∧ y.startLine ≠ r.line) := by
  unfold mergeBlock
  rw [r.startLine_block]
  cases hfind : KeyedSet.find? BasicBlock.startLine r.line blocks with
  | some old =>
    obtain ⟨hold, hline⟩ := KeyedSet.find?_some hfind
    have hstart : BasicBlock.startLine { r.block with sourceLines := r.block.sourceLines ++ old.sourceLines } = r.line :=
      r.startLine_append old.sourceLines
    refine ⟨_, hstart, fun sl => ?_, (hs.erase _).insert _, fun y => ?_⟩
    · rw [List.mem_append]
      refine or_congr Iff.rfl ⟨fun h => ⟨old, hold, hline, h⟩, ?_⟩
      rintro ⟨old', hold', hline', h⟩
      rwa [hs.unique hold' hold (hline'.trans hline.symm)] at h
    · rw [KeyedSet.mem_insert fun y hy => ?_, KeyedSet.mem_erase]
      rw [hstart]
      exact (KeyedSet.mem_erase.mp hy).2
  | none =>
    have hfree := KeyedSet.find?_none hfind
    refine ⟨r.block, r.startLine_block, fun sl => ?_, hs.insert _, fun y => ?_⟩
    · refine ⟨.inl, ?_⟩
      rintro (h | ⟨old, hold, hline, -⟩)
      · exact h
      · exact absurd hline (hfree old hold)
    · rw [KeyedSet.mem_insert fun y hy => by rw [r.startLine_block]; exact hfree y hy]
      exact or_congr Iff.rfl ⟨fun h => ⟨h, hfree y h⟩, And.left⟩

theorem readLines_self (filePrefix : String) (maps : Maps) (r : LinesRecord) :
    (readLines filePrefix maps r).basicBlocksMap (filePrefix ++ r.file) =
      mergeBlock r.block (maps.basicBlocksMap (filePrefix ++ r.file)) := by
  rw [← r.filename_block]
  exact Function.update_self _ _ _

theorem readLines_other {filePrefix : String} {maps : Maps} {r : LinesRecord} {file : String}
    (h : file ≠ filePrefix ++ r.file) : (readLines filePrefix maps r).basicBlocksMap file = maps.basicBlocksMap file := by
  rw [← r.filename_block] at h
  exact Function.update_of_ne h _ _

/-- What was coverable before a record still is, and so is what the record lists. -/
theorem coverable_readLines (filePrefix : String) (maps : Maps) (r : LinesRecord) (file : String) (line : Nat) :
    line ∈ linesOf (readLines filePrefix maps r).coverableLines file ↔
      line ∈ linesOf maps.coverableLines file ∨ Lists r.sourceLines file line := mem_linesOf_insertLines

theorem Maps.Sound.readLines {maps : Maps} (h : maps.Sound) (filePrefix : String) (r : LinesRecord) :
    (readLines filePrefix maps r).Sound := by
  obtain ⟨bb, -, hlists, hsorted, hmem⟩ := mergeBlock_spec r (h.sorted (filePrefix ++ r.file))
  have hgrow : ∀ b, maps.Coverable b → (LockDoc.Coverage.readLines filePrefix maps r).Coverable b :=
    fun b hb file line hl => (coverable_readLines filePrefix maps r file line).mpr (.inl (hb file line hl))
  refine ⟨fun file => ?_, fun file b hb => ?_, fun addr b hb => hgrow b (h.cached addr b hb), fun file line hl => ?_⟩
  · by_cases hf : file = filePrefix ++ r.file
    · rw [hf, readLines_self]
      exact hsorted
    · rw [readLines_other hf]
      exact h.sorted file
  · by_cases hf : file = filePrefix ++ r.file
    · rw [hf, readLines_self, hmem] at hb
      rcases hb with rfl | ⟨hb, -⟩
      · rintro name line ⟨sl, hsl, hname, hline⟩
        rw [coverable_readLines]
        rcases (hlists sl).mp hsl with hsl | ⟨old, hold, -, hsl⟩
        · exact .inr ⟨sl, hsl, hname, hline⟩
        · exact .inl (h.blocks _ old hold name line ⟨sl, hsl, hname, hline⟩)
      · exact hgrow b (h.blocks _ b hb)
    · rw [readLines_other hf] at hb
      exact hgrow b (h.blocks _ b hb)
  · rw [coverable_readLines]
    refine .inl (h.covered file ?_)
    have he : linesOf (LockDoc.Coverage.readLines filePrefix maps r).coveredLines file = linesOf maps.coveredLines file :=
      linesOf_emptyEntries _ _ _
    rwa [he] at hl

/-- A record stays listed, whatever is read after it. -/
theorem Maps.Keeps.readLines {maps : Maps} {filePrefix : String} {r : LinesRecord} (h : maps.Keeps filePrefix r)
    (hs : maps.Sound) (r' : LinesRecord) : (readLines filePrefix maps r').Keeps filePrefix r := by
  obtain ⟨b, hb, hline, hlists⟩ := h
  by_cases hf : filePrefix ++ r.file = filePrefix ++ r'.file
  · obtain ⟨bb, hbb, hlists', -, hmem⟩ := mergeBlock_spec r' (hs.sorted (filePrefix ++ r'.file))
    unfold Keeps
    rw [hf] at hb ⊢
    rw [readLines_self]
    by_cases hl : b.startLine = r'.line
    · refine ⟨bb, (hmem bb).mpr (.inl rfl), by rw [hbb, ← hl, hline], fun sl hsl => ?_⟩
      exact (hlists' sl).mpr (.inr ⟨b, hb, hl, hlists sl hsl⟩)
    · exact ⟨b, (hmem b).mpr (.inr ⟨hb, hl⟩), hline, hlists⟩
  · refine ⟨b, ?_, hline, hlists⟩
    rw [readLines_other hf]
    exact hb

theorem keeps_readLines {maps : Maps} (hs : maps.Sound) (filePrefix : String) (r : LinesRecord) :
    (readLines filePrefix maps r).Keeps filePrefix r := by
  obtain ⟨bb, hbb, hlists, -, hmem⟩ := mergeBlock_spec r (hs.sorted (filePrefix ++ r.file))
  unfold Maps.Keeps
  rw [readLines_self]
  exact ⟨bb, (hmem bb).mpr (.inl rfl), hbb, fun sl hsl => (hlists sl).mpr (.inl hsl)⟩

/-- All records that have been read are listed. -/
theorem foldl_readLines (filePrefix : String) (records : List LinesRecord) :
    (records.foldl (readLines filePrefix) .empty).Sound ∧
      ∀ r ∈ records, (records.foldl (readLines filePrefix) .empty).Keeps filePrefix r := by
  induction records using List.reverseRecOn with
  | nil => exact ⟨Maps.sound_empty, by simp⟩
  | append_singleton records r ih =>
    obtain ⟨hs, hkeeps⟩ := ih
    rw [List.foldl_append, List.foldl_cons, List.foldl_nil]
    refine ⟨hs.readLines filePrefix r, fun x hx => ?_⟩
    rcases List.mem_append.mp hx with hx | hx
    · exact (hkeeps x hx).readLines hs r
    · rw [List.mem_singleton.mp hx]
      exact keeps_readLines hs filePrefix r

/-- What a lookup leaves: the blocks and lines as they are, and a cache of coverable blocks. -/
structure Looks (maps : Maps) (found : Option BasicBlock) (next : Maps) : Prop where
  blocks : next.basicBlocksMap = maps.basicBlocksMap
  covered : next.coveredLines = maps.coveredLines
  coverable : next.coverableLines = maps.coverableLines
  cached : ∀ addr bb, next.basicBlocksAddrMap addr = some bb → maps.Coverable bb
  found : ∀ bb, found = some bb → maps.Coverable bb

section

variable {maps : Maps} (hs : maps.Sound)

include hs

/-- A block that is found is put into the cache. -/
theorem looks_remember {bb : BasicBlock} (h : maps.Coverable bb) (addr : Nat) {found : Option BasicBlock}
    (hfound : found = some bb ∨ found = none) : Looks maps found (maps.remember addr bb) := by
  refine ⟨rfl, rfl, rfl, fun addr' b hb => ?_, fun b hb => ?_⟩
  · by_cases ha : addr' = addr
    · simp only [ha, Maps.remember, Function.update_self] at hb
      cases hb
      exact h
    · simp only [Maps.remember, Function.update_of_ne ha] at hb
      exact hs.cached addr' b hb
  · rcases hfound with rfl | rfl
    · cases hb
      exact h
    · cases hb

theorem looks_keep {found : Option BasicBlock} (h : ∀ bb, found = some bb → maps.Coverable bb) : Looks maps found maps :=
  ⟨rfl, rfl, rfl, hs.cached, h⟩

theorem coverable_found {filePrefix : String} {files : List String} {line : Nat} {filename : String} {bb : BasicBlock}
    (h : findLineAndFileInBbMap filePrefix files maps line filename = some bb) : maps.Coverable bb := by
  obtain ⟨file, -, hbb⟩ := List.mem_flatMap.mp (List.mem_of_find?_eq_some h)
  exact hs.blocks file bb hbb

theorem looks_searchHarder (cfg : Setting) (addr line : Nat) (file : String) :
    Looks maps (searchHarder cfg maps addr line file).1 (searchHarder cfg maps addr line file).2 := by
  unfold searchHarder
  split
  · rename_i bb hbb
    split at hbb
    · exact looks_remember hs (coverable_found hs hbb) addr (.inl rfl)
    · cases hbb
  · refine looks_remember hs ?_ addr (.inr rfl)
    rintro name l ⟨sl, hsl, -⟩
    cases hsl

/-- Every branch of the lookup returns a block of some file, or a cached one. -/
theorem looks_getBasicBlock (cfg : Setting) (addr : Nat) (answer : AddrLine) :
    Looks maps (getBasicBlock cfg maps addr answer).1 (getBasicBlock cfg maps addr answer).2 := by
  unfold getBasicBlock
  split
  · rename_i bb hcached
    split
    · exact looks_keep hs fun b hb => by cases hb; exact hs.cached addr bb hcached
    · exact looks_keep hs fun b hb => by cases hb
  · split
    · exact looks_keep hs fun b hb => by cases hb
    · rename_i file _
      split
      · split
        · rename_i bb hbb
          exact looks_remember hs (hs.blocks file bb (KeyedSet.mem_of_lastUpTo hbb)) addr (.inl rfl)
        · split
          · rename_i bb hbb
            exact looks_remember hs (coverable_found hs hbb) addr (.inl rfl)
          · exact looks_searchHarder hs cfg addr answer.line file
      · exact looks_searchHarder hs cfg addr answer.line file

theorem Maps.Sound.coverAddress (cfg : Setting) (input : Nat × AddrLine) :
    (coverAddress cfg maps input).Sound ∧ (coverAddress cfg maps input).basicBlocksMap = maps.basicBlocksMap ∧
      (coverAddress cfg maps input).coverableLines = maps.coverableLines := by
  have hl := looks_getBasicBlock hs cfg input.1 input.2
  unfold LockDoc.Coverage.coverAddress
  generalize getBasicBlock cfg maps input.1 input.2 = result at hl ⊢
  obtain ⟨found, next⟩ := result
  dsimp only at hl
  have hsame : ∀ bb, maps.Coverable bb → ∀ file line, Lists bb.sourceLines file line →
      line ∈ linesOf next.coverableLines file := by
    intro bb hb file line hline
    rw [hl.coverable]
    exact hb file line hline
  have hblocks : ∀ file, ∀ bb ∈ next.basicBlocksMap file, maps.Coverable bb := by
    intro file bb hbb
    rw [hl.blocks] at hbb
    exact hs.blocks file bb hbb
  have hsorted : ∀ file, KeyedSet.Sorted BasicBlock.startLine (next.basicBlocksMap file) := by
    rw [hl.blocks]
    exact hs.sorted
  have hcovered : ∀ file, linesOf next.coveredLines file ⊆ linesOf next.coverableLines file := by
    rw [hl.covered, hl.coverable]
    exact hs.covered
  cases found with
  | none =>
    refine ⟨⟨hsorted, fun file bb hbb => ?_, fun addr bb hbb => ?_, hcovered⟩, hl.blocks, hl.coverable⟩
    · exact hsame bb (hblocks file bb hbb)
    · exact hsame bb (hl.cached addr bb hbb)
  | some bb =>
    refine ⟨⟨hsorted, fun file b hb => hsame b (hblocks file b hb), fun addr b hb => hsame b (hl.cached addr b hb),
      fun file line hline => ?_⟩, hl.blocks, hl.coverable⟩
    rcases mem_linesOf_insertLines.mp hline with hline | hline
    · exact hcovered file hline
    · exact hsame bb (hl.found bb rfl) file line hline

end

theorem foldl_coverAddress (cfg : Setting) (inputs : List (Nat × AddrLine)) {maps : Maps} (hs : maps.Sound) :
    (inputs.foldl (coverAddress cfg) maps).Sound ∧
      (inputs.foldl (coverAddress cfg) maps).basicBlocksMap = maps.basicBlocksMap ∧
      (inputs.foldl (coverAddress cfg) maps).coverableLines = maps.coverableLines := by
  induction inputs generalizing maps with
  | nil => exact ⟨hs, rfl, rfl⟩
  | cons input inputs ih =>
    obtain ⟨hs', hblocks, hcoverable⟩ := hs.coverAddress cfg input
    obtain ⟨hsound, hrest, hrest'⟩ := ih hs'
    exact ⟨hsound, hrest.trans hblocks, hrest'.trans hcoverable⟩

/-- No line is lost, and no line is covered that cannot be: for any records and any input
addresses, whatever addr2line says about them, every line that a record names is listed in the one
block of its file with its start line, and the covered lines of a file are coverable. -/
theorem bb2lines_sound (cfg : Setting) (records : List LinesRecord) (inputs : List (Nat × AddrLine)) :
    (∀ r ∈ records, ∃ bb ∈ (bb2lines cfg records inputs).basicBlocksMap (cfg.filePrefix ++ r.file),
      bb.startLine = r.line ∧ ∀ file line, r.Names file line → Lists bb.sourceLines file line) ∧
    (∀ file, (((bb2lines cfg records inputs).basicBlocksMap file).map BasicBlock.startLine).Nodup) ∧
    ∀ file, linesOf (bb2lines cfg records inputs).coveredLines file ⊆
      linesOf (bb2lines cfg records inputs).coverableLines file := by
  obtain ⟨hread, hkeeps⟩ := foldl_readLines cfg.filePrefix records
  obtain ⟨hsound, hblocks, -⟩ := foldl_coverAddress cfg inputs hread
  refine ⟨fun r hr => ?_, fun file => ?_, hsound.covered⟩
  · obtain ⟨bb, hbb, hline, hlists⟩ := hkeeps r hr
    refine ⟨bb, ?_, hline, ?_⟩
    · rw [bb2lines, hblocks]
      exact hbb
    · intro file line hnames
      obtain ⟨sl, hsl, hname, hl⟩ := (r.lists_iff_names file line).mpr hnames
      exact ⟨sl, hlists sl hsl, hname, hl⟩
  · exact List.pairwise_map.mpr ((hsound.sorted file).imp Nat.ne_of_lt)

end LockDoc.Coverage
