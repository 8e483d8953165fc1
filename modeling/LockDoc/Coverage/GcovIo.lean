import Mathlib.Tactic.IntervalCases
import LockDoc.Lib.Window

/-!
# Words of a notes file

`bb2lines/gcov-io.cpp`: a `.gcno` file is read in words of four bytes through a buffer that grows
with the longest request. Numbers are in the byte order of the machine that wrote the file, which
the magic number tells; strings are in whole words, padded with zeros.
-/
namespace LockDoc.Coverage

/-- Four bytes in the order in which they lie in the file. -/
structure Word where
  b₀ : UInt8
  b₁ : UInt8
  b₂ : UInt8
  b₃ : UInt8
  deriving DecidableEq, Repr

namespace Word

def bytes (w : Word) : List UInt8 := [w.b₀, w.b₁, w.b₂, w.b₃]

/-- The number that a little-endian machine reads. -/
def value (w : Word) : UInt32 :=
  UInt32.ofBitVec (w.b₃.toBitVec ++ w.b₂.toBitVec ++ w.b₁.toBitVec ++ w.b₀.toBitVec)

/-- The number as a machine of this byte order writes it. -/
def ofUInt32 (bigEndian : Bool) (v : UInt32) : Word :=
  let byte i := UInt8.ofBitVec (v.toBitVec.extractLsb' (8 * i) 8)
  if bigEndian then ⟨byte 3, byte 2, byte 1, byte 0⟩ else ⟨byte 0, byte 1, byte 2, byte 3⟩

def number (bigEndian : Bool) (n : Nat) : Word := ofUInt32 bigEndian (UInt32.ofNat n)

end Word

/-- `GCOV_BLOCK_SIZE`. -/
def gcovBlockSize : Nat := 1024

/-- `struct gcov_var`, with the words of the open file and the place `filePos` in it from which
`fread` goes on. `buffer` holds the words below `length`; the error flag is never set. -/
structure GcovVar where
  file : List Word
  filePos : Nat
  start : Nat
  offset : Nat
  endian : Bool
  alloc : Nat
  buffer : List Word
  deriving Repr

/-- The bytes of `unsigned` wrap around. -/
def wrapUnsigned (n : Nat) : Nat := n % 2 ^ 32

def swapBytes (value : UInt32) : UInt32 :=
  let value := (value >>> 16) ||| (value <<< 16)
  ((value &&& 0xff00ff) <<< 8) ||| ((value >>> 8) &&& 0xff00ff)

namespace GcovVar

def gcovOpen (file : List Word) : GcovVar := ⟨file, 0, 0, 0, false, 0, []⟩

def length (g : GcovVar) : Nat := g.buffer.length

def fromFile (g : GcovVar) (value : UInt32) : UInt32 := if g.endian then swapBytes value else value

/-- The first result is 1, -1 or 0. -/
def gcovMagic (g : GcovVar) (magic expected : UInt32) : Int × GcovVar :=
  if magic = expected then (1, g)
  else if swapBytes magic = expected then (-1, { g with endian := true })
  else (0, g)

/-- The size of the buffer after `gcov_allocate`. -/
def allocate (alloc length : Nat) : Nat := ((if alloc = 0 then gcovBlockSize else alloc) + length) * 2

/-- The buffer with what is left of it in front, filled up from the file. The number of bytes that
`fread` is asked for is an `unsigned`. -/
def fill (g : GcovVar) (words : Nat) : GcovVar :=
  let left := g.buffer.drop g.offset
  let needed := wrapUnsigned (left.length + words)
  let alloc := if needed > g.alloc then allocate g.alloc needed else g.alloc
  let excess := wrapUnsigned (alloc - left.length)
  let more := (g.file.drop g.filePos).take (wrapUnsigned (excess * 4) / 4)
  { g with
    start := g.start + g.offset, offset := 0, alloc := alloc
    buffer := left ++ more, filePos := g.filePos + more.length }

def gcovReadWords (g : GcovVar) (words : Nat) : Option (List Word) × GcovVar :=
  if g.length - g.offset < words then
    let g := g.fill words
    if g.length < words then (none, { g with buffer := [] })
    else (some (g.buffer.take words), { g with offset := words })
  else (some ((g.buffer.drop g.offset).take words), { g with offset := g.offset + words })

def gcovReadUnsigned (g : GcovVar) : Nat × GcovVar :=
  match g.gcovReadWords 1 with
  | (some (w :: _), g) => ((g.fromFile w.value).toNat, g)
  | (_, g) => (0, g)

def gcovPosition (g : GcovVar) : Nat := g.start + g.offset

/-- Goes to the end of a record: inside the buffer, or with `fseek` in the file. -/
def gcovSync (g : GcovVar) (base length : Nat) : GcovVar :=
  let base := wrapUnsigned (base + length)
  let ahead := wrapUnsigned (base + 2 ^ 32 - g.start)
  if ahead ≤ g.length then { g with offset := ahead }
  else
    let place := wrapUnsigned (base * 4) / 4
    { g with offset := 0, buffer := [], filePos := place, start := place }

/-- The characters up to the zero that ends a string. -/
def cString (words : List Word) : String :=
  String.ofList (((words.flatMap Word.bytes).takeWhile (· ≠ 0)).map fun b => Char.ofNat b.toNat)

def gcovReadString (g : GcovVar) : Option String × GcovVar :=
  let (length, g) := g.gcovReadUnsigned
  if length = 0 then (none, g)
  else
    let (words, g) := g.gcovReadWords length
    (words.map cString, g)

end GcovVar

theorem getLsbD_swapBytes (v : UInt32) {i : Nat} (hi : i < 32) :
    (swapBytes v).toBitVec.getLsbD i = v.toBitVec.getLsbD (24 - 8 * (i / 8) + i % 8) := by
  simp only [swapBytes, UInt32.toBitVec_or, UInt32.toBitVec_and, UInt32.toBitVec_shiftLeft, UInt32.toBitVec_shiftRight]
  interval_cases i <;> simp

theorem value_littleEndian (v : UInt32) : (Word.ofUInt32 false v).value = v := by
  apply UInt32.eq_of_toBitVec_eq
  apply BitVec.eq_of_getLsbD_eq
  intro i hi
  simp only [Word.ofUInt32, Word.value, BitVec.getLsbD_append, BitVec.getLsbD_extractLsb', Bool.false_eq_true, if_false]
  grind

theorem swapBytes_bigEndian (v : UInt32) : swapBytes (Word.ofUInt32 true v).value = v := by
  apply UInt32.eq_of_toBitVec_eq
  apply BitVec.eq_of_getLsbD_eq
  intro i hi
  rw [getLsbD_swapBytes _ hi]
  simp only [Word.ofUInt32, Word.value, BitVec.getLsbD_append, BitVec.getLsbD_extractLsb', if_true]
  grind

/-- A number is read as it was written. -/
theorem value_number {bigEndian : Bool} {n : Nat} (hn : n < 2 ^ 32) :
    (if bigEndian then swapBytes (Word.number bigEndian n).value else (Word.number bigEndian n).value).toNat = n := by
  cases bigEndian with
  | false =>
    rw [if_neg Bool.false_ne_true, Word.number, value_littleEndian]
    exact UInt32.toNat_ofNat_of_lt hn
  | true =>
    rw [if_pos rfl, Word.number, swapBytes_bigEndian]
    exact UInt32.toNat_ofNat_of_lt hn

namespace GcovVar

/-- The reader is at a place of the file from which on it holds these words, in this byte order. -/
structure At (g : GcovVar) (bigEndian : Bool) (rest : List Word) : Prop where
  window : Window.Shows g.file g.start g.offset g.buffer g.filePos
  rest : g.file.drop g.gcovPosition = rest
  endian : g.endian = bigEndian
  room : g.length ≤ g.alloc
  bounded : g.alloc < 2 ^ 30
  small : g.file.length < 2 ^ 27

/-- `n` words further on. -/
structure Advances (g g' : GcovVar) (bigEndian : Bool) (n : Nat) (rest : List Word) : Prop where
  reached : g'.At bigEndian rest
  position : g'.gcovPosition = g.gcovPosition + n

variable {g g' g'' : GcovVar} {bigEndian : Bool} {words rest : List Word} {n n' : Nat}

theorem At.open (file : List Word) (h : file.length < 2 ^ 27) : (gcovOpen file).At false file :=
  ⟨Window.Shows.init file, rfl, rfl, Nat.le_refl _, Nat.two_pow_pos 30, h⟩

theorem Advances.trans (h : Advances g g' bigEndian n words) (h' : Advances g' g'' bigEndian n' rest) :
    Advances g g'' bigEndian (n + n') rest :=
  ⟨h'.reached, by rw [h'.position, h.position, Nat.add_assoc]⟩

theorem At.position_le (h : g.At bigEndian rest) : g.gcovPosition + rest.length = g.file.length := by
  have hlen := congrArg List.length h.rest
  have hin := h.window.inside
  have hwithin := h.window.within
  have hfilled := h.window.filled
  rw [List.length_drop] at hlen
  unfold gcovPosition at *
  omega

/-- Below 2^30 words the number of bytes does not wrap around. -/
theorem wrap_bytes {n : Nat} (hn : n < 2 ^ 30) : wrapUnsigned (wrapUnsigned n * 4) / 4 = n := by
  unfold wrapUnsigned
  omega

theorem length_fill (g : GcovVar) (n : Nat) : (g.fill n).length = (g.buffer.drop g.offset).length +
    min (wrapUnsigned (wrapUnsigned ((g.fill n).alloc - (g.buffer.drop g.offset).length) * 4) / 4)
      (g.file.length - g.filePos) := by
  simp [GcovVar.fill, GcovVar.length]

/-- The buffer after a refill shows the same place, and holds what was asked for if the file does.
Its size stays below 2^30 words. -/
theorem At.fill (h : g.At bigEndian (words ++ rest)) :
    (g.fill words.length).At bigEndian (words ++ rest) ∧ (g.fill words.length).gcovPosition = g.gcovPosition ∧
      words.length ≤ (g.fill words.length).length := by
  have hlen := h.position_le
  have hsmall := h.small
  have hroom := h.room
  have hbounded := h.bounded
  have hin := h.window.inside
  have hfilled := h.window.filled
  have hwithin := h.window.within
  rw [List.length_append] at hlen
  have hleft : (g.buffer.drop g.offset).length = g.length - g.offset := List.length_drop
  have hfile : (g.buffer.drop g.offset).length + words.length ≤ 2 * g.file.length := by
    unfold gcovPosition at hlen
    unfold GcovVar.length at *
    omega
  have hneeded : wrapUnsigned ((g.buffer.drop g.offset).length + words.length) =
      (g.buffer.drop g.offset).length + words.length := by
    apply Nat.mod_eq_of_lt
    omega
  have hposition : (g.fill words.length).gcovPosition = g.gcovPosition := rfl
  have halloc : (g.buffer.drop g.offset).length + words.length ≤ (g.fill words.length).alloc := by
    simp only [GcovVar.fill, hneeded, allocate]
    split <;> omega
  have hgrown : (g.fill words.length).alloc < 2 ^ 30 := by
    simp only [GcovVar.fill, hneeded, allocate, gcovBlockSize]
    split
    · split <;> omega
    · exact hbounded
  have hbytes := wrap_bytes (Nat.lt_of_le_of_lt (Nat.sub_le _ (g.buffer.drop g.offset).length) hgrown)
  have hbuffer : (g.fill words.length).length = (g.buffer.drop g.offset).length +
      min ((g.fill words.length).alloc - (g.buffer.drop g.offset).length) (g.file.length - g.filePos) := by
    rw [length_fill, hbytes]
  refine ⟨⟨h.window.refill _, h.rest, h.endian, ?_, hgrown, hsmall⟩, hposition, ?_⟩
  · rw [hbuffer]
    omega
  · rw [hbuffer]
    unfold gcovPosition at hlen
    unfold GcovVar.length at *
    omega

/-- What comes next in the file is read, whether it is in the buffer or not. -/
theorem At.readWords (h : g.At bigEndian (words ++ rest)) :
    ∃ g', g.gcovReadWords words.length = (some words, g') ∧ Advances g g' bigEndian words.length rest := by
  have htake : ∀ {g : GcovVar}, g.At bigEndian (words ++ rest) → g.offset + words.length ≤ g.length →
      (g.buffer.drop g.offset).take words.length = words ∧
        Advances g { g with offset := g.offset + words.length } bigEndian words.length rest := by
    intro g h hn
    obtain ⟨htake, hshows⟩ := h.window.take hn
    have hrest := h.rest
    unfold gcovPosition at hrest
    rw [hrest, List.take_left] at htake
    have hdrop : g.file.drop (g.start + (g.offset + words.length)) = rest := by
      rw [← Nat.add_assoc, ← List.drop_drop, hrest, List.drop_left]
    exact ⟨htake, ⟨hshows, hdrop, h.endian, h.room, h.bounded, h.small⟩, (Nat.add_assoc _ _ _).symm⟩
  unfold gcovReadWords
  split
  · obtain ⟨hat, hposition, hlen⟩ := h.fill
    have hzero : (g.fill words.length).offset = 0 := rfl
    obtain ⟨hread, hadv⟩ := htake hat (by rw [hzero, Nat.zero_add]; exact hlen)
    rw [hzero, List.drop_zero] at hread
    rw [hzero, Nat.zero_add] at hadv
    refine ⟨{ g.fill words.length with offset := words.length }, ?_, hadv.reached, ?_⟩
    · rw [if_neg (Nat.not_lt.mpr hlen), hread]
    · rw [hadv.position, hposition]
  · rename_i hn
    have hin := h.window.inside
    obtain ⟨hread, hadv⟩ := htake h (by unfold GcovVar.length at *; omega)
    exact ⟨_, by rw [hread], hadv⟩

/-- At the end of the file nothing is read. -/
theorem At.readUnsigned_end (h : g.At bigEndian []) : g.gcovReadUnsigned.1 = 0 := by
  have hlen := h.position_le
  have hin := h.window.inside
  have hfilled := h.window.filled
  have hwithin := h.window.within
  have hempty : g.length - g.offset = 0 := by
    unfold gcovPosition at hlen
    unfold GcovVar.length
    simp only [List.length_nil] at hlen
    omega
  have hnone : (g.fill 1).length < 1 := by
    unfold gcovPosition at hlen
    simp only [List.length_nil] at hlen
    simp only [GcovVar.fill, GcovVar.length, List.length_append, List.length_drop, List.length_take] at *
    omega
  have hread : g.gcovReadWords 1 = (none, { g.fill 1 with buffer := [] }) := by
    rw [gcovReadWords, hempty, if_pos Nat.zero_lt_one]
    exact if_pos hnone
  rw [gcovReadUnsigned, hread]

theorem At.readWord {w : Word} (h : g.At bigEndian (w :: rest)) :
    ∃ g', g.gcovReadUnsigned = ((if bigEndian then swapBytes w.value else w.value).toNat, g') ∧
      Advances g g' bigEndian 1 rest := by
  have hword : g.At bigEndian ([w] ++ rest) := h
  obtain ⟨g', hread, hadv⟩ := hword.readWords
  have hread' : g.gcovReadWords 1 = (some [w], g') := hread
  refine ⟨g', ?_, hadv⟩
  rw [gcovReadUnsigned, hread']
  simp only [fromFile, hadv.reached.endian]

theorem At.readUnsigned (h : g.At bigEndian (Word.number bigEndian n :: rest)) (hn : n < 2 ^ 32) :
    ∃ g', g.gcovReadUnsigned = (n, g') ∧ Advances g g' bigEndian 1 rest := by
  obtain ⟨g', hread, hadv⟩ := h.readWord
  refine ⟨g', ?_, hadv⟩
  rw [hread, value_number hn]

/-- The end of a record is found, inside the buffer or behind it. -/
theorem At.sync (h : g.At bigEndian (words ++ rest)) {base length : Nat}
    (hbase : base + length = g.gcovPosition + words.length) :
    (g.gcovSync base length).At bigEndian rest := by
  have hlen := h.position_le
  have hsmall := h.small
  have hin := h.window.inside
  rw [List.length_append] at hlen
  have hwrap : wrapUnsigned (base + length) = base + length := Nat.mod_eq_of_lt (by omega)
  have hahead : wrapUnsigned (base + length + 2 ^ 32 - g.start) = base + length - g.start := by
    unfold wrapUnsigned
    unfold gcovPosition at hbase hlen
    omega
  have hplace : wrapUnsigned ((base + length) * 4) / 4 = base + length := by
    unfold wrapUnsigned
    omega
  have hdrop : g.file.drop (base + length) = rest := by
    rw [hbase, ← List.drop_drop, h.rest, List.drop_left]
  unfold gcovSync
  simp only [hwrap, hahead, hplace]
  split
  · rename_i hn
    have hpos : g.start + (base + length - g.start) = base + length := by
      unfold gcovPosition at hbase
      omega
    refine ⟨h.window.seek hn, ?_, h.endian, h.room, h.bounded, hsmall⟩
    rw [← hdrop]
    exact congrArg (g.file.drop ·) hpos
  · have hle : base + length ≤ g.file.length := by omega
    exact ⟨Window.Shows.jump hle, hdrop, h.endian, Nat.zero_le _, h.bounded, hsmall⟩

end GcovVar

end LockDoc.Coverage
