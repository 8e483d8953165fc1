import LockDoc.Lib.Run
import LockDoc.Hypothesizer.Member

/-!
# Reading the input

The loop of `main` that reads the input file. A line names a data type, members of it,
the locks held and the number of accesses; locks and members are numbered by their first
appearance. The maps `lock_to_id` and `member_to_id` are the positions in the lists of
locks and of members, and are not kept apart from them.
-/
namespace LockDoc.Hypothesizer

/-- The fields that `while (getline(stream, field, delim))` reads: an empty field at the
end of the stream is not seen. -/
def getlines (delim : Char) : List Char → List (List Char)
  | [] => []
  | c :: cs =>
    if c = delim then [] :: getlines delim cs
    else match getlines delim cs with
      | [] => [[c]]
      | field :: fields => (c :: field) :: fields

theorem getlines_append {delim : Char} {field rest : List Char} (h : delim ∉ field) :
    getlines delim (field ++ delim :: rest) = field :: getlines delim rest := by
  induction field with
  | nil => simp [getlines]
  | cons c field ih =>
    have hc : c ≠ delim := fun he => h (he ▸ List.mem_cons_self)
    rw [List.cons_append, getlines, if_neg hc, ih fun hm => h (List.mem_cons_of_mem _ hm)]

theorem getlines_last {delim : Char} {field : List Char} (h : delim ∉ field) (hne : field ≠ []) :
    getlines delim field = [field] := by
  induction field with
  | nil => exact absurd rfl hne
  | cons c field ih =>
    have hc : c ≠ delim := fun he => h (he ▸ List.mem_cons_self)
    rw [getlines, if_neg hc]
    cases field with
    | nil => rfl
    | cons d field => rw [ih (fun hm => h (List.mem_cons_of_mem _ hm)) (by simp)]

/-- The fields between the delimiters come back, if none of them is empty. -/
theorem getlines_intercalate {delim : Char} {fields : List (List Char)} (h : ∀ f ∈ fields, delim ∉ f ∧ f ≠ []) :
    getlines delim ([delim].intercalate fields) = fields := by
  induction fields with
  | nil => rfl
  | cons field fields ih =>
    have hf := h field List.mem_cons_self
    cases fields with
    | nil => simpa [List.intercalate] using getlines_last hf.1 hf.2
    | cons next fields =>
      have hcons : [delim].intercalate (field :: next :: fields) =
          field ++ delim :: [delim].intercalate (next :: fields) := by simp [List.intercalate]
      rw [hcons, getlines_append hf.1, ih fun f hm => h f (List.mem_cons_of_mem _ hm)]

/-- `isspace` in the "C" locale. -/
def isspace (c : Char) : Bool :=
  c = ' ' || c = '\t' || c = '\n' || c = '\x0b' || c = '\x0c' || c = '\x0d'

def isdigit (c : Char) : Bool := '0' ≤ c && c ≤ '9'

/-- The value of a sequence of decimal digits. -/
def decimal (digits : List Char) : Nat := digits.foldl (fun n c => 10 * n + (c.toNat - '0'.toNat)) 0

/-- `std::stoull`: blanks, a sign, and at least one digit; what follows is ignored. -/
def stoull (text : List Char) : Except Stop Nat :=
  let text := text.dropWhile isspace
  let (negative, text) := match text with
    | '-' :: rest => (true, rest)
    | '+' :: rest => (false, rest)
    | _ => (false, text)
  match text.takeWhile isdigit with
  | [] => .error .invalidArgument
  | digits =>
    if 2 ^ 64 ≤ decimal digits then .error .outOfRange
    else if negative then .ok ((2 ^ 64 - decimal digits) % 2 ^ 64)
    else .ok (decimal digits)

/-- A line with its four columns taken apart. -/
structure DataLine where
  datatype : List Char
  members : List (List Char)
  locks : List (List Char)
  occurrences : Nat
  deriving DecidableEq, Repr

/-- A line without exactly four columns is skipped. -/
def parseLine (inputLine : List Char) : Except Stop (Option DataLine) :=
  match getlines '\t' inputLine with
  | [datatype, members, locks, occurrences] => do
    let occurrences ← stoull occurrences
    .ok (some ⟨datatype, getlines ',' members, (getlines ',' locks).filter (· ≠ []), occurrences⟩)
  | _ => .ok none

/-- The key of `member_to_id`. -/
abbrev MemberKey := List Char × List Char

/-- A member with its entry of `members_combinations`: the count of every held-lock sequence. -/
structure Entry (κ : Type := Nat) where
  key : MemberKey
  member : Member κ
  combinations : Std.ExtTreeMap (List MyId) κ

namespace Entry

variable {κ : Type}

def new [OfNat κ 0] (key : MemberKey) : Entry κ := ⟨key, Member.new key.1 key.2, ∅⟩

/-- Accesses under a held-lock sequence. -/
def add [OfNat κ 0] [Add κ] (entry : Entry κ) (locksHeld : List MyId) (occurrences : κ) : Entry κ :=
  { entry with
    member :=
      { entry.member with
        occurrences := entry.member.occurrences + occurrences
        occurrencesWithLocks := entry.member.occurrencesWithLocks + if 0 < locksHeld.length then occurrences else 0 }
    combinations := entry.combinations.insert locksHeld (entry.combinations.getD locksHeld 0 + occurrences) }

/-- `map2vec(members_combinations[i], members[i].combinations)`. -/
def copy (entry : Entry κ) : Entry κ :=
  { entry with
    member :=
      { entry.member with
        combinations := entry.member.combinations ++ entry.combinations.toList.map (fun kv => ⟨kv.2, kv.1⟩) } }

end Entry

/-- The locks and the members seen so far, in the order of their ids. -/
structure Input (κ : Type := Nat) where
  locks : List (List Char)
  members : List (Entry κ)

/-- The id of a lock, which is new or known. -/
def lockIdFor (locks : List (List Char)) (inputElement : List Char) : Except Stop (MyId × List (List Char)) :=
  if inputElement ∈ locks then .ok (locks.idxOf inputElement, locks)
  else if 65535 < locks.length then .error .tooManyLocks
  else .ok (locks.length, locks ++ [inputElement])

/-- The loop over the lock column. -/
def readLocks : List (List Char) → List (List Char) → Except Stop (List MyId × List (List Char))
  | [], locks => .ok ([], locks)
  | inputElement :: rest, locks => do
    let (lockId, locks) ← lockIdFor locks inputElement
    let (ids, locks) ← readLocks rest locks
    .ok (lockId :: ids, locks)

section

variable {κ : Type} [OfNat κ 0] [Add κ]

/-- The body of the loop over the member column. -/
def addMention (datatype : List Char) (locksHeld : List MyId) (occurrences : κ) (members : List (Entry κ))
    (inputElement : List Char) : Except Stop (List (Entry κ)) := do
  let members ← (if (datatype, inputElement) ∈ members.map Entry.key then .ok members
    else if 65535 < members.length then .error .tooManyMembers
    else .ok (members ++ [Entry.new (datatype, inputElement)]))
  .ok (members.map (fun e => if e.key = (datatype, inputElement) then e.add locksHeld occurrences else e))

variable [NatCast κ]

def addLine (input : Input κ) (line : DataLine) : Except Stop (Input κ) := do
  let (locksHeld, locks) ← readLocks line.locks input.locks
  let members ← line.members.foldlM (addMention line.datatype locksHeld (line.occurrences : κ)) input.members
  .ok ⟨locks, members⟩

def readLine (input : Input κ) (inputLine : List Char) : Except Stop (Input κ) := do
  match ← parseLine inputLine with
  | some line => addLine input line
  | none => .ok input

end

/-- The first line is a header unless it ends with a decimal digit. -/
def isHeader (inputLine : List Char) : Bool := inputLine.getLast?.all (fun c => !isdigit c)

/-- The lines of a file without the header. -/
def dataLines (file : List Char) : List (List Char) :=
  match getlines '\n' file with
  | [] => []
  | first :: rest => if isHeader first then rest else first :: rest

/-- The loop that copies the combinations, with its 16-bit index. -/
def copyCombinations {κ : Type} : Nat → Nat → List (Entry κ) → Except Stop (List (Entry κ))
  | 0, i, members => if i < members.length then .error .outOfFuel else .ok members
  | fuel + 1, i, members =>
    if i < members.length then copyCombinations fuel ((i + 1) % 2 ^ 16) (members.modify i Entry.copy)
    else .ok members

/-- The input file in memory, as `find_hypotheses` sees it. -/
def load {κ : Type} [OfNat κ 0] [Add κ] [NatCast κ] (fuel : Nat) (file : List Char) : Except Stop (Input κ) := do
  let input ← (dataLines file).foldlM readLine ⟨[], []⟩
  let members ← copyCombinations fuel 0 input.members
  .ok { input with members := members }

end LockDoc.Hypothesizer
