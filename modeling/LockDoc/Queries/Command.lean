import LockDoc.Processing.ReadBack
import LockDoc.Queries.Agreement
import LockDoc.Queries.Arguments
import LockDoc.Queries.TxnMembersLocks

/-!
# From the report to the counterexamples

The report has a command line for every lock order that some access lacks. The shell takes it
apart, the script puts the locks it reads into the joins of a query, and the query lists the
accesses to the member for which the joins find nothing.
-/
namespace LockDoc.Queries

open FallibleRun (bind_ok)
open LockDoc.Convert (AccessKind)
open LockDoc.Hypothesizer
open Worklist

/-- A character without a meaning of its own in a command line. -/
def isWordChar (c : Char) : Bool := isIdentChar c || c = ':' || c = '.' || c = '-' || c = '/'

/-- `eval`: the words of a command line. Blanks separate them, single quotes keep everything; what
else the shell knows is not in these lines. -/
def shellWords : Option Text → Bool → Text → Option (List Text)
  | word, false, [] => some word.toList
  | _, true, [] => none
  | word, true, c :: rest =>
    if c = '\'' then shellWords word false rest else shellWords (some (word.getD [] ++ [c])) true rest
  | word, false, c :: rest =>
    if c = '\'' then shellWords (some (word.getD [])) true rest
    else if c = ' ' then (shellWords none false rest).map fun words => word.toList ++ words
    else if isWordChar c then shellWords (some (word.getD [] ++ [c])) false rest
    else none

def LockArg.isEmbOther : LockArg → Bool
  | .embOther _ => true
  | _ => false

/-- The joins for one lock, as for a label. -/
structure ArgJoin where
  lock : LockArg
  afterEmbOther : Option Nat
  afterPrevious : Option Nat
  deriving DecidableEq, Repr

/-- What the script generates a query from. -/
structure Query where
  dataType : Text
  subclass : Option Text
  accessType : Text
  member : Text
  counterexamples : Bool
  joins : List ArgJoin
  deriving DecidableEq, Repr

/-- The loop over the locks. -/
def argJoins (connector : Connector) : Nat → Nat → List Text → Except ArgError (List ArgJoin)
  | _, _, [] => .ok []
  | lockNr, lastEmbOther, text :: rest => do
    let lock ← lockArg text
    let joins ← argJoins connector (lockNr + 1) (if lock.isEmbOther then lockNr else lastEmbOther) rest
    .ok (⟨lock,
      if lock.isEmbOther && lastEmbOther > 0 then some lastEmbOther else none,
      if connector = .seq && lockNr > 1 then some (lockNr - 1) else none⟩ :: joins)

/-- `counterexample.sql.sh`. -/
def script (args : List Text) : Except ArgError Query :=
  match args with
  | combinedDataType :: combinedMember :: mode :: connector :: lock :: locks =>
    if combinedMember[1]? ≠ some ':' then .error .notAccessTypeMember
    else if mode ≠ "CEX".toList ∧ mode ≠ "EX".toList then .error .unknownMode
    else do
      let joins ← argJoins (if connector = "SEQ".toList then .seq else .any) 1 0 (lock :: locks)
      .ok
        { dataType := if ':' ∈ combinedDataType then cutFirst combinedDataType else combinedDataType
          subclass := if ':' ∈ combinedDataType then some (cutSecond combinedDataType) else none
          accessType := combinedMember.take 1
          member := combinedMember.drop 2
          counterexamples := decide (mode = "CEX".toList)
          joins := joins }
  | _ => .error .usage

/-- `SUBLOCK_COND`. -/
def subLockArgCond (subLock : Text) (l : HeldLock) : Bool := subLock = ['r'] || subLockText l.subLock = subLock

def EmbeddedArg.cond (e : EmbeddedArg) (e' : Embedding) (l : HeldLock) : Bool :=
  subLockArgCond e.subLock l && e'.dataType.toList = e.dataType &&
    e.subclass.all (fun s => e'.subclass.any fun s' => s'.toList = s) && e'.member.any fun m => m.toList = e.lockName

/-- The join conditions of a lock on a held lock. -/
def LockArg.cond (lockAddress : Nat → Option Nat) (allocId : Nat) (l : HeldLock) : LockArg → Bool
  | .global id subLock =>
    if subLock = ['r'] then lockAddress (Nat.ofDigitChars 10 id 0) = some l.address else l.id = Nat.ofDigitChars 10 id 0
  | .embSame e => l.embeddedIn.any fun (a, e') => a = allocId && e.cond e' l
  | .embOther e => l.embeddedIn.any fun (a, e') => a ≠ allocId && e.cond e' l

def ArgJoin.extend (lockAddress : Nat → Option Nat) (a : Access) (j : ArgJoin) (row : List HeldLock) :
    List (List HeldLock) :=
  (a.held.filter fun l => j.lock.cond lockAddress a.allocId l && startsAfter row j.afterEmbOther l &&
    startsAfter row j.afterPrevious l).map fun l => row ++ [l]

def argRows (lockAddress : Nat → Option Nat) (a : Access) (joins : List ArgJoin) : List (List HeldLock) :=
  joins.foldl (fun rows j => rows.flatMap (j.extend lockAddress a)) [[]]

/-- The locks held at an access; without a transaction there are none. -/
def Database.access (db : Database) (a : FlatAccess) : Access :=
  match a.txnId with
  | none => ⟨a.allocId, [], List.Pairwise.nil⟩
  | some txn => ⟨a.allocId, db.held txn, db.ordered txn⟩

/-- The accesses that the query lists. -/
def Query.accesses (lockAddress : Nat → Option Nat) (db : Database) (q : Query) : List FlatAccess :=
  db.accessesFlat.filter fun a =>
    (db.dataTypeName a.dataTypeId).toList = q.dataType &&
      q.subclass.all (fun s => (db.subclass a.subclassId).2.any fun s' => s'.toList = s) &&
      (db.memberName a.memberNameId).toList = q.member && [a.acType.action] = q.accessType &&
      (argRows lockAddress (db.access a) q.joins ≠ []) != q.counterexamples

/-! ## The words of a command line -/

theorem shellWords_word {word : Text} (hword : word.all isWordChar = true) (hne : word ≠ []) (rest : Text) :
    shellWords none false (word ++ ' ' :: rest) = (shellWords none false rest).map (word :: ·) := by
  have hstep : ∀ (front : Option Text) (word : Text), word.all isWordChar = true → front ≠ none ∨ word ≠ [] →
      shellWords front false (word ++ ' ' :: rest) =
        (shellWords none false rest).map ((front.getD [] ++ word) :: ·) := by
    intro front word hword
    induction word generalizing front with
    | nil =>
      intro hne
      obtain ⟨w, rfl⟩ := Option.ne_none_iff_exists'.mp (hne.resolve_right (by simp))
      simp [shellWords]
    | cons c word ih =>
      intro _
      rw [List.all_cons, Bool.and_eq_true] at hword
      have hquote : c ≠ '\'' := fun he => absurd (he ▸ hword.1) (by decide)
      have hblank : c ≠ ' ' := fun he => absurd (he ▸ hword.1) (by decide)
      rw [List.cons_append, shellWords, if_neg hquote, if_neg hblank, if_pos hword.1, ih _ hword.2 (.inl (by simp))]
      simp
  exact hstep none word hword (.inr hne)

theorem shellWords_inside {text : Text} (hquote : '\'' ∉ text) (front : Text) (rest : Text) :
    shellWords (some front) true (text ++ '\'' :: rest) = shellWords (some (front ++ text)) false rest := by
  induction text generalizing front with
  | nil => simp [shellWords]
  | cons c text ih =>
    rw [List.mem_cons, not_or] at hquote
    rw [List.cons_append, shellWords, if_neg (Ne.symm hquote.1), Option.getD_some, ih hquote.2]
    simp

/-- Quoted words are words, whatever is in them. -/
theorem shellWords_quoted (texts : List Text) (hquote : ∀ t ∈ texts, '\'' ∉ t) (hne : texts ≠ []) :
    shellWords none false ([' '].intercalate (texts.map fun t => ['\''] ++ t ++ ['\''])) = some texts := by
  induction texts with
  | nil => exact absurd rfl hne
  | cons t texts ih =>
    have ht := hquote t List.mem_cons_self
    cases texts with
    | nil =>
      have hone : [' '].intercalate ([t].map fun t => ['\''] ++ t ++ ['\'']) = '\'' :: (t ++ '\'' :: []) := by simp
      rw [hone, shellWords, if_pos rfl, Option.getD_none, shellWords_inside ht]
      simp [shellWords]
    | cons t' texts =>
      have hsplit : [' '].intercalate ((t :: t' :: texts).map fun t => ['\''] ++ t ++ ['\'']) =
          '\'' :: (t ++ '\'' :: ' ' :: [' '].intercalate ((t' :: texts).map fun t => ['\''] ++ t ++ ['\''])) := by
        simp [List.intercalate]
      rw [hsplit, shellWords, if_pos rfl, Option.getD_none, shellWords_inside ht, shellWords, if_neg (by decide),
        if_pos rfl, ih (fun t ht => hquote t (List.mem_cons_of_mem _ ht)) (by simp)]
      simp

/-! ## The joins of the script -/

theorem subLockText_injective {s s' : LockDoc.Convert.SubLock} : subLockText s = subLockText s' ↔ s = s' := by
  cases s <;> cases s' <;> decide

theorem subLockArgCond_text (s : LockDoc.Convert.SubLock) (l : HeldLock) :
    subLockArgCond (subLockText s) l = subLockCond s l.subLock := by
  have hreader : subLockText s = ['r'] ↔ s = .reader := by cases s <;> decide
  simp [subLockArgCond, subLockCond, hreader, subLockText_injective]

theorem Embedding.arg_cond {e : Embedding} (he : (e.exact && e.member.isSome) = true) (s : LockDoc.Convert.SubLock)
    (e' : Embedding) (l : HeldLock) : (e.arg s).cond e' l = embeddedCond e s e' l := by
  rw [Bool.and_eq_true] at he
  obtain ⟨m, hm⟩ := Option.isSome_iff_exists.mp he.2
  rw [EmbeddedArg.cond, embeddedCond, Embedding.arg, subLockArgCond_text, hm]
  rw [Bool.eq_iff_iff]
  cases e.subclass <;> cases e'.subclass <;> cases e'.member <;> simp [String.toList_inj]

/-- The conditions on texts are those on the labels. -/
theorem Label.arg_cond {lock : Label} (h : lock.locatable = true) (lockAddress : Nat → Option Nat) (allocId : Nat)
    (l : HeldLock) : lock.arg.cond lockAddress allocId l = joinCond lockAddress allocId lock l := by
  obtain ⟨place, s⟩ := lock
  cases place with
  | global lockVarName id lockType =>
    cases s <;> simp [Label.arg, LockArg.cond, joinCond, subLockText, Text.ofDigitChars_ofNat]
  | embSame e => simp only [Label.arg, LockArg.cond, joinCond, Embedding.arg_cond h]
  | embOther e => simp only [Label.arg, LockArg.cond, joinCond, Embedding.arg_cond h]

theorem Label.arg_isEmbOther (lock : Label) : lock.arg.isEmbOther = lock.isEmbOther := by
  obtain ⟨place, s⟩ := lock
  cases place <;> rfl

def LockJoin.arg (j : LockJoin) : ArgJoin := ⟨j.lock.arg, j.afterEmbOther, j.afterPrevious⟩

/-- On labels the loop is the one that reads no text. -/
theorem argJoins_text (connector : Connector) {locks : List Label} (h : ∀ lock ∈ locks, lock.place.Legible)
    (lockNr lastEmbOther : Nat) :
    argJoins connector lockNr lastEmbOther (locks.map Label.text) =
      match lockJoins connector lockNr lastEmbOther locks with
      | .ok joins => .ok (joins.map LockJoin.arg)
      | .error _ => .error .notLocatable := by
  induction locks generalizing lockNr lastEmbOther with
  | nil => rfl
  | cons lock locks ih =>
    rw [List.map_cons, argJoins, lockArg_text (h lock List.mem_cons_self), lockJoins]
    cases hl : lock.locatable with
    | false => rfl
    | true =>
      have hrest := ih (fun lock hlock => h lock (List.mem_cons_of_mem _ hlock)) (lockNr + 1)
        (if lock.isEmbOther then lockNr else lastEmbOther)
      simp only [if_true, Bool.not_true, Bool.false_eq_true, if_false]
      change (argJoins connector (lockNr + 1) (if lock.arg.isEmbOther then lockNr else lastEmbOther)
        (locks.map Label.text) >>= _) = _
      rw [Label.arg_isEmbOther, hrest]
      cases lockJoins connector (lockNr + 1) (if lock.isEmbOther then lockNr else lastEmbOther) locks with
      | error _ => rfl
      | ok joins => simp only [bind, Except.bind, List.map_cons, LockJoin.arg]

/-- The rows of the joins are those of the labels. -/
theorem argRows_arg {connector : Connector} {locks : List Label} {lockNr lastEmbOther : Nat} {joins : List LockJoin}
    (h : lockJoins connector lockNr lastEmbOther locks = .ok joins) (lockAddress : Nat → Option Nat) (a : Access) :
    argRows lockAddress a (joins.map LockJoin.arg) = joinRows lockAddress a joins := by
  have hloc : ∀ j ∈ joins, j.lock.locatable = true := by
    induction locks generalizing lockNr lastEmbOther joins with
    | nil =>
      cases h
      simp
    | cons lock locks ih =>
      unfold lockJoins at h
      split at h
      · cases h
      · rename_i hl
        obtain ⟨joins', hrest, h⟩ := bind_ok.mp h
        cases h
        exact List.forall_mem_cons.mpr ⟨by simpa using hl, ih hrest⟩
  rw [argRows, joinRows, List.foldl_map]
  refine List.foldl_ext _ _ _ fun rows j hj => ?_
  have hextend : j.arg.extend lockAddress a = j.extend lockAddress a := by
    funext row
    simp only [ArgJoin.extend, LockJoin.extend, LockJoin.arg, Label.arg_cond (hloc j hj)]
  rw [hextend]

/-! ## The command lines of a report -/

/-- The locks of the report, for the labels they stand for; all of them can be quoted. -/
structure LegibleReport (r : Report) (labels : List Label) : Prop where
  locks : r.locks = labels.map Label.text
  legible : ∀ lock ∈ labels, lock.place.Legible
  quotable : ∀ lock ∈ labels, '\'' ∉ lock.text

/-- The member, for the names and the kind of access it stands for. -/
structure LegibleMember (member : Member) (dataType : String) (subclass : Option String) (name : String)
    (kind : AccessKind) : Prop where
  datatype : member.datatype = typeText dataType subclass
  identifiers : identifier dataType ∧ ∀ s ∈ subclass, identifier s
  accesstype : member.accesstype = kind.action
  word : name.toList.all isWordChar = true
  name : member.name = name.toList

/-- The labels of a lock order. -/
def labelsOf (labels : List Label) (l : List MyId) : List Label := l.filterMap fun id => labels[id]?

theorem labelsOf_text {r : Report} {labels : List Label} (h : LegibleReport r labels) {l : List MyId}
    (hl : ∀ id ∈ l, id < r.locks.length) :
    (l.map fun id => r.locks.getD id []) = (labelsOf labels l).map Label.text := by
  induction l with
  | nil => rfl
  | cons id l ih =>
    obtain ⟨hid, hl⟩ := List.forall_mem_cons.mp hl
    rw [h.locks, List.length_map] at hid
    have hget : labels[id]? = some (labels.get ⟨id, hid⟩) := List.getElem?_eq_getElem hid
    have htext : r.locks.getD id [] = (labels.get ⟨id, hid⟩).text := by
      rw [h.locks, List.getD_eq_getElem?_getD, List.getElem?_map, hget]
      rfl
    have hlabels : labelsOf labels (id :: l) = labels.get ⟨id, hid⟩ :: labelsOf labels l := by
      rw [labelsOf, List.filterMap_cons, hget]
      rfl
    rw [List.map_cons, ih hl, htext, hlabels, List.map_cons]

theorem mem_labelsOf {labels : List Label} {l : List MyId} {lock : Label} (h : lock ∈ labelsOf labels l) :
    lock ∈ labels := by
  obtain ⟨id, -, hid⟩ := List.mem_filterMap.mp h
  exact List.mem_of_getElem? hid

/-- How a command line asks for the locks. -/
def connectorOf (orderMatters : Bool) : Connector := if orderMatters then .seq else .any

def Connector.text : Connector → Text
  | .any => "ANY".toList
  | .seq => "SEQ".toList

/-- The command line has the arguments of the script. -/
theorem bugsql_words {r : Report} {labels : List Label} (hr : LegibleReport r labels) {member : Member}
    {dataType name : String} {subclass : Option String} {kind : AccessKind}
    (hm : LegibleMember member dataType subclass name kind) {l : List MyId} (hl : ∀ id ∈ l, id < r.locks.length)
    (hne : l ≠ []) (orderMatters : Bool) {n : Nat} (hn : 0 < n) :
    shellWords none false (r.bugsql member l orderMatters n) =
      some ("counterexample.sql.sh".toList :: member.datatype :: member.combinedName :: "CEX".toList ::
        (connectorOf orderMatters).text :: (labelsOf labels l).map Label.text) := by
  have htext : locks2string r.locks l [' '] ['\''] =
      [' '].intercalate (((labelsOf labels l).map Label.text).map fun t => ['\''] ++ t ++ ['\'']) := by
    rw [locks2string, if_neg hne, ← labelsOf_text hr hl, List.map_map]
    rfl
  have hlabels : (labelsOf labels l).map Label.text ≠ [] := by
    rw [← labelsOf_text hr hl]
    simp [hne]
  have hquoted := shellWords_quoted ((labelsOf labels l).map Label.text) (fun t ht => by
    obtain ⟨lock, hlock, rfl⟩ := List.mem_map.mp ht
    exact hr.quotable lock (mem_labelsOf hlock)) hlabels
  have hline : r.bugsql member l orderMatters n = "counterexample.sql.sh".toList ++ ' ' :: (member.datatype ++ ' ' ::
      (member.combinedName ++ ' ' :: ("CEX".toList ++ ' ' :: ((connectorOf orderMatters).text ++ ' ' ::
        locks2string r.locks l [' '] ['\''])))) := by
    have hscript : "counterexample.sql.sh ".toList = "counterexample.sql.sh".toList ++ [' '] := by decide
    have hmode : " CEX ".toList = ' ' :: ("CEX".toList ++ [' ']) := by decide
    have hconnector : (if orderMatters then "SEQ ".toList else "ANY ".toList) =
        (connectorOf orderMatters).text ++ [' '] := by
      cases orderMatters <;> decide
    rw [Report.bugsql, if_pos hn, hscript, hmode, hconnector]
    simp only [List.append_assoc, List.cons_append, List.nil_append]
  have hword : ∀ s : String, identifier s → s.toList.all isWordChar = true := fun s hs =>
    List.all_eq_true.mpr fun c hc => by simp [isWordChar, List.all_eq_true.mp hs.2 c hc]
  have hdatatype : member.datatype.all isWordChar = true ∧ member.datatype ≠ [] := by
    rw [hm.datatype, typeText, List.all_append, hword _ hm.identifiers.1, Bool.true_and]
    refine ⟨?_, by simp [hm.identifiers.1.1]⟩
    cases hs : subclass with
    | none => rfl
    | some s => simpa [isWordChar] using hword s (hm.identifiers.2 s hs)
  have hcombined : member.combinedName.all isWordChar = true := by
    rw [Member.combinedName, hm.name, hm.accesstype, List.all_cons, List.all_cons, hm.word]
    cases kind <;> decide
  have hconnector : (connectorOf orderMatters).text.all isWordChar = true ∧ (connectorOf orderMatters).text ≠ [] := by
    cases orderMatters <;> decide
  rw [hline, shellWords_word (by decide) (by decide), shellWords_word hdatatype.1 hdatatype.2,
    shellWords_word hcombined (by simp [Member.combinedName]), shellWords_word (by decide) (by decide),
    shellWords_word hconnector.1 hconnector.2, htext, hquoted]
  rfl

/-- What some access lacks has a lock. -/
theorem command_ne_nil {member₀ member : Member} (ho : member₀.Observed) (hs : Selected member₀ member) {sorting : Sorting}
    {orderMatters : Bool} {l : List MyId} {n : Nat} (hcommand : (orderMatters, l, n) ∈ member.commands sorting)
    (hlacks : n < member.occurrences) : l ≠ [] := by
  rintro rfl
  obtain ⟨-, -, hvalues⟩ := hs.evaluated
  have hocc := hs.rest.2.2.2
  rw [ho.occurrences] at hocc
  have hnone : ∀ lc : LockCombination, lc.containsLocks [] = true ∧ lc.lockOrder [] = [] := fun lc =>
    have hc : lc.containsLocks [] = true := (LockCombination.containsLocks_iff List.Pairwise.nil).mpr (by simp)
    ⟨hc, List.perm_nil.mp (LockCombination.lockOrder_perm List.Pairwise.nil hc)⟩
  rcases (mem_commands sorting).mp hcommand with ⟨-, hfound⟩ | ⟨-, h, x, hx, hset, rfl⟩
  · obtain ⟨h, x, hx, hcount⟩ := (mem_observedOrders sorting).mp hfound
    obtain rfl : h = [] := by simpa using (hs.perm_of_mem hx hcount).1
    have hall := evaluation_matches member₀.combinations [] []
    simp only [hnone, decide_true, Bool.and_true] at hall
    rw [← hvalues [] x hx, OrdMap.getD_eq, hcount, ← hocc] at hall
    simp at hall
    omega
  · obtain rfl : h = [] := (hs.set_of_mem hx).1.symm.trans hset.symm
    have hall := evaluation_occurrences member₀.combinations []
    simp only [hnone] at hall
    rw [← hvalues [] x hx, ← hocc] at hall
    omega

/-- With the arguments of a command line, the script generates the joins of the labels. -/
theorem script_command {member : Member} {dataType name : String} {subclass : Option String} {kind : AccessKind}
    (hm : LegibleMember member dataType subclass name kind) {locks : List Label}
    (hlegible : ∀ lock ∈ locks, lock.place.Legible) (hne : locks ≠ []) (connector : Connector) :
    script (member.datatype :: member.combinedName :: "CEX".toList :: connector.text :: locks.map Label.text) =
      match lockJoins connector 1 0 locks with
      | .ok joins =>
        .ok ⟨dataType.toList, subclass.map String.toList, [kind.action], name.toList, true, joins.map LockJoin.arg⟩
      | .error _ => .error .notLocatable := by
  have hno : ∀ {s : String}, identifier s → ':' ∉ s.toList := fun hs hc =>
    ident_not (by decide) (List.all_eq_true.mp hs.2 _ hc) rfl
  obtain ⟨hdata, hsub⟩ := typeText_cut hm.identifiers.1 hm.identifiers.2
  have hjoins := argJoins_text connector hlegible 1 0
  have hconnector : (if connector.text = "SEQ".toList then Connector.seq else .any) = connector := by
    cases connector <;> rfl
  obtain ⟨lock, rest, rfl⟩ := List.exists_cons_of_ne_nil hne
  rw [List.map_cons] at hjoins ⊢
  rw [script, hm.datatype, if_neg (by simp [Member.combinedName]), if_neg (by simp), hconnector, hjoins, hdata, hsub]
  cases lockJoins connector 1 0 (lock :: rest) with
  | error _ => rfl
  | ok joins => simp [bind, Except.bind, Member.combinedName, hm.name, hm.accesstype]

/-- Every command line of a report is understood. The script refuses it exactly if one of its locks is
not exactly known; otherwise its query lists the accesses to the member for which the joins of the
locks, in sequence for an order, find nothing. -/
theorem bugsql_accesses {r : Report} {labels : List Label} (hr : LegibleReport r labels) {member₀ member : Member}
    {dataType name : String} {subclass : Option String} {kind : AccessKind} {strategy : Strategy} {maxHypoLen : Nat}
    (hm : LegibleMember member dataType subclass name kind) (ho : member₀.Observed)
    (hs : Selects strategy maxHypoLen member₀ member)
    (hids : ∀ lc ∈ member₀.combinations, ∀ id ∈ lc.locksHeld, id < r.locks.length) (sorting : Sorting)
    (orderMatters : Bool) (l : List MyId) (n : Nat) (hcommand : (orderMatters, l, n) ∈ member.commands sorting)
    (hlacks : n < member.occurrences) :
    ∃ args, shellWords none false (r.bugsql member l orderMatters (member.occurrences - n)) =
        some ("counterexample.sql.sh".toList :: args) ∧
      ∀ lockAddress db, (script args).map (Query.accesses lockAddress db) =
        if ∀ lock ∈ labelsOf labels l, lock.locatable = true then
          .ok (db.accessesFlat.filter fun a => db.dataTypeName a.dataTypeId = dataType &&
            (subclass.isNone || (db.subclass a.subclassId).2 = subclass) && db.memberName a.memberNameId = name &&
            a.acType = kind &&
            excluded lockAddress (db.access a) (connectorOf orderMatters) (labelsOf labels l) = .ok false)
        else .error .notLocatable := by
  have hsel := hs.selected ho
  have hne := command_ne_nil ho hsel hcommand hlacks
  have hknown : ∀ id ∈ l, id < r.locks.length := by
    obtain ⟨lc, hlc, hheld⟩ := hsel.command_held sorting hcommand
    exact fun id hid => hids lc hlc id (hheld id hid)
  have hlocks : labelsOf labels l ≠ [] := by
    intro he
    have hmap := labelsOf_text hr hknown
    rw [he] at hmap
    exact hne (List.map_eq_nil_iff.mp hmap)
  refine ⟨_, bugsql_words hr hm hknown hne orderMatters (Nat.sub_pos_of_lt hlacks), fun lockAddress db => ?_⟩
  rw [script_command hm (fun lock hlock => hr.legible lock (mem_labelsOf hlock)) hlocks]
  generalize connectorOf orderMatters = connector
  have hsql : counterexampleSql connector (labelsOf labels l) = lockJoins connector 1 0 (labelsOf labels l) :=
    if_neg hlocks
  have hok := @script_ok_iff (labelsOf labels l) connector
  rw [hsql] at hok
  cases hjoins : lockJoins connector 1 0 (labelsOf labels l) with
  | error _ =>
    rw [if_neg fun hloc => by simpa [hjoins] using hok.mpr ⟨hlocks, hloc⟩]
    rfl
  | ok joins =>
    rw [if_pos (hok.mp ⟨joins, hjoins⟩).2]
    refine congrArg Except.ok (List.filter_congr fun a _ => ?_)
    have hexcluded : excluded lockAddress (db.access a) connector (labelsOf labels l) =
        .ok (joinRows lockAddress (db.access a) joins ≠ []) := by
      rw [excluded, hsql, hjoins]
      rfl
    rw [hexcluded, argRows_arg hjoins]
    have hkind : ([a.acType.action] = [kind.action]) ↔ a.acType = kind := by
      cases a.acType <;> cases kind <;> decide
    have hsub : (subclass.map String.toList).all (fun s => (db.subclass a.subclassId).2.any fun s' => s'.toList = s) =
        (subclass.isNone || decide ((db.subclass a.subclassId).2 = subclass)) := by
      cases subclass <;> cases (db.subclass a.subclassId).2 <;> simp [String.toList_inj]
    simp only [hsub, hkind, String.toList_inj]
    congr 1
    by_cases hrows : joinRows lockAddress (db.access a) joins = [] <;> simp [hrows]

/-- A lock of the same object, and a global one. -/
def eitherLabels : List Label :=
  [⟨.embSame ⟨"inode", none, some "i_lock", true⟩, .writer⟩, ⟨.global (some "rcu") 5 "rcu", .reader⟩]

def labelledReport : Report := Processing.plainReport (eitherLabels.map Label.text)

theorem labelledReport_legible : LegibleReport labelledReport eitherLabels := by
  refine ⟨rfl, ?_, by decide +kernel⟩
  have hrcu : identifier "rcu" ∧ ¬"EMBSAME".toList <+: "rcu".toList := by decide
  refine List.forall_mem_cons.mpr ⟨⟨by decide, by simp, by decide⟩, List.forall_mem_cons.mpr ⟨?_, by simp⟩⟩
  rintro v ⟨⟩
  exact hrcu

theorem eitherLock_command : ∃ winner, Selects (.bottomup (1 / 2)) 0 Processing.eitherLock winner ∧
    ∃ args, shellWords none false "counterexample.sql.sh inode w:i_size CEX SEQ 'EMBSAME(inode.i_lock[w])'".toList =
        some ("counterexample.sql.sh".toList :: args) ∧
      ∀ lockAddress db, (script args).map (Query.accesses lockAddress db) = .ok (db.accessesFlat.filter fun a =>
        db.dataTypeName a.dataTypeId = "inode" && db.memberName a.memberNameId = "i_size" && a.acType = .write &&
          excluded lockAddress (db.access a) .seq (eitherLabels.take 1) = .ok false) := by
  have hcheck : okAnd (findHypotheses 30 Processing.eitherLock 0) (fun found =>
      okAnd (selectWinner 30 (.bottomup (1 / 2)) found) (fun winner =>
        winner.datatype = "inode".toList && winner.name = "i_size".toList && winner.accesstype = 'w' &&
          winner.occurrences = 6 && (true, [0], 3) ∈ winner.commands .insertion &&
          labelledReport.bugsql winner [0] true 3 =
            "counterexample.sql.sh inode w:i_size CEX SEQ 'EMBSAME(inode.i_lock[w])'".toList)) = true := by
    decide +kernel
  obtain ⟨found, hf, hcheck⟩ := okAnd_iff.mp hcheck
  obtain ⟨winner, hw, hcheck⟩ := okAnd_iff.mp hcheck
  simp only [Bool.and_eq_true, decide_eq_true_eq] at hcheck
  obtain ⟨⟨⟨⟨⟨hdatatype, hname⟩, haccess⟩, hocc⟩, hmem⟩, hline⟩ := hcheck
  have hselects : Selects (.bottomup (1 / 2)) 0 Processing.eitherLock winner :=
    ⟨found, (findHypotheses_stable _ _).yields hf, (selectWinner_stable _ _).yields hw⟩
  have hmember : LegibleMember winner "inode" none "i_size" .write :=
    ⟨hdatatype, ⟨by decide, by simp⟩, haccess, by decide, hname⟩
  obtain ⟨args, hwords, hquery⟩ := bugsql_accesses labelledReport_legible hmember Processing.eitherLock_observed hselects
    (by decide) .insertion true [0] 3 hmem (by omega)
  refine ⟨winner, hselects, args, ?_, ?_⟩
  · rw [hocc] at hwords
    rw [← hline]
    exact hwords
  · intro lockAddress db
    have hlabels : labelsOf eitherLabels [0] = eitherLabels.take 1 := by decide
    rw [hquery lockAddress db, hlabels, if_pos (by decide)]
    simp [connectorOf]

end LockDoc.Queries
