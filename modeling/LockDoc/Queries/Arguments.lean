import LockDoc.Queries.LabelText

/-!
# The arguments of the counterexample script

`counterexample.sql.sh` takes the labels of locks as text, and finds out with `grep`, `sed` and
`cut` what they consist of. A label whose names are identifiers is taken apart into what it was put
together from, so that the joins the script generates are those of the label.
-/
namespace LockDoc.Queries

open FallibleRun (bind_ok)
open LockDoc.Convert (SubLock)

/-- `[a-zA-Z0-9_]`. -/
def isIdentChar (c : Char) : Bool := c.isAlphanum || c = '_'

/-- `[a-zA-Z0-9_:]`. -/
def isTypeChar (c : Char) : Bool := isIdentChar c || c = ':'

/-- `cut -d ":" -f1` and `-f2`; a text without a colon is printed as it is. -/
def cutFirst (text : Text) : Text := text.takeWhile (· ≠ ':')

def cutSecond (text : Text) : Text :=
  if ':' ∈ text then ((text.dropWhile (· ≠ ':')).drop 1).takeWhile (· ≠ ':') else text

/-- What `\(.*\)\[\([rw]\)\])$` takes. -/
def subLockEnd (text : Text) : Option (Text × Text) :=
  match text.reverse with
  | ')' :: ']' :: c :: '[' :: rest => if c = 'r' ∨ c = 'w' then some (rest.reverse, [c]) else none
  | _ => none

/-- What `(\([a-zA-Z0-9_:]\+\)\.\(.*\)\[\([rw]\)\])$` takes from here on. -/
def embeddedHere : Text → Option (Text × Text × Text)
  | '(' :: rest =>
    if rest.takeWhile isTypeChar = [] then none
    else match rest.dropWhile isTypeChar with
      | '.' :: rest' => (subLockEnd rest').map fun r => (rest.takeWhile isTypeChar, r)
      | _ => none
  | _ => none

/-- The three fields; `.*` in front of them is greedy, and without a match `sed` prints the whole
text each time. -/
def embeddedFields (text : Text) : Text × Text × Text :=
  (text.tails.reverse.findSome? embeddedHere).getD (text, text, text)

/-- `\(EMB:\|[A-Za-z0-9_]\+:\)\?` at the front is left out. -/
def afterName (text : Text) : Text :=
  if text.takeWhile isIdentChar = [] then text
  else match text.dropWhile isIdentChar with
    | ':' :: rest => rest
    | _ => text

/-- `[0-9]\+(` follows. -/
def isGlobal (text : Text) : Bool :=
  (afterName text).takeWhile Char.isDigit ≠ [] && ((afterName text).dropWhile Char.isDigit).head? = some '('

/-- The id and the sub lock of a global lock. -/
def globalFields (text : Text) : Text × Text :=
  match (afterName text).dropWhile Char.isDigit with
  | '(' :: rest =>
    match subLockEnd rest with
    | some (_, subLock) => ((afterName text).takeWhile Char.isDigit, subLock)
    | none => (text, text)
  | _ => (text, text)

/-- What the script knows of a lock inside of an allocation. -/
structure EmbeddedArg where
  dataType : Text
  subclass : Option Text
  lockName : Text
  subLock : Text
  deriving DecidableEq, Repr

inductive LockArg where
  | embSame (e : EmbeddedArg)
  | global (id subLock : Text)
  | embOther (e : EmbeddedArg)
  deriving DecidableEq, Repr

inductive ArgError where
  | usage
  | notAccessTypeMember
  | unknownMode
  | notLocatable
  | unknownLockType
  deriving DecidableEq, Repr

def embeddedArg (text : Text) : EmbeddedArg :=
  let (combined, lockName, subLock) := embeddedFields text
  if ':' ∈ combined then ⟨cutFirst combined, some (cutSecond combined), lockName, subLock⟩
  else ⟨combined, none, lockName, subLock⟩

/-- One argument. -/
def lockArg (text : Text) : Except ArgError LockArg :=
  if "EMBSAME".toList <+: text then
    if '?' ∈ (embeddedArg text).lockName then .error .notLocatable else .ok (.embSame (embeddedArg text))
  else if isGlobal text then .ok (.global (globalFields text).1 (globalFields text).2)
  else if "EMBOTHER".toList <+: text then
    if '?' ∈ (embeddedArg text).lockName then .error .notLocatable else .ok (.embOther (embeddedArg text))
  else .error .unknownLockType

/-- The labels the script can read: names are identifiers, a member may have dots and brackets,
and a global variable is not called like an embedded lock. -/
def identifier (s : String) : Prop := s.toList ≠ [] ∧ s.toList.all isIdentChar = true

instance (s : String) : Decidable (identifier s) := inferInstanceAs (Decidable (_ ∧ _))

structure Embedding.Legible (e : Embedding) : Prop where
  dataType : identifier e.dataType
  subclass : ∀ s ∈ e.subclass, identifier s
  member : ∀ m ∈ e.member, '(' ∉ m.toList ∧ '?' ∉ m.toList

def Place.Legible : Place → Prop
  | .global lockVarName _ _ => ∀ v ∈ lockVarName, identifier v ∧ ¬"EMBSAME".toList <+: v.toList
  | .embSame e | .embOther e => e.Legible

/-- What a lock is for the script. -/
def Embedding.arg (e : Embedding) (subLock : SubLock) : EmbeddedArg :=
  ⟨e.dataType.toList, e.subclass.map String.toList, (e.member.getD "").toList, subLockText subLock⟩

def Label.arg (lock : Label) : LockArg :=
  match lock.place with
  | .global _ id _ => .global (Text.ofNat id) (subLockText lock.subLock)
  | .embSame e => .embSame (e.arg lock.subLock)
  | .embOther e => .embOther (e.arg lock.subLock)

/-! ## Reading a label -/

theorem takeWhile_append_stop {p : Char → Bool} {s : Text} {c : Char} (rest : Text) (hs : s.all p = true)
    (hc : p c = false) : (s ++ c :: rest).takeWhile p = s ∧ (s ++ c :: rest).dropWhile p = c :: rest := by
  rw [List.all_eq_true] at hs
  constructor
  · rw [List.takeWhile_append_of_pos hs, List.takeWhile_cons, hc]
    simp
  · rw [List.dropWhile_append_of_pos hs, List.dropWhile_cons, hc]
    simp

theorem subLockEnd_append (name : Text) (s : SubLock) :
    subLockEnd (name ++ '[' :: subLockText s ++ "])".toList) = some (name, subLockText s) := by
  cases s <;> simp [subLockEnd, subLockText]

/-- The last open parenthesis is where the fields start. -/
theorem findSome_tails {front rest : Text} {r : Text × Text × Text} (hno : '(' ∉ rest)
    (h : embeddedHere ('(' :: rest) = some r) : (front ++ '(' :: rest).tails.reverse.findSome? embeddedHere = some r := by
  have hnone : ∀ t : Text, '(' ∉ t → t.tails.reverse.findSome? embeddedHere = none := by
    intro t ht
    rw [List.findSome?_eq_none_iff]
    intro s hs
    have hsuf : s <:+ t := (List.mem_tails _ _).mp (List.mem_reverse.mp hs)
    cases s with
    | nil => rfl
    | cons c s =>
      have hc : c ≠ '(' := fun he => ht (hsuf.subset (he ▸ List.mem_cons_self))
      unfold embeddedHere
      split
      · rename_i heq
        exact absurd (List.cons.inj heq).1 hc
      · rfl
  induction front with
  | nil =>
    rw [List.nil_append, List.tails_cons, List.reverse_cons, List.findSome?_append, hnone rest hno]
    simp [h]
  | cons c front ih =>
    rw [List.cons_append, List.tails_cons, List.reverse_cons, List.findSome?_append, ih]
    rfl

theorem isTypeChar_of_ident {c : Char} (h : isIdentChar c = true) : isTypeChar c = true := by simp [isTypeChar, h]

theorem ident_not {c d : Char} (hd : isIdentChar d = false) (h : isIdentChar c = true) : c ≠ d :=
  fun he => by simp [he, hd] at h

/-- The name of a type comes apart at its colon. -/
theorem typeText_cut {dataType : String} {subclass : Option String} (hd : identifier dataType)
    (hs : ∀ s ∈ subclass, identifier s) :
    (if ':' ∈ typeText dataType subclass then cutFirst (typeText dataType subclass) else typeText dataType subclass) =
        dataType.toList ∧
      (if ':' ∈ typeText dataType subclass then some (cutSecond (typeText dataType subclass)) else none) =
        subclass.map String.toList := by
  have hno : ∀ {s : String}, identifier s → (s.toList.all fun c => c ≠ ':') = true := fun hs =>
    List.all_eq_true.mpr fun c hc => decide_eq_true (ident_not (by decide) (List.all_eq_true.mp hs.2 c hc))
  have hcolon : ':' ∉ dataType.toList := fun hc => by
    have := List.all_eq_true.mp (hno hd) _ hc
    simp at this
  cases subclass with
  | none => simp [typeText, hcolon]
  | some s =>
    have htext : typeText dataType (some s) = dataType.toList ++ ':' :: s.toList := rfl
    obtain ⟨htake, hdrop⟩ := takeWhile_append_stop (c := ':') s.toList (hno hd) (by decide)
    have hsub : s.toList.takeWhile (fun c => decide (c ≠ ':')) = s.toList :=
      List.takeWhile_eq_self_iff.mpr fun c hc => List.all_eq_true.mp (hno (hs s rfl)) c hc
    rw [htext, if_pos (by simp), if_pos (by simp)]
    simp only [cutFirst, cutSecond, List.mem_append, List.mem_cons, true_or, or_true, if_true, htake, hdrop,
      List.drop_succ_cons, List.drop_zero, hsub, Option.map_some, and_self]

/-- The name of the member, as a label has it. -/
def Embedding.lockName (e : Embedding) : Text :=
  match e.member with
  | some m => m.toList ++ if e.exact then [] else ['?']
  | none => ['?']

theorem Embedding.text_eq (e : Embedding) : e.text = typeText e.dataType e.subclass ++ '.' :: e.lockName := rfl

namespace Embedding.Legible

variable {e : Embedding}

theorem typeText (h : e.Legible) : Queries.typeText e.dataType e.subclass ≠ [] ∧
    (Queries.typeText e.dataType e.subclass).all isTypeChar = true := by
  refine ⟨by simp [Queries.typeText, h.dataType.1], ?_⟩
  rw [Queries.typeText, List.all_append, Bool.and_eq_true]
  have hall : ∀ {s : String}, identifier s → s.toList.all isTypeChar = true := fun hs =>
    List.all_eq_true.mpr fun c hc => isTypeChar_of_ident (List.all_eq_true.mp hs.2 c hc)
  refine ⟨hall h.dataType, ?_⟩
  cases hs : e.subclass with
  | none => rfl
  | some s => simpa [isTypeChar] using hall (h.subclass s hs)

theorem lockName (h : e.Legible) : '(' ∉ e.lockName := by
  unfold Embedding.lockName
  cases hm : e.member with
  | none => exact (by decide : '(' ∉ ['?'])
  | some m =>
    have hno := (h.member m hm).1
    cases e.exact <;> simp [hno]

/-- A lock that is not exactly known has a question mark, and no other has. -/
theorem locatable (h : e.Legible) : '?' ∈ e.lockName ↔ (e.exact && e.member.isSome) = false := by
  unfold Embedding.lockName
  cases hm : e.member with
  | none => simp
  | some m =>
    have hno := (h.member m hm).2
    cases e.exact <;> simp [hno]

/-- The type comes apart at its colon. -/
theorem cut (h : e.Legible) {t : Text} :
    (if ':' ∈ Queries.typeText e.dataType e.subclass then
      (⟨cutFirst (Queries.typeText e.dataType e.subclass), some (cutSecond (Queries.typeText e.dataType e.subclass)),
        e.lockName, t⟩ : EmbeddedArg)
    else ⟨Queries.typeText e.dataType e.subclass, none, e.lockName, t⟩) =
      ⟨e.dataType.toList, e.subclass.map String.toList, e.lockName, t⟩ := by
  obtain ⟨hdata, hsub⟩ := typeText_cut h.dataType h.subclass
  rw [← hdata, ← hsub]
  split <;> rfl

end Embedding.Legible

/-- The fields of an embedded lock are what its label was put together from. -/
theorem embeddedArg_text {e : Embedding} (h : e.Legible) (front : Text) (s : SubLock) :
    embeddedArg (front ++ '(' :: (e.text ++ '[' :: subLockText s ++ "])".toList)) =
      ⟨e.dataType.toList, e.subclass.map String.toList, e.lockName, subLockText s⟩ := by
  obtain ⟨hne, hall⟩ := h.typeText
  have hrest : e.text ++ '[' :: subLockText s ++ "])".toList =
      typeText e.dataType e.subclass ++ '.' :: (e.lockName ++ '[' :: subLockText s ++ "])".toList) := by
    rw [e.text_eq]
    simp
  obtain ⟨htake, hdrop⟩ := takeWhile_append_stop (c := '.') (e.lockName ++ '[' :: subLockText s ++ "])".toList)
    hall (by decide)
  have hhere : embeddedHere ('(' :: (e.text ++ '[' :: subLockText s ++ "])".toList)) =
      some (typeText e.dataType e.subclass, e.lockName, subLockText s) := by
    rw [hrest, embeddedHere, htake, hdrop, if_neg hne]
    simp only [subLockEnd_append, Option.map_some]
  have hno : '(' ∉ e.text ++ '[' :: subLockText s ++ "])".toList := by
    rw [hrest]
    have htype : '(' ∉ typeText e.dataType e.subclass := fun hc => by
      have := List.all_eq_true.mp hall _ hc
      exact absurd this (by decide)
    cases s <;> simp [htype, h.lockName, subLockText]
  rw [embeddedArg, embeddedFields, findSome_tails hno hhere, Option.getD_some]
  exact h.cut

/-- The name in front of a global lock is left out. -/
theorem afterName_global {lockVarName : Option String} (h : ∀ v ∈ lockVarName, identifier v) (id : Nat) (rest : Text) :
    afterName ((lockVarName.map fun v => v.toList ++ [':']).getD [] ++ Text.ofNat id ++ '(' :: rest) =
      Text.ofNat id ++ '(' :: rest := by
  cases lockVarName with
  | none =>
    have hident : (Text.ofNat id).all isIdentChar = true := List.all_eq_true.mpr fun c hc => by
      have := Text.isDigit_of_mem_ofNat hc
      simp [isIdentChar, Char.isAlphanum, this]
    obtain ⟨htake, hdrop⟩ := takeWhile_append_stop (c := '(') rest hident (by decide)
    rw [Option.map_none, Option.getD_none, List.nil_append, afterName, htake, hdrop, if_neg (Text.ofNat_ne_nil id)]
    rfl
  | some v =>
    obtain ⟨hne, hident⟩ := h v rfl
    have htext : ((some v).map fun v : String => v.toList ++ [':']).getD [] ++ Text.ofNat id ++ '(' :: rest =
        v.toList ++ ':' :: (Text.ofNat id ++ '(' :: rest) := by simp
    obtain ⟨htake, hdrop⟩ := takeWhile_append_stop (c := ':') (Text.ofNat id ++ '(' :: rest) hident (by decide)
    rw [htext, afterName, htake, hdrop, if_neg hne]
    rfl

theorem digits_global (id : Nat) (rest : Text) :
    (Text.ofNat id ++ '(' :: rest).takeWhile Char.isDigit = Text.ofNat id ∧
      (Text.ofNat id ++ '(' :: rest).dropWhile Char.isDigit = '(' :: rest :=
  takeWhile_append_stop rest (List.all_eq_true.mpr fun _ hc => Text.isDigit_of_mem_ofNat hc) (by decide)

/-- A name that ends with another character than those of a word begins with the word only if it
has it whole. -/
theorem not_prefix_append {word name rest : Text} {c : Char} (hword : c ∉ word) (h : ¬word <+: name) :
    ¬word <+: name ++ c :: rest := by
  intro hp
  rcases List.prefix_or_prefix_of_prefix hp (List.prefix_append name (c :: rest)) with hpre | ⟨more, rfl⟩
  · exact h hpre
  · rw [List.prefix_append_right_inj] at hp
    cases more with
    | nil => exact h (by simp)
    | cons d more =>
      obtain ⟨rest', he⟩ := hp
      obtain ⟨rfl, -⟩ := List.cons.inj he
      simp at hword

theorem Label.text_global (lockVarName : Option String) (id : Nat) (lockType : String) (s : SubLock) :
    Label.text ⟨.global lockVarName id lockType, s⟩ =
      (lockVarName.map fun v => v.toList ++ [':']).getD [] ++ Text.ofNat id ++ '(' ::
        (lockType.toList ++ '[' :: subLockText s ++ "])".toList) := by
  unfold Label.text Place.text
  simp only [List.append_assoc, List.cons_append]

theorem Label.text_embSame (e : Embedding) (s : SubLock) :
    Label.text ⟨.embSame e, s⟩ = "EMBSAME".toList ++ '(' :: (e.text ++ '[' :: subLockText s ++ "])".toList) := by
  have hopen : "EMBSAME(".toList = "EMBSAME".toList ++ ['('] := by decide
  unfold Label.text Place.text
  simp only [hopen, List.append_assoc, List.cons_append, List.nil_append]

theorem Label.text_embOther (e : Embedding) (s : SubLock) :
    Label.text ⟨.embOther e, s⟩ = "EMBOTHER".toList ++ '(' :: (e.text ++ '[' :: subLockText s ++ "])".toList) := by
  have hopen : "EMBOTHER(".toList = "EMBOTHER".toList ++ ['('] := by decide
  unfold Label.text Place.text
  simp only [hopen, List.append_assoc, List.cons_append, List.nil_append]

/-- No global lock looks like an embedded one. -/
theorem not_embSame_global {lockVarName : Option String}
    (h : ∀ v ∈ lockVarName, identifier v ∧ ¬"EMBSAME".toList <+: v.toList) (id : Nat) (rest : Text) :
    ¬"EMBSAME".toList <+: (lockVarName.map fun v => v.toList ++ [':']).getD [] ++ Text.ofNat id ++ '(' :: rest := by
  cases lockVarName with
  | none =>
    have hdigits : ¬"EMBSAME".toList <+: Text.ofNat id := by
      rintro ⟨rest, he⟩
      have hmem : 'E' ∈ Text.ofNat id := he ▸ List.mem_append_left _ (by decide)
      exact absurd (Text.isDigit_of_mem_ofNat hmem) (by decide)
    exact not_prefix_append (by decide) hdigits
  | some v =>
    have hsplit : ((some v).map fun v : String => v.toList ++ [':']).getD [] ++ Text.ofNat id ++ '(' :: rest =
        v.toList ++ ':' :: (Text.ofNat id ++ '(' :: rest) := by
      simp only [Option.map_some, Option.getD_some, List.append_assoc, List.cons_append, List.nil_append]
    rw [hsplit]
    exact not_prefix_append (by decide) (h v rfl).2

/-- The name of a lock that is not exactly known is refused. -/
theorem embedded_locatable {e : Embedding} (h : e.Legible) (s : SubLock) (wrap : EmbeddedArg → LockArg) :
    (if '?' ∈ e.lockName then Except.error ArgError.notLocatable
      else .ok (wrap ⟨e.dataType.toList, e.subclass.map String.toList, e.lockName, subLockText s⟩)) =
    if (e.exact && e.member.isSome) = true then .ok (wrap (e.arg s)) else .error .notLocatable := by
  by_cases hl : (e.exact && e.member.isSome) = true
  · have hmark : '?' ∉ e.lockName := fun hm => by simp [h.locatable.mp hm] at hl
    have hname : e.lockName = (e.member.getD "").toList := by
      rw [Bool.and_eq_true] at hl
      obtain ⟨m, hm⟩ := Option.isSome_iff_exists.mp hl.2
      simp [Embedding.lockName, hm, hl.1]
    rw [if_neg hmark, if_pos hl, Embedding.arg, hname]
  · rw [if_pos (h.locatable.mpr (by simpa using hl)), if_neg hl]

/-- A label is read back: the script knows what it was put together from, and refuses it exactly if
the lock is not exactly known. -/
theorem lockArg_text {lock : Label} (h : lock.place.Legible) :
    lockArg lock.text = if lock.locatable then .ok lock.arg else .error .notLocatable := by
  obtain ⟨place, s⟩ := lock
  cases place with
  | global lockVarName id lockType =>
    have hafter := afterName_global (fun v hv => (h v hv).1) id (lockType.toList ++ '[' :: subLockText s ++ "])".toList)
    obtain ⟨htake, hdrop⟩ := digits_global id (lockType.toList ++ '[' :: subLockText s ++ "])".toList)
    have hglobal : isGlobal (Label.text ⟨.global lockVarName id lockType, s⟩) = true := by
      rw [isGlobal, Label.text_global, hafter, htake, hdrop]
      simp [Text.ofNat_ne_nil]
    have hfields : globalFields (Label.text ⟨.global lockVarName id lockType, s⟩) = (Text.ofNat id, subLockText s) := by
      rw [globalFields, Label.text_global, hafter, hdrop]
      simp only [subLockEnd_append, htake]
    have hsame := not_embSame_global h id (lockType.toList ++ '[' :: subLockText s ++ "])".toList)
    rw [← Label.text_global] at hsame
    rw [lockArg, if_neg hsame, if_pos hglobal, hfields]
    rfl
  | embSame e =>
    have harg := embeddedArg_text h "EMBSAME".toList s
    rw [← Label.text_embSame] at harg
    rw [lockArg, if_pos (by rw [Label.text_embSame]; exact List.prefix_append _ _), harg]
    exact embedded_locatable h s .embSame
  | embOther e =>
    have harg := embeddedArg_text h "EMBOTHER".toList s
    rw [← Label.text_embOther] at harg
    have hsame : ¬"EMBSAME".toList <+: Label.text ⟨.embOther e, s⟩ := by
      rw [Label.text_embOther]
      exact not_prefix_append (by decide) (by decide)
    have hglobal : isGlobal (Label.text ⟨.embOther e, s⟩) = false := by
      obtain ⟨htake, hdrop⟩ := takeWhile_append_stop (s := "EMBOTHER".toList) (c := '(') (p := isIdentChar)
        (e.text ++ '[' :: subLockText s ++ "])".toList) (by decide) (by decide)
      have hafter : afterName (Label.text ⟨.embOther e, s⟩) = Label.text ⟨.embOther e, s⟩ := by
        rw [afterName, Label.text_embOther, htake, hdrop]
        rfl
      rw [isGlobal, hafter, Label.text_embOther]
      rfl
    rw [lockArg, if_neg hsame, hglobal, if_neg (by decide),
      if_pos (by rw [Label.text_embOther]; exact List.prefix_append _ _), harg]
    exact embedded_locatable h s .embOther

end LockDoc.Queries
