import LockDoc.Lib.Text
import LockDoc.Queries.Counterexample

/-!
# Lock labels as text

The strings that the `CASE` expression of `create-txn-members-locks.sh` puts together for the
locks of a transaction.
-/
namespace LockDoc.Queries

open LockDoc.Convert (SubLock)

/-- The values of `sub_lock_type`. -/
def subLockText : SubLock → Text
  | .reader => ['r']
  | .writer => ['w']

/-- The name of a data type, with the subclass if there is one. -/
def typeText (dataType : String) (subclass : Option String) : Text :=
  dataType.toList ++ (subclass.map fun s => ':' :: s.toList).getD []

/-- The data type and the member that a lock is in; a lock that is not at the beginning of its
member gets a question mark. -/
def Embedding.text (e : Embedding) : Text :=
  typeText e.dataType e.subclass ++ '.' ::
    match e.member with
    | some m => m.toList ++ if e.exact then [] else ['?']
    | none => ['?']

def Place.text : Place → Text
  | .global lockVarName id lockType =>
    (lockVarName.map fun v => v.toList ++ [':']).getD [] ++ Text.ofNat id ++ '(' :: lockType.toList
  | .embSame e => "EMBSAME(".toList ++ e.text
  | .embOther e => "EMBOTHER(".toList ++ e.text

def Label.text (lock : Label) : Text := lock.place.text ++ '[' :: subLockText lock.subLock ++ "])".toList

/-- A text without the separators of lines, columns and lists. -/
def PlainText (t : Text) : Prop := '\n' ∉ t ∧ '\t' ∉ t ∧ ',' ∉ t

instance (t : Text) : Decidable (PlainText t) := inferInstanceAs (Decidable (_ ∧ _))

namespace PlainText

theorem nil : PlainText [] := by decide

theorem append {s t : Text} (hs : PlainText s) (ht : PlainText t) : PlainText (s ++ t) := by
  simp only [PlainText, List.mem_append, not_or] at *
  exact ⟨⟨hs.1, ht.1⟩, ⟨hs.2.1, ht.2.1⟩, hs.2.2, ht.2.2⟩

theorem cons {c : Char} {t : Text} (hc : c ≠ '\n' ∧ c ≠ '\t' ∧ c ≠ ',') (ht : PlainText t) : PlainText (c :: t) := by
  simp only [PlainText, List.mem_cons, not_or] at *
  exact ⟨⟨hc.1.symm, ht.1⟩, ⟨hc.2.1.symm, ht.2.1⟩, hc.2.2.symm, ht.2.2⟩

theorem ofNat (n : Nat) : PlainText (Text.ofNat n) := by
  refine ⟨fun h => ?_, fun h => ?_, fun h => ?_⟩ <;> exact absurd (Text.isDigit_of_mem_ofNat h) (by decide)

theorem option {α : Type} {o : Option α} {f : α → Text} (h : ∀ a ∈ o, PlainText (f a)) : PlainText ((o.map f).getD []) := by
  cases o with
  | none => exact nil
  | some a => exact h a rfl

end PlainText

/-- The names in the tables that a label is made of are plain. -/
structure HeldLock.Named (l : HeldLock) : Prop where
  lockType : PlainText l.lockType.toList
  lockVarName : ∀ v ∈ l.lockVarName, PlainText v.toList
  dataType : ∀ a ∈ l.embeddedIn, PlainText a.2.dataType.toList
  subclass : ∀ a ∈ l.embeddedIn, ∀ s ∈ a.2.subclass, PlainText s.toList
  member : ∀ a ∈ l.embeddedIn, ∀ m ∈ a.2.member, PlainText m.toList

theorem plain_embedding {e : Embedding} (hd : PlainText e.dataType.toList) (hs : ∀ s ∈ e.subclass, PlainText s.toList)
    (hm : ∀ m ∈ e.member, PlainText m.toList) : PlainText e.text := by
  refine PlainText.append (hd.append (PlainText.option fun s h => (hs s h).cons (by decide))) (PlainText.cons (by decide) ?_)
  cases he : e.member with
  | none => exact (by decide : PlainText ['?'])
  | some m =>
    refine (hm m he).append ?_
    split <;> decide

theorem HeldLock.Named.label {l : HeldLock} (h : l.Named) (useSubclasses : Bool) (allocId : Nat) :
    PlainText (label useSubclasses allocId l).text := by
  have hend : ∀ s, PlainText ('[' :: subLockText s ++ "])".toList) := fun s => by cases s <;> decide
  have hplace : PlainText (Queries.label useSubclasses allocId l).place.text := by
    unfold Queries.label
    cases he : l.embeddedIn with
    | none =>
      exact ((PlainText.option fun v hv => (h.lockVarName v hv).append (by decide)).append (PlainText.ofNat _)).append
        (PlainText.cons (by decide) h.lockType)
    | some p =>
      obtain ⟨a, e⟩ := p
      have hp : (a, e) ∈ l.embeddedIn := he
      have hemb : PlainText (if useSubclasses then e else { e with subclass := none }).text := by
        split
        · exact plain_embedding (h.dataType _ hp) (h.subclass _ hp) (h.member _ hp)
        · exact plain_embedding (h.dataType _ hp) (by simp) (h.member _ hp)
      dsimp only
      split
      · exact PlainText.append (by decide) hemb
      · exact PlainText.append (by decide) hemb
  rw [Label.text, List.append_assoc]
  exact hplace.append (hend _)

theorem Label.text_ne_nil (lock : Label) : lock.text ≠ [] := by simp [Label.text]

end LockDoc.Queries
