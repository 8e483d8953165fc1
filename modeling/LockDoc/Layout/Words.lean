import LockDoc.Layout.Printer

/-!
# The words of a type

A column of the table holds neither the delimiter nor the end of a line. The words of a type
are such a column when the names it is made of are.
-/
namespace LockDoc.Layout

/-- A column of the table. -/
def isPlain (text : Text) : Bool := text.all fun c => c != delimiter && c != '\n'

theorem plain_append {a b : Text} : isPlain (a ++ b) = (isPlain a && isPlain b) := List.all_append

theorem plain_cons {c : Char} {a : Text} : isPlain (c :: a) = (c != delimiter && c != '\n' && isPlain a) := rfl

theorem plain_take {a : Text} (h : isPlain a = true) (n : Nat) : isPlain (a.take n) = true :=
  List.all_eq_true.2 fun c hc => List.all_eq_true.1 h c (List.mem_of_mem_take hc)

theorem plain_snprintf {a : Text} (h : isPlain a = true) (len : Nat) : isPlain (snprintf len a) = true :=
  plain_take h _

theorem plain_getD {name : Option Text} (h : name.all isPlain = true) : isPlain (name.getD []) = true := by
  cases name with
  | none => rfl
  | some n => exact h

mutual
/-- The names that the words of a type are made of hold neither the delimiter nor a line end. -/
def TypeName.plain : TypeName → Bool
  | .void => true
  | .base name => isPlain name
  | .named _ name => name.all isPlain
  | .pointer target => target.plain
  | .qualified _ of => of.plain
  | .array of => of.plain
  | .subroutine signature => signature.plain

def Signature.plain : Signature → Bool
  | .mk ret parms _ => ret.plain && parms.plain

def Parms.plain : Parms → Bool
  | .nil => true
  | .cons name type rest => name.all isPlain && type.plain && rest.plain
end

theorem plain_parmWords {stype : Text} {name : Option Text} (hs : isPlain stype = true)
    (hn : name.all isPlain = true) : isPlain (parmWords stype name) = true := by
  cases name with
  | none => simpa [parmWords] using hs
  | some n =>
    have hn : isPlain n = true := hn
    simp only [parmWords, Option.elim, plain_append, plain_cons, hs, hn]
    decide

theorem plain_tagPrefix (kind : NamedKind) : isPlain kind.tagPrefix = true := by
  cases kind <;> decide

theorem plain_keyword (qualifier : Qualifier) : isPlain qualifier.keyword = true := by
  cases qualifier <;> decide

mutual
theorem plain_tagName : ∀ (type : TypeName) (outer : Bool) (len : Nat), type.plain = true →
    isPlain (tagName outer len type) = true
  | .void, _, len, _ => by
    rw [tagName]
    exact plain_take (by decide) len
  | .base _, _, len, h => by
    rw [tagName]
    exact plain_take h len
  | .named kind name, _, len, h => by
    rw [tagName]
    refine plain_snprintf ?_ len
    rw [plain_append, plain_tagPrefix, plain_getD h]
    rfl
  | .pointer target, _, len, h => by
    rw [tagName]
    refine plain_snprintf ?_ len
    rw [plain_append, plain_tagName target false 1024 h]
    decide
  | .qualified qualifier of, outer, len, h => by
    rw [tagName]
    split
    · rw [plain_append, plain_tagName of false len h]
      decide
    · refine plain_snprintf ?_ len
      simp only [plain_append, plain_keyword, plain_tagName of false 128 h]
      decide
  | .array of, _, len, h => by
    rw [tagName]
    exact plain_tagName of false len h
  | .subroutine signature, _, len, h => by
    rw [tagName]
    exact plain_take (plain_ftypeFprintf signature none false rfl h) len

theorem plain_ftypeFprintf : ∀ (signature : Signature) (name : Option Text) (is_pointer : Bool),
    name.all isPlain = true → signature.plain = true → isPlain (ftypeFprintf name is_pointer signature) = true
  | .mk ret parms unspec_parms, name, is_pointer, hn, h => by
    simp only [Signature.plain, Bool.and_eq_true] at h
    simp only [ftypeFprintf, plain_append, plain_tagName ret true 127 h.1, plain_getD hn,
      plain_ftypeFprintfParms parms h.2]
    cases is_pointer <;> cases parms.isNil <;> cases unspec_parms <;> decide

theorem plain_ftypeFprintfParms : ∀ parms : Parms, parms.plain = true → isPlain (ftypeFprintfParms parms) = true
  | .nil, _ => rfl
  | .cons name type rest, h => by
    simp only [Parms.plain, Bool.and_eq_true] at h
    obtain ⟨⟨hn, ht⟩, hr⟩ := h
    have hwords := plain_parmWords (plain_tagName type true 127 ht) hn
    have hrest := plain_ftypeFprintfParms rest hr
    cases type with
    | void =>
      rw [ftypeFprintfParms, plain_append, hrest, plain_parmWords (by decide) hn]
      rfl
    | subroutine signature =>
      rw [ftypeFprintfParms, plain_append, hrest, plain_ftypeFprintf signature name false hn ht]
      rfl
    | pointer target =>
      cases target with
      | subroutine signature =>
        rw [ftypeFprintfParms, plain_append, hrest, plain_ftypeFprintf signature name true hn ht]
        rfl
      | _ => simp [ftypeFprintfParms, plain_append, hrest, hwords]
    | _ => simp [ftypeFprintfParms, plain_append, hrest, hwords]
end

end LockDoc.Layout
