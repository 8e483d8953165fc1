import LockDoc.Lib.Text

/-!
# The debug information of a struct

The tags that the struct printer walks over, as a tree: every `cu__type` lookup is already
done, and `notFound` stands where it returns no tag. A pointer refers to what it points to by
its words alone, so that a struct may point to itself. The compilation units are those of a
C program.
-/
namespace LockDoc.Layout

/-- The text that `snprintf` leaves in a buffer of `len` bytes. -/
def snprintf (len : Nat) (text : Text) : Text := text.take (len - 1)

inductive Qualifier where
  | const
  | volatile
  deriving DecidableEq, Repr

def Qualifier.keyword : Qualifier → Text
  | .const => "const".toList
  | .volatile => "volatile".toList

/-- The tags whose words are a prefix and a name. -/
inductive NamedKind where
  | structureType
  | classType
  | unionType
  | enumerationType
  | typedef
  deriving DecidableEq, Repr

/-- `tag__prefix`. -/
def NamedKind.tagPrefix : NamedKind → Text
  | .structureType => "struct ".toList
  | .classType => "class ".toList
  | .unionType => "union ".toList
  | .enumerationType => "enum ".toList
  | .typedef => []

mutual
/-- What `tag__name` and `ftype__fprintf` read of a type: they follow pointers and never the
members of a struct. -/
inductive TypeName where
  | void
  | base (name : Text)
  | named (kind : NamedKind) (name : Option Text)
  | pointer (target : TypeName)
  | qualified (qualifier : Qualifier) (of : TypeName)
  | array (of : TypeName)
  | subroutine (signature : Signature)

/-- The type a function returns, its parameters and whether `...` follows them. -/
inductive Signature where
  | mk (ret : TypeName) (parms : Parms) (unspec_parms : Bool)

inductive Parms where
  | nil
  | cons (name : Option Text) (type : TypeName) (rest : Parms)
end

def Parms.isNil : Parms → Bool
  | .nil => true
  | .cons .. => false

/-- The words of one parameter: its type and, when it has one, its name. -/
def parmWords (stype : Text) (name : Option Text) : Text := stype ++ (name.elim [] (' ' :: ·))

mutual
/-- `__tag__name`, and with `outer` the `tag__name` that callers use: it takes a leading
`const` off and appends the word at the end. -/
def tagName (outer : Bool) (len : Nat) : TypeName → Text
  | .void => "void".toList.take len
  | .base name => name.take len
  | .named kind name => snprintf len (kind.tagPrefix ++ name.getD [])
  | .pointer target => snprintf len (tagName false 1024 target ++ " *".toList)
  | .qualified qualifier of =>
    if outer ∧ qualifier = .const then tagName false len of ++ "const".toList
    else snprintf len (qualifier.keyword ++ [' '] ++ tagName false 128 of ++ [' '])
  | .array of => tagName false len of
  | .subroutine signature => (ftypeFprintf none false signature).take len

/-- `ftype__fprintf`. -/
def ftypeFprintf (name : Option Text) (is_pointer : Bool) : Signature → Text
  | .mk ret parms unspec_parms =>
    tagName true 127 ret ++ " (".toList ++ (if is_pointer then ['*'] else []) ++ name.getD [] ++ [')'] ++
      ['('] ++ ftypeFprintfParms parms ++
      (if parms.isNil then "void)".toList else if unspec_parms then ", ...)".toList else [')'])

/-- The loop of `ftype__fprintf_parms`. A parameter whose type has the id 0 is an error there. -/
def ftypeFprintfParms : Parms → Text
  | .nil => []
  | .cons name type rest =>
    let words := parmWords (tagName true 127 type) name
    (match type with
    | .void => parmWords "<ERROR: type 0 not found>".toList name
    | .pointer (.subroutine signature) => ftypeFprintf name true signature
    | .subroutine signature => ftypeFprintf name false signature
    | _ => words) ++ ftypeFprintfParms rest
end

/-- The kinds of tags in the list of a struct that `class__fprintf` tells apart. -/
inductive MemberTag where
  | member
  | inheritance
  | other
  deriving DecidableEq, Repr

structure ClassMember where
  tag : MemberTag
  name : Option Text
  byte_offset : UInt32
  byte_size : Nat
  is_static : Bool
  deriving DecidableEq, Repr

/-- The entries that `class__fprintf` does not skip. -/
def ClassMember.isData (m : ClassMember) : Bool := m.tag = .member || m.tag = .inheritance

mutual
inductive Tag where
  | notFound (id : Nat)
  | base (name : Text) (bit_size : Nat)
  | pointer (target : TypeName)
  | qualified (qualifier : Qualifier) (of : Tag)
  | subroutine (signature : Signature)
  | enumeration (name : Option Text) (size : Nat)
  | union (name : Option Text) (size : Nat) (members : Members)
  | typedef (name : Option Text) (of : Tag)
  | array (of : Tag) (nr_entries : List Nat) (is_vector : Bool)
  | struct (is_class : Bool) (name : Option Text) (size : Nat) (members : Members)

/-- `namespace.tags`: the entries of a struct or a union with their types. -/
inductive Members where
  | nil
  | cons (m : ClassMember) (type : Tag) (rest : Members)
end

def Members.isNil : Members → Bool
  | .nil => true
  | .cons .. => false

def Tag.isFound : Tag → Bool
  | .notFound _ => false
  | _ => true

def Tag.words : Tag → TypeName
  | .notFound _ => .void
  | .base name _ => .base name
  | .pointer target => .pointer target
  | .qualified qualifier of => .qualified qualifier of.words
  | .subroutine signature => .subroutine signature
  | .enumeration name _ => .named .enumerationType name
  | .union name _ _ => .named .unionType name
  | .typedef name _ => .named .typedef name
  | .array of _ _ => .array of.words
  | .struct is_class name _ _ => .named (if is_class then .classType else .structureType) name

/-- `resolve_typedef`: a chain that ends at an unknown id has no result. -/
def Tag.resolveTypedef : Tag → Tag
  | .typedef _ of => of.resolveTypedef
  | type => type

/-- Whether a resolved typedef has a tag with a name, so that the tag replaces the typedef.
For a tag without a name field the cast of `type__name` reads what stands there, which only
decides between the words of the typedef and those of its target; it counts as a name. -/
def Tag.isNamed : Tag → Bool
  | .notFound _ => false
  | .enumeration name _ => name.isSome
  | .union name _ _ => name.isSome
  | .struct _ name _ _ => name.isSome
  | _ => true

/-- `nr_members`: the entries that are neither static nor something else than a member. -/
def Members.nrMembers : Members → Nat
  | .nil => 0
  | .cons m _ rest => (if m.isData && !m.is_static then 1 else 0) + rest.nrMembers

/-- `type->size` with the empty base optimization. -/
def typeSize (size : Nat) (members : Members) : Nat :=
  if size = 1 ∧ members.nrMembers = 0 then 0 else size

/-- `tag__size`. No array has functions as its elements, so a function has no size here. -/
def Tag.tagSize (addr_size : Nat) : Tag → Nat
  | .notFound _ => 2 ^ 64 - 1
  | .base _ bit_size => bit_size / 8
  | .pointer _ => addr_size
  | .qualified _ of => of.tagSize addr_size
  | .subroutine _ => 0
  | .enumeration _ size => size / 8
  | .union _ size members => typeSize size members
  | .typedef _ of => of.tagSize addr_size
  | .array of nr_entries _ => of.tagSize addr_size * nr_entries.prod
  | .struct _ _ size members => typeSize size members

end LockDoc.Layout
