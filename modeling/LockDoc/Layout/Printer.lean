import LockDoc.Layout.Tag

/-!
# The struct printer

`class__fprintf` and the printers it calls. The file, the part of the `ext` record that they
change and the state behind the callback `add_member_name` are one record that they pass on;
what they only read of `ext` and `cu` is another.
-/
namespace LockDoc.Layout

variable {σ : Type}

/-- `DELIMITER_CHAR`. -/
def delimiter : Char := ';'

/-- The fields of `ext` and `cu` that the printers read. -/
structure Ext (σ : Type) where
  type_id : Nat
  expand_type : Text → Bool
  add_member_name : σ → Text → Nat × σ
  addr_size : Nat

/-- The first `next_prefix_idx` prefixes are the list; an entry is a C string or null. -/
structure Printer (σ : Type) where
  out : Text
  name_prefixes : List (Option Text)
  offset : UInt32
  names : σ

namespace Printer

def next_prefix_idx (p : Printer σ) : Nat := p.name_prefixes.length

def print (p : Printer σ) (text : Text) : Printer σ := { p with out := p.out ++ text }

/-- The entry of `type__fprintf` into a struct that it expands. -/
def enter (p : Printer σ) (cm_name : Option Text) (offset : UInt32) : Printer σ :=
  { p with name_prefixes := p.name_prefixes ++ [cm_name], offset := p.offset + offset }

def leave (p : Printer σ) (offset : UInt32) : Printer σ :=
  { p with name_prefixes := p.name_prefixes.dropLast, offset := p.offset - offset }

end Printer

/-- The length of `name_prefixes`. -/
def maxPrefixes : Nat := 16

/-- `dwarves_convert_concat_members`. -/
def concatMembers (p : Printer σ) (cm_name : Text) : Text :=
  (p.name_prefixes.flatMap fun name => name.getD "(null)".toList ++ ['.']) ++ cm_name

/-- The product of the dimensions as the loop computes it: a first dimension of 0 ends it. -/
def flatDimensions : List Nat → Nat
  | 0 :: _ => 0
  | nr_entries => nr_entries.foldl (fun flat n => if flat = 0 then n else flat * n) 0

/-- What follows the element type of an array that is not expanded. -/
def dimensionText (size : Nat) (nr_entries : List Nat) (is_vector : Bool) : Text :=
  if is_vector then
    let flat := flatDimensions nr_entries
    " __attribute__ ((__vector_size__ (".toList ++ Text.ofNat ((if flat = 0 then 1 else flat) * size) ++
      ")))".toList
  else nr_entries.flatMap fun n => ['['] ++ Text.ofNat n ++ [']']

/-- `array_type__fprintf` over the printer of its element type, which takes the name of the
enclosing member and the offset within it. The array gets neither from its caller. -/
def arrayTypeFprintf (e : Ext σ) (element : Option Text → UInt32 → Printer σ → Bool × Printer σ) (of : Tag)
    (name : Option Text) (nr_entries : List Nat) (is_vector : Bool) (p : Printer σ) : Bool × Printer σ :=
  let p := match of with
    | .notFound id => p.print ("<ERROR(array_type__fprintf:201): ".toList ++ Text.ofNat id ++ " not found!>\n".toList)
    | _ => p
  let q := (element name 0 p).2
  if (element name 0 p).1 && nr_entries.length == 1 then
    -- The elements from the second on are faked with an offset of their own.
    (true, (List.range' 1 (nr_entries.headD 0 - 1)).foldl
      (fun q i => (element name (UInt32.ofNat (i * of.tagSize e.addr_size)) q).2) q)
  else (false, q.print (dimensionText (of.tagSize e.addr_size) nr_entries is_vector))

/-- The names of the members of a union, joined by `-`; none if no member has a name. -/
def Members.joinedNames : Members → Option Text
  | .nil => none
  | .cons m type rest =>
    match m.name with
    | some name =>
      if m.isData ∧ type.isFound then
        some (name ++ (if rest.isNil then [] else ['-']) ++ rest.joinedNames.getD [])
      else rest.joinedNames
    | none => rest.joinedNames

/-- The names of the members of a union, and none for other types. -/
def Tag.unionNames : Tag → Option Text
  | .union _ _ members => members.joinedNames
  | _ => none

/-- The name of a member in the table: that of a union is made of its members' names, and a
member without a name has its offset. -/
def ClassMember.cmName (m : ClassMember) (type : Tag) : Text :=
  ((type.unionNames).or m.name).getD ("anonymous_".toList ++ Text.ofInt m.byte_offset.toInt32.toInt)

/-- The size column. An array of no elements at the end of a struct has 1 MiByte. -/
def fakedSize (m : ClassMember) (type : Tag) (is_last : Bool) : Int :=
  match type with
  | .array _ nr_entries _ =>
    if nr_entries.head? = some 0 ∧ is_last then 1024 * 1024 else (UInt32.ofNat m.byte_size).toInt32.toInt
  | _ => (UInt32.ofNat m.byte_size).toInt32.toInt

/-- `struct_member__fprintf` over the printer of the member's type, which takes the name, the
name for the table and the offset. -/
def structMemberFprintf (e : Ext σ)
    (printType : Option Text → Option Text → UInt32 → Printer σ → Bool × Printer σ)
    (m : ClassMember) (type : Tag) (is_last : Bool) (p : Printer σ) : Printer σ :=
  if m.is_static then p
  else
    let name := if m.tag = .inheritance then some "<ancestor>".toList else m.name
    let cm_name := m.cmName type
    let (recursed, q) := printType name (some cm_name) m.byte_offset p
    if recursed then q
    else
      let (member_name_id, names) := e.add_member_name q.names (concatMembers q cm_name)
      { q with names := names }.print
        (delimiter :: Text.ofNat member_name_id ++ delimiter :: Text.ofInt (m.byte_offset + q.offset).toInt32.toInt ++
          delimiter :: Text.ofInt (fakedSize m type is_last) ++ ['\n'])

/-- The first column and the words of a type that is not expanded. -/
def typeColumns (e : Ext σ) (words : Text) : Text := Text.ofNat e.type_id ++ delimiter :: words

mutual
/-- `type__fprintf`: whether it expanded a struct, and what it printed. A chain of typedefs is
followed one typedef a call; each call decides by what the whole chain resolves to. -/
def typeFprintf (e : Ext σ) (name cm_name : Option Text) (offset : UInt32) : Tag → Printer σ → Bool × Printer σ
  | .notFound _, p => (false, p.print "<ERROR>".toList)
  | .typedef tname of, p =>
    if of.resolveTypedef.isNamed then typeFprintf e name cm_name offset of p
    else (false, p.print (typeColumns e (tagName true 127 (.named .typedef tname))))
  | .array of nr_entries is_vector, p =>
    arrayTypeFprintf e (fun cm_name offset p => typeFprintf e name cm_name offset of p) of name nr_entries is_vector p
  | .struct is_class sname _ members, p =>
    if sname.any (fun n => !e.expand_type n) then
      (false, p.print (typeColumns e ((if is_class then "class" else "struct").toList ++ ' ' :: sname.getD [])))
    else if maxPrefixes ≤ p.next_prefix_idx then (false, p.print "<ERROR RECURSION MAXDEPTH REACHED>".toList)
    else (true, (membersFprintf e members (p.enter cm_name offset)).leave offset)
  | .pointer (.subroutine signature), p => (false, p.print (typeColumns e (ftypeFprintf name true signature)))
  | .subroutine signature, p => (false, p.print (typeColumns e (ftypeFprintf name false signature)))
  | .union uname _ _, p => (false, p.print (typeColumns e ("union ".toList ++ uname.getD [])))
  | .enumeration ename _, p => (false, p.print (typeColumns e ("enum ".toList ++ ename.getD [])))
  | .base bname _, p => (false, p.print (typeColumns e (tagName true 127 (.base bname))))
  | .pointer target, p => (false, p.print (typeColumns e (tagName true 127 (.pointer target))))
  | .qualified qualifier of, p => (false, p.print (typeColumns e (tagName true 127 (.qualified qualifier of.words))))

/-- The loop of `class__fprintf`. -/
def membersFprintf (e : Ext σ) : Members → Printer σ → Printer σ
  | .nil, p => p
  | .cons m type rest, p =>
    membersFprintf e rest <|
      if m.isData && type.isFound then
        structMemberFprintf e (fun name cm_name offset p => typeFprintf e name cm_name offset type p) m type
          rest.isNil p
      else p
end

end LockDoc.Layout
