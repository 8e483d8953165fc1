import LockDoc.Layout.Printer

/-!
# The expansion of a struct

Which types `type__fprintf` recurses into, how deep, and the absolute offset of every member
that is a leaf of the expansion.
-/
namespace LockDoc.Layout

variable {σ : Type}

/-- The structs whose members stand in the table: those without a name and those asked for. -/
def Ext.wants (e : Ext σ) (name : Option Text) : Bool := name.all e.expand_type

def Tag.expands (e : Ext σ) : Tag → Bool
  | .typedef _ of => of.resolveTypedef.isNamed && of.expands e
  | .array of nr_entries _ => of.expands e && nr_entries.length == 1
  | .struct _ name _ _ => e.wants name
  | _ => false

/-- The entries of a struct that have a place in it. -/
def ClassMember.isPlaced (m : ClassMember) (type : Tag) : Bool := m.isData && type.isFound && !m.is_static

mutual
/-- The structs that are expanded one inside the other, arrays of them included. -/
def Tag.levels (e : Ext σ) : Tag → Nat
  | .typedef name of => if (Tag.typedef name of).expands e then of.levels e else 0
  | .array of nr_entries is_vector => if (Tag.array of nr_entries is_vector).expands e then of.levels e else 0
  | .struct _ name _ members => if e.wants name then members.levels e + 1 else 0
  | _ => 0

def Members.levels (e : Ext σ) : Members → Nat
  | .nil => 0
  | .cons m type rest => max (if m.isPlaced type then type.levels e else 0) (rest.levels e)
end

/-- Where the elements of an expanded array start, given the offset of the member, and how
many of them there are, given the length of the array. -/
structure Placing where
  start : Nat → Nat
  elements : Nat → Nat

/-- The layout that the debug information describes. -/
def Placing.absolute : Placing := ⟨id, id⟩

/-- The layout that the printer writes down: the first element of an array is always there,
and the offset of the array is not part of it. -/
def Placing.written : Placing := ⟨fun _ => 0, max 1⟩

mutual
/-- The offsets of the leaves of a member at `offset` in a struct at `base`. -/
def Tag.offsets (e : Ext σ) (placing : Placing) (base offset : Nat) : Tag → List Nat
  | .typedef name of =>
    if (Tag.typedef name of).expands e then of.offsets e placing base offset else [base + offset]
  | .array of nr_entries is_vector =>
    if (Tag.array of nr_entries is_vector).expands e then
      (List.range (placing.elements (nr_entries.headD 0))).flatMap fun i =>
        of.offsets e placing (base + placing.start offset) (i * of.tagSize e.addr_size)
    else [base + offset]
  | .struct _ name _ members => if e.wants name then members.offsets e placing (base + offset) else [base + offset]
  | _ => [base + offset]

def Members.offsets (e : Ext σ) (placing : Placing) (base : Nat) : Members → List Nat
  | .nil => []
  | .cons m type rest =>
    (if m.isPlaced type then type.offsets e placing base m.byte_offset.toNat else []) ++ rest.offsets e placing base
end

mutual
/-- Whether the expansion has a leaf, when no array is taken to be empty. -/
def Tag.hasLeaf (e : Ext σ) : Tag → Bool
  | .typedef name of => !(Tag.typedef name of).expands e || of.hasLeaf e
  | .array of nr_entries is_vector => !(Tag.array of nr_entries is_vector).expands e || of.hasLeaf e
  | .struct _ name _ members => !e.wants name || members.hasLeaf e
  | _ => true

def Members.hasLeaf (e : Ext σ) : Members → Bool
  | .nil => false
  | .cons m type rest => (m.isPlaced type && type.hasLeaf e) || rest.hasLeaf e
end

mutual
/-- Every array that is expanded to any leaf stands at offset 0 of what it is part of, and is
not empty. -/
def Tag.inFront (e : Ext σ) (offset : Nat) : Tag → Bool
  | .typedef name of => !(Tag.typedef name of).expands e || of.inFront e offset
  | .array of nr_entries is_vector =>
    !((Tag.array of nr_entries is_vector).expands e && of.hasLeaf e) ||
      (offset == 0 && 0 < nr_entries.headD 0 &&
        (List.range (nr_entries.headD 0)).all fun i => of.inFront e (i * of.tagSize e.addr_size))
  | .struct _ name _ members => !e.wants name || members.inFront e
  | _ => true

def Members.inFront (e : Ext σ) : Members → Bool
  | .nil => true
  | .cons m type rest => (!m.isPlaced type || type.inFront e m.byte_offset.toNat) && rest.inFront e
end

end LockDoc.Layout
