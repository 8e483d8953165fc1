import LockDoc.Hypothesizer.Input
import LockDoc.Layout.Rows

/-!
# The flattened struct

What `class__fprintf` appends to the file, read back as a table, against the absolute offsets
of the leaves. The offset of an array of structs is not handed on to its elements.
-/
namespace LockDoc.Layout

open Hypothesizer (getlines getlines_append)

variable {σ : Type}

/-- The callback `addMemberName`: the names seen so far in the order of their ids, from 1 on. -/
def addMemberName (memberNames : List Text) (name : Text) : Nat × List Text :=
  match memberNames.idxOf? name with
  | some i => (i + 1, memberNames)
  | none => (memberNames.length + 1, memberNames ++ [name])

end LockDoc.Layout
