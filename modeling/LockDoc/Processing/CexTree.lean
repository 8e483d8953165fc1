import LockDoc.Lib.Counter
import LockDoc.Lib.NamedTree
import LockDoc.Lib.Text

/-!
# The counterexample trees of `pretty-print-cex.py`

For every group of counterexample lines the main loop grows a tree of call paths, and at the
nodes of the accesses it counts the lock combinations. The columns of a line are already split.
A reference into the tree is the path of names to the node; what the loop does after it has
moved on to a node is a change of the subtree there.
-/
namespace LockDoc.Processing

/-- An element of a stack trace, `addr@fn@file:line`. -/
structure CodePos where
  addr : Text
  fn : Text
  file : Text
  line : Text
  deriving DecidableEq, Repr

def toNodeID (codePos : CodePos) : Text := codePos.fn ++ '_' :: codePos.line

def toTreeNodeID (codePos : CodePos) : Text := toNodeID codePos

/-- What a node holds. The root has no position in the code. -/
structure CexNode where
  codePos : Option CodePos
  locks : Counter Text

abbrev CexTree := NamedTree Text CexNode

def newTree : CexTree := ⟨"userspace_root".toList, ⟨none, .empty⟩, .nil⟩

def createInitTreeNode (codePos : CodePos) : CexTree := ⟨toTreeNodeID codePos, ⟨some codePos, .empty⟩, .nil⟩

def findTree (curTree : CexTree) (treeName : Text) : Option (List Text) := curTree.find treeName

def addLocks (locks : Counter Text) (node : CexTree) : CexTree :=
  { node with value := { node.value with locks := node.value.locks.addAll locks.entries } }

/-- The child for a position, found or new. -/
def childOf (codePos : CodePos) (parentIter : CexTree) : CexTree :=
  (parentIter.child (toTreeNodeID codePos)).getD (createInitTreeNode codePos)

def emplaceChild (codePos : CodePos) (locks : Counter Text) (parentIter : CexTree) : CexTree :=
  parentIter.put (addLocks locks (childOf codePos parentIter))

/-- The loop over the pairs of elements from `treeIter` on. The locks go to the last child. -/
def insertTrace (locks : Counter Text) : List CodePos → CexTree → CexTree
  | parent :: child :: rest, treeIter =>
    let below := fun parentIter =>
      insertTrace locks (child :: rest) (emplaceChild child (if rest.isEmpty then locks else .empty) parentIter)
    match findTree treeIter (toTreeNodeID parent) with
    | some path => treeIter.modifyAt below path
    | none => treeIter.put (below (createInitTreeNode parent))
  | _, treeIter => treeIter

/-- A line: the lock combinations with the numbers of accesses, and the stack trace from the
innermost frame on. -/
structure CexLine where
  locksHeld : List (Text × Nat)
  stacktrace : List CodePos
  counted : locksHeld ≠ []
  positive : ∀ e ∈ locksHeld, 0 < e.2
  framed : stacktrace ≠ []

namespace CexLine

/-- The dictionary `locks`: a combination that comes again replaces the one before. -/
def locks (line : CexLine) : Counter Text := .ofList line.locksHeld

def traceElems (line : CexLine) : List CodePos := line.stacktrace.reverse

def insert (tree : CexTree) (line : CexLine) : CexTree := insertTrace line.locks line.traceElems tree

end CexLine

/-- `data_type`, `member` and `accesstype`. -/
abbrev CexKey := Text × Text × Text

structure CexHypothesis where
  key : CexKey
  hypothesisID : Nat
  tree : CexTree

/-- The state of the main loop: `hypothesesList`, and what belongs to `lastKey`. -/
structure CexLoop where
  hypothesesList : List CexHypothesis
  current : Option CexHypothesis

/-- One line: with a new key the last hypothesis is saved and a new tree begins. -/
def CexLoop.line (hypothesesDict : CexKey → Bool) (s : CexLoop) (row : CexKey × CexLine) : CexLoop :=
  if !hypothesesDict row.1 then s
  else match s.current with
    | none => { s with current := some ⟨row.1, 1, row.2.insert newTree⟩ }
    | some h =>
      if h.key = row.1 then { s with current := some { h with tree := row.2.insert h.tree } }
      else ⟨s.hypothesesList ++ [h], some ⟨row.1, h.hypothesisID + 1, row.2.insert newTree⟩⟩

/-- The main loop. The last entry is also made when there was no line. -/
def mainLoop (hypothesesDict : CexKey → Bool) (rows : List (CexKey × CexLine)) : List (Option CexHypothesis) :=
  let s := rows.foldl (CexLoop.line hypothesesDict) ⟨[], none⟩
  s.hypothesesList.map some ++ [s.current]

/-- The tree of the lines of one group. -/
def groupTree (group : List CexLine) : CexTree := group.foldl CexLine.insert newTree

namespace CexLoop

variable {hypothesesDict : CexKey → Bool}

theorem line_unknown {row : CexKey × CexLine} (s : CexLoop) (h : hypothesesDict row.1 = false) :
    s.line hypothesesDict row = s := by
  rw [line, h]
  rfl

theorem line_same {s : CexLoop} {h : CexHypothesis} {row : CexKey × CexLine} (hknown : hypothesesDict row.1 = true)
    (hs : s.current = some h) (hkey : h.key = row.1) :
    s.line hypothesesDict row = { s with current := some { h with tree := row.2.insert h.tree } } := by
  simp [line, hknown, hs, hkey]

/-- With a new key the tree so far is among the saved ones, and the new one has this line alone. -/
theorem line_new {s : CexLoop} (row : CexKey × CexLine) (hknown : hypothesesDict row.1 = true)
    (hs : s.current.map (·.key) ≠ some row.1) :
    ∃ id, s.line hypothesesDict row =
      ⟨s.hypothesesList ++ s.current.toList, some ⟨row.1, id, groupTree [row.2]⟩⟩ := by
  cases hc : s.current with
  | none => exact ⟨1, by simp [line, hknown, hc, groupTree]⟩
  | some h =>
    have hkey : h.key ≠ row.1 := fun he => hs (by rw [hc, Option.map_some, he])
    exact ⟨h.hypothesisID + 1, by simp [line, hknown, hc, hkey, groupTree]⟩

/-- The lines of one known key, after a line of that key. -/
theorem group_same {key : CexKey} (hknown : hypothesesDict key = true) (group : List CexLine) (s : CexLoop) (id : Nat)
    (tree : CexTree) (hs : s.current = some ⟨key, id, tree⟩) :
    ((group.map fun line => (key, line)).foldl (CexLoop.line hypothesesDict) s).current =
      some ⟨key, id, group.foldl CexLine.insert tree⟩ := by
  induction group generalizing s tree with
  | nil => exact hs
  | cons line group ih =>
    rw [List.map_cons, List.foldl_cons, line_same hknown hs rfl]
    exact ih _ _ rfl

/-- The keys of the lines that are not passed over. -/
def knownKeys (hypothesesDict : CexKey → Bool) (rows : List (CexKey × CexLine)) : List CexKey :=
  (rows.map Prod.fst).filter hypothesesDict

/-- The current hypothesis has the key of the last line that was not passed over. -/
theorem current_key (rows : List (CexKey × CexLine)) :
    (rows.foldl (line hypothesesDict) ⟨[], none⟩).current.map (·.key) = (knownKeys hypothesesDict rows).getLast? := by
  induction rows using List.reverseRecOn with
  | nil => rfl
  | append_singleton rows row ih =>
    rw [List.foldl_append, List.foldl_cons, List.foldl_nil, knownKeys, List.map_append, List.filter_append,
      ← knownKeys]
    cases hknown : hypothesesDict row.1 with
    | false => simp [line_unknown _ hknown, ih, hknown]
    | true =>
      have hlast : (knownKeys hypothesesDict rows ++ List.filter hypothesesDict ([row].map Prod.fst)).getLast? =
          some row.1 := by simp [hknown]
      rw [hlast]
      by_cases hs : (rows.foldl (line hypothesesDict) ⟨[], none⟩).current.map (·.key) = some row.1
      · obtain ⟨h, hc, hkey⟩ := Option.map_eq_some_iff.mp hs
        rw [line_same hknown hc hkey, Option.map_some, hkey]
      · obtain ⟨id, hline⟩ := line_new row hknown hs
        rw [hline]
        rfl

theorem saved_line {s : CexLoop} {h : CexHypothesis} (hs : h ∈ s.hypothesesList) (row : CexKey × CexLine) :
    h ∈ (s.line hypothesesDict row).hypothesesList := by
  unfold line
  split
  · exact hs
  · split
    · exact hs
    · split
      · exact hs
      · exact List.mem_append_left _ hs

theorem saved_run {s : CexLoop} {h : CexHypothesis} (hs : h ∈ s.hypothesesList) (rows : List (CexKey × CexLine)) :
    h ∈ (rows.foldl (line hypothesesDict) s).hypothesesList := by
  induction rows generalizing s with
  | nil => exact hs
  | cons row rows ih => exact ih (saved_line hs row)

/-- Lines that begin with another key leave the current tree as it is: it is saved, or current to the end. -/
theorem current_run {s : CexLoop} {h : CexHypothesis} (hs : s.current = some h) (rows : List (CexKey × CexLine))
    (hkey : (knownKeys hypothesesDict rows).head? ≠ some h.key) :
    h ∈ (rows.foldl (line hypothesesDict) s).hypothesesList ∨ (rows.foldl (line hypothesesDict) s).current = some h := by
  induction rows with
  | nil => exact .inr hs
  | cons row rows ih =>
    rw [List.foldl_cons]
    cases hknown : hypothesesDict row.1 with
    | false =>
      rw [line_unknown s hknown]
      exact ih (by simpa [knownKeys, hknown] using hkey)
    | true =>
      have hne : s.current.map (·.key) ≠ some row.1 := fun he => hkey (by simpa [knownKeys, hknown, hs, eq_comm] using he)
      obtain ⟨id, hline⟩ := line_new row hknown hne
      rw [hline]
      exact .inl (saved_run (by simp [hs]) rows)

end CexLoop

/-- Lines of one known key that follow one another, with other keys before and after them, have a
hypothesis of their own with the tree of the group. -/
theorem group_hypothesis {hypothesesDict : CexKey → Bool} {before after : List (CexKey × CexLine)} {key : CexKey}
    {group : List CexLine} (hknown : hypothesesDict key = true) (hgroup : group ≠ [])
    (hbefore : (CexLoop.knownKeys hypothesesDict before).getLast? ≠ some key)
    (hafter : (CexLoop.knownKeys hypothesesDict after).head? ≠ some key) :
    ∃ id, some ⟨key, id, groupTree group⟩ ∈
      mainLoop hypothesesDict (before ++ (group.map fun line => (key, line)) ++ after) := by
  obtain ⟨line, group, rfl⟩ := List.exists_cons_of_ne_nil hgroup
  rw [← CexLoop.current_key] at hbefore
  obtain ⟨id, hline⟩ := CexLoop.line_new (key, line) hknown hbefore
  have hcurrent := CexLoop.group_same hknown group _ id (groupTree [line]) (congrArg CexLoop.current hline)
  have hrun := CexLoop.current_run hcurrent after hafter
  refine ⟨id, ?_⟩
  rw [mainLoop, List.foldl_append, List.foldl_append, List.map_cons, List.foldl_cons]
  rcases hrun with hsaved | hlast
  · exact List.mem_append_left _ (List.mem_map_of_mem hsaved)
  · exact List.mem_append_right _ (List.mem_singleton.mpr hlast.symm)

end LockDoc.Processing
