import LockDoc.Lib.Worklist
import LockDoc.Hypothesizer.Combination

/-!
# Members and their hypotheses

A member of a data type with its lock combinations, and `find_hypotheses`, which
evaluates all hypotheses of one depth after the other and enters each new one into the
graph of hypotheses. The loops that nothing bounds in the source take a number of
rounds; the theorems are about every large enough number.
-/
namespace LockDoc.Hypothesizer

/-- How a run ends before its result. -/
inductive Stop where
  /-- The bound on the rounds of a loop was too small. -/
  | outOfFuel
  /-- An `assert` of `diff_hypotheses` or `add_hypothesis_to_graph`. -/
  | assertion
  /-- `std::invalid_argument` from `std::stoull`. -/
  | invalidArgument
  /-- `std::out_of_range` from `std::stoull`. -/
  | outOfRange
  /-- More locks than `myid_t` can hold. -/
  | tooManyLocks
  /-- More members than `myid_t` can hold. -/
  | tooManyMembers
  deriving DecidableEq, Repr

/-- The children of every node, each set in the order of `std::set`. -/
abbrev Graph := Std.ExtTreeMap (List MyId) (Std.ExtTreeSet (List MyId))

/-- `member.graph[node]`. -/
def Graph.children (graph : Graph) (node : List MyId) : List (List MyId) := (graph.getD node ∅).toList

structure Member (κ : Type := Nat) where
  datatype : List Char
  name : List Char
  accesstype : Char
  occurrences : κ
  occurrencesWithLocks : κ
  combinations : List (LockCombination κ) := []
  hypotheses : Std.ExtTreeMap (List MyId) (LockingHypothesisMatches κ) := ∅
  graph : Graph := ∅
  conflictList : List (List MyId × List MyId) := []
  winningHypothesis : List MyId := []
  winnerFound : Bool := false
  shown : Bool := true

namespace Member

variable {κ : Type}

/-- `Member::root_node`, the no-lock hypothesis. -/
def rootNode : List MyId := []

/-- The constructor, with `parse_name`. -/
def new [OfNat κ 0] (datatype combinedName : List Char) : Member κ where
  datatype := datatype
  name := combinedName.drop 2
  accesstype := combinedName.headD '\x00'
  occurrences := 0
  occurrencesWithLocks := 0

def combinedName (member : Member κ) : List Char := member.accesstype :: ':' :: member.name

def clear (member : Member κ) : Member κ :=
  { member with
    name := []
    combinations := []
    hypotheses := ∅
    conflictList := []
    winningHypothesis := []
    graph := ∅ }

end Member

/-- The number of positions at which `lhs` agrees with `rhs` from position `i` on. -/
def agreements (lhs rhs : List MyId) (i : Nat) : Nat :=
  (List.range lhs.length).countP (fun k => lhs[k]? = rhs[k + i]?)

def diffHypotheses (lhs rhs : List MyId) : Except Stop Int :=
  if lhs.length ≤ rhs.length then
    let diff := rhs.length - lhs.length
    if (List.range (diff + 1)).any (fun i => agreements lhs rhs i = lhs.length) then .ok diff
    else .ok (-1)
  else .error .assertion

/-- The body of the loop of `add_hypothesis_to_graph`. -/
def insertStep (hypothesis : List MyId) (graph : Graph) (curNode : List MyId) :
    Except Stop (Graph × List (List MyId)) := do
  let ret ← diffHypotheses curNode hypothesis
  if ret = 0 then .error .assertion
  else if 0 < ret then
    if ret = 1 then .ok (graph.insert curNode ((graph.getD curNode ∅).insert hypothesis), [])
    else .ok (graph, graph.children curNode)
  else .ok (graph, [])

section

variable {κ : Type}

def addHypothesisToGraph (fuel : Nat) (member : Member κ) (hypothesis : List MyId) : Except Stop (Member κ) :=
  if hypothesis.length = 0 then .ok member
  else do
    let graph ← Worklist.run .outOfFuel (insertStep hypothesis) fuel member.graph [Member.rootNode]
    .ok { member with graph := graph }

variable [OfNat κ 0] [Add κ]

/-- A hypothesis that `emplace` finds in the map is not evaluated again. -/
def evaluateHypothesis (fuel : Nat) (member : Member κ) (hypothesis : List MyId) : Except Stop (Member κ) :=
  if member.hypotheses.contains hypothesis then .ok member
  else addHypothesisToGraph fuel
    { member with
      hypotheses := member.hypotheses.insert hypothesis (evaluation member.combinations hypothesis) }
    hypothesis

/-- `find_hypotheses_rek`, with the part of `locks_held_sorted` from `next_lockpos` on. -/
def findHypothesesRek (fuel : Nat) : List MyId → List MyId → Nat → Member κ → Except Stop (Member κ)
  | _, cur, 0, member => evaluateHypothesis fuel member cur
  | [], _, _ + 1, member => .ok member
  | lock :: locks, cur, depth + 1, member => do
    let member ← (if lock ∈ cur then .ok member else findHypothesesRek fuel locks (cur ++ [lock]) depth member)
    findHypothesesRek fuel locks cur (depth + 1) member

/-- One round of the loop of `find_hypotheses`. -/
def findAtDepth (fuel : Nat) (member : Member κ) (depth : Nat) : Except Stop (Member κ) :=
  member.combinations.foldlM (fun member lc => findHypothesesRek fuel lc.locksHeldSorted [] depth member) member

/-- The loop of `find_hypotheses` from some depth on. -/
def findFrom (fuel maxHypoLen : Nat) : Nat → Nat → Member κ → Except Stop (Member κ)
  | 0, _, _ => .error .outOfFuel
  | rounds + 1, depth, member => do
    let found ← findAtDepth fuel member depth
    if member.hypotheses.size = found.hypotheses.size ∨ (0 < maxHypoLen ∧ maxHypoLen ≤ depth) then .ok found
    else findFrom fuel maxHypoLen rounds (depth + 1) found

def findHypotheses (fuel : Nat) (member : Member κ) (maxHypoLen : Nat) : Except Stop (Member κ) :=
  findFrom fuel maxHypoLen fuel 0 member

end

end LockDoc.Hypothesizer
