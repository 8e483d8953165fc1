import LockDoc.Hypothesizer.Enumerate

/-!
# Choosing the winning hypothesis

`determine_winning_hypothesis` searches the graph of hypotheses breadth first from the
root. The four strategies are its callbacks: each sees one hypothesis with its most
frequent lock order and the relative support of that order, may replace or extend the
list of current winners, and decides whether the children are looked at. Supports and
thresholds are rational numbers.
-/
namespace LockDoc.Hypothesizer

open Worklist

/-- What the search changes of a member, and `rel_support_winner`. -/
structure Search where
  conflictList : List (List MyId × List MyId)
  winnerFound : Bool
  relSupportWinner : ℚ

namespace Search

/-- `member.conflict_list.front().first.size()`. -/
def frontSize (s : Search) : Nat := (s.conflictList.headD ([], [])).1.length

def inConflictList (s : Search) (hypothesis : List MyId) : Bool := s.conflictList.any (fun elem => elem.2 = hypothesis)

/-- An equal hypothesis is saved, unless it is there. -/
def save (s : Search) (curNodeSorted curNodeOrdered : List MyId) : Search :=
  if s.inConflictList curNodeOrdered then s
  else { s with conflictList := s.conflictList ++ [(curNodeSorted, curNodeOrdered)] }

/-- A better hypothesis replaces all others. -/
def replace (s : Search) (curNodeSorted curNodeOrdered : List MyId) : Search :=
  { s with winnerFound := true, conflictList := [(curNodeSorted, curNodeOrdered)] }

end Search

/-- An `eval_cb`: the new state, and the nodes it pushes. -/
abbrev Callback (κ : Type := Nat) := Member κ → Search → List MyId → List MyId → ℚ → Search × List (List MyId)

def evaluateHypothesisBottomup (acceptThreshold : ℚ) : Callback :=
  fun member s curNodeSorted curNodeOrdered curRelSup =>
    if s.frontSize = curNodeSorted.length ∧ curRelSup = s.relSupportWinner then
      (s.save curNodeSorted curNodeOrdered, member.graph.children curNodeSorted)
    else if (acceptThreshold ≤ curRelSup ∧ curRelSup < s.relSupportWinner) ∨
        (s.frontSize < curNodeSorted.length ∧ curRelSup = s.relSupportWinner) then
      ({ s.replace curNodeSorted curNodeOrdered with relSupportWinner := curRelSup },
        member.graph.children curNodeSorted)
    else (s, [])

def evaluateHypothesisSharpen (reductionFactor : ℚ) : Callback :=
  fun member s curNodeSorted curNodeOrdered curRelSup =>
    let delta := 1 - curRelSup / s.relSupportWinner
    if s.frontSize = curNodeSorted.length ∧ curRelSup = s.relSupportWinner then
      (s.save curNodeSorted curNodeOrdered, member.graph.children curNodeSorted)
    else if (s.frontSize = curNodeSorted.length ∧ s.relSupportWinner < curRelSup) ∨
        (s.frontSize < curNodeSorted.length ∧ (curRelSup = s.relSupportWinner ∨ delta ≤ reductionFactor)) then
      ({ s.replace curNodeSorted curNodeOrdered with relSupportWinner := curRelSup },
        member.graph.children curNodeSorted)
    else (s, [])

/-- The lockset strategy leaves `rel_support_winner` alone. -/
def evaluateHypothesisLockset {κ : Type} : Callback κ :=
  fun member s curNodeSorted curNodeOrdered curRelSup =>
    if curRelSup < 1 then (s, [])
    else if s.frontSize = curNodeSorted.length then
      (s.save curNodeSorted curNodeOrdered, member.graph.children curNodeSorted)
    else if s.frontSize ≤ curNodeSorted.length then
      (s.replace curNodeSorted curNodeOrdered, member.graph.children curNodeSorted)
    else (s, [])

/-- `nolock_fraction`. -/
def Member.nolockFraction (member : Member) : ℚ :=
  ((member.occurrences - member.occurrencesWithLocks : Nat) : ℚ) / member.occurrences

def evaluateHypothesisTopdown (acceptThreshold nolockThreshold : ℚ) : Callback :=
  fun member s curNodeSorted curNodeOrdered curRelSup =>
    if ¬nolockThreshold ≤ member.nolockFraction then
      if curNodeSorted = Member.rootNode then (s, member.graph.children curNodeSorted)
      else if s.frontSize = curNodeSorted.length ∧ curRelSup = s.relSupportWinner then
        (s.save curNodeSorted curNodeOrdered, member.graph.children curNodeSorted)
      else if acceptThreshold ≤ curRelSup ∧ s.relSupportWinner ≤ curRelSup ∧ s.frontSize ≤ curNodeSorted.length then
        ({ s.replace curNodeSorted curNodeOrdered with relSupportWinner := curRelSup },
          member.graph.children curNodeSorted)
      else (s, [])
    else
      ({ s with
        winnerFound := true
        conflictList := if s.conflictList.length = 0 then [(Member.rootNode, Member.rootNode)] else s.conflictList }, [])

/-- An `init_cb`: the first state and the first nodes. -/
abbrev InitCallback := Search → List (List MyId) → Search × List (List MyId)

def evaluateHypothesisInitTopdown : InitCallback :=
  fun s _ => ({ s with relSupportWinner := 0, winnerFound := false }, [Member.rootNode])

section

variable {κ : Type} [OfNat κ 0] [LT κ] [DecidableLT κ]

/-- The lock order with the most occurrences, the first one of several. -/
def mostFrequentOrder (orderMatches : Std.ExtTreeMap (List MyId) κ) : List MyId :=
  (orderMatches.toList.foldl (fun best m => if best.1 < m.2 then (m.2, m.1) else best) (0, [])).2

/-- The body of the loop of `determine_winning_hypothesis`, with the division of two counters. -/
def examineWith (divide : κ → κ → ℚ) (member : Member κ) (evalCb : Callback κ) (s : Search)
    (curNodeSorted : List MyId) : Search × List (List MyId) :=
  let hypothesis := member.hypotheses.getD curNodeSorted {}
  let curNodeOrdered := mostFrequentOrder hypothesis.orderMatches
  let curRelSup := divide (hypothesis.orderMatches.getD curNodeOrdered 0) member.occurrences
  evalCb member s curNodeSorted curNodeOrdered curRelSup

def determineWith (divide : κ → κ → ℚ) (fuel : Nat) (member : Member κ) (evalCb : Callback κ)
    (initCb : Option InitCallback) : Except Stop (Member κ) := do
  let s : Search := ⟨[(Member.rootNode, Member.rootNode)], true, 1⟩
  let nodes := member.graph.children Member.rootNode
  let (s, nodes) := match initCb with
    | some init => init s nodes
    | none => (s, nodes)
  let s ← run .outOfFuel (fun s node => .ok (examineWith divide member evalCb s node)) fuel s nodes
  .ok { member with
    conflictList := s.conflictList
    winnerFound := s.winnerFound
    winningHypothesis := if s.winnerFound then (s.conflictList.headD ([], [])).2 else member.winningHypothesis }

end

/-- The body of the loop with exact quotients. -/
def examine : Member → Callback → Search → List MyId → Search × List (List MyId) :=
  examineWith fun m n => (m : ℚ) / n

/-- `determine_winning_hypothesis` with exact quotients. -/
def determineWinningHypothesis : Nat → Member → Callback → Option InitCallback → Except Stop Member :=
  determineWith fun m n => (m : ℚ) / n

/-- `SelectionStrategy`, with the parameters each callback reads. -/
inductive Strategy where
  | sharpen (reductionFactor : ℚ)
  | bottomup (acceptThreshold : ℚ)
  | topdown (acceptThreshold nolockThreshold : ℚ)
  | lockset
  deriving DecidableEq

/-- The `switch` over the selection strategy. -/
def selectWinner (fuel : Nat) (strategy : Strategy) (member : Member) : Except Stop Member :=
  match strategy with
  | .sharpen factor => determineWinningHypothesis fuel member (evaluateHypothesisSharpen factor) none
  | .topdown accept nolock =>
    determineWinningHypothesis fuel member (evaluateHypothesisTopdown accept nolock) (some evaluateHypothesisInitTopdown)
  | .bottomup accept => determineWinningHypothesis fuel member (evaluateHypothesisBottomup accept) none
  | .lockset => determineWinningHypothesis fuel member evaluateHypothesisLockset none

theorem selectWinner_stable (strategy : Strategy) (member : Member) :
    Stable (fun n => selectWinner n strategy member) := by
  cases strategy <;> exact (run_stable _ _ _ _).bind fun _ => .const _

/-- The largest count of one lock order. -/
def LockingHypothesisMatches.largest {κ : Type} [OfNat κ 0] [Max κ] (m : LockingHypothesisMatches κ) : κ :=
  (m.orderMatches.toList.map Prod.snd).foldr max 0

/-- The ordered support of a hypothesis: its largest count of one lock order, relative to
all accesses of the member. -/
def Member.orderedSupport (member : Member) (h : List MyId) : ℚ :=
  ((member.hypotheses.getD h {}).largest : ℚ) / member.occurrences

end LockDoc.Hypothesizer
