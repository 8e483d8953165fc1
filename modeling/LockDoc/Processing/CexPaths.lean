import LockDoc.Processing.CexTree

/-!
# Where a counterexample ends up in the tree

The search for the next frame goes through the whole subtree, so a line may land on a longer
path than its own. A line lands on its own path exactly when every search finds nothing or a
child of the node it starts from; and unless a frame in the middle of its trace follows one of
its own name, it never lands on a shorter one.
-/
namespace LockDoc.Processing

open NamedTree

variable {locks : Counter Text} {treeIter : CexTree}

/-- The count of one lock combination at a node. -/
def CexNode.count (comb : Text) (node : CexNode) : Nat := node.locks.count comb

def CexNode.total (node : CexNode) : Nat := node.locks.total

theorem name_childOf (codePos : CodePos) (parentIter : CexTree) :
    (childOf codePos parentIter).name = toTreeNodeID codePos := by
  unfold childOf
  cases h : parentIter.child (toTreeNodeID codePos) with
  | none => rfl
  | some c => exact name_of_child h

@[simp] theorem name_addLocks (locks : Counter Text) (node : CexTree) : (addLocks locks node).name = node.name := rfl

@[simp] theorem name_emplaceChild (codePos : CodePos) (locks : Counter Text) (parentIter : CexTree) :
    (emplaceChild codePos locks parentIter).name = parentIter.name := rfl

/-- A new child holds nothing. -/
theorem weightAt_childOf (comb : Text) (codePos : CodePos) (parentIter : CexTree) (q : List Text) :
    weightAt (CexNode.count comb) q (childOf codePos parentIter) =
      weightAt (CexNode.count comb) (toTreeNodeID codePos :: q) parentIter := by
  rw [weightAt_cons, childOf]
  cases parentIter.child (toTreeNodeID codePos) with
  | some c => rfl
  | none =>
    cases q with
    | nil => rfl
    | cons a q => rfl

theorem total_childOf (codePos : CodePos) (parentIter : CexTree) :
    (childOf codePos parentIter).total CexNode.total =
      (parentIter.child (toTreeNodeID codePos)).elim 0 (NamedTree.total CexNode.total) := by
  rw [childOf]
  cases parentIter.child (toTreeNodeID codePos) with
  | some c => rfl
  | none => rfl

theorem weightAt_addLocks (comb : Text) (locks : Counter Text) (node : CexTree) (q : List Text) :
    weightAt (CexNode.count comb) q (addLocks locks node) =
      weightAt (CexNode.count comb) q node + if q = [] then locks.count comb else 0 := by
  cases q with
  | nil =>
    have hcount := Counter.count_addAll node.value.locks locks.entries comb
    rw [Counter.sumUnder_entries] at hcount
    exact hcount
  | cons a q => rfl

theorem total_addLocks (locks : Counter Text) (node : CexTree) :
    (addLocks locks node).total CexNode.total = node.total CexNode.total + locks.total := by
  have htotal := Counter.total_addAll node.value.locks locks.entries
  change (node.value.locks.addAll locks.entries).total + _ = node.value.locks.total + _ + locks.total
  rw [htotal, ← Counter.total]
  change _ + node.children.sum _ = _ + node.children.sum _ + _
  omega

/-- A child that gains a weight at a place below it. -/
theorem weightAt_put_childOf {comb : Text} {codePos : CodePos} {c : CexTree} {l : List Text} {x : Nat}
    (hname : c.name = toTreeNodeID codePos)
    (h : ∀ q, weightAt (CexNode.count comb) q c =
      weightAt (CexNode.count comb) q (childOf codePos treeIter) + if q = l then x else 0) (q : List Text) :
    weightAt (CexNode.count comb) q (treeIter.put c) =
      weightAt (CexNode.count comb) q treeIter + if q = toTreeNodeID codePos :: l then x else 0 := by
  cases q with
  | nil => rfl
  | cons a q =>
    rw [weightAt_put, hname]
    by_cases ha : toTreeNodeID codePos = a
    · subst ha
      rw [if_pos rfl, h, weightAt_childOf]
      simp
    · rw [if_neg ha, if_neg fun he => ha (List.cons.inj he).1.symm]
      rfl

theorem total_put_childOf {codePos : CodePos} {c : CexTree} {x : Nat} (hname : c.name = toTreeNodeID codePos)
    (h : c.total CexNode.total = (childOf codePos treeIter).total CexNode.total + x) :
    (treeIter.put c).total CexNode.total = treeIter.total CexNode.total + x := by
  have hput := total_put CexNode.total treeIter c
  rw [hname, ← total_childOf] at hput
  omega

theorem apart_createInitTreeNode (codePos : CodePos) : (createInitTreeNode codePos).Apart := trivial

/-- A child that the loop emplaces is new, or it is left as it is but for its locks. -/
theorem apart_emplaceChild (ht : treeIter.Apart) (codePos : CodePos) (locks : Counter Text) :
    (emplaceChild codePos locks treeIter).Apart := by
  unfold emplaceChild childOf
  cases h : treeIter.child (toTreeNodeID codePos) with
  | none => exact apart_put ht (fun _ => rfl) (apart_createInitTreeNode codePos)
  | some c =>
    obtain ⟨hleaf, hc⟩ := apart_child ht h
    exact apart_put ht (fun he => hleaf ((name_of_child h).symm.trans he)) hc

theorem weightAt_emplaceChild (comb : Text) (codePos : CodePos) (locks : Counter Text) (parentIter : CexTree)
    (q : List Text) :
    weightAt (CexNode.count comb) q (emplaceChild codePos locks parentIter) =
      weightAt (CexNode.count comb) q parentIter + if q = [toTreeNodeID codePos] then locks.count comb else 0 := by
  have hname : (addLocks locks (childOf codePos parentIter)).name = toTreeNodeID codePos := name_childOf codePos parentIter
  exact weightAt_put_childOf hname (weightAt_addLocks comb locks _) q

theorem total_emplaceChild (codePos : CodePos) (locks : Counter Text) (parentIter : CexTree) :
    (emplaceChild codePos locks parentIter).total CexNode.total = parentIter.total CexNode.total + locks.total := by
  have hname : (addLocks locks (childOf codePos parentIter)).name = toTreeNodeID codePos := name_childOf codePos parentIter
  exact total_put_childOf hname (total_addLocks locks _)

/-- What the loop does to the parent it has found. -/
def below (locks : Counter Text) (child : CodePos) (rest : List CodePos) (parentIter : CexTree) : CexTree :=
  insertTrace locks (child :: rest) (emplaceChild child (if rest.isEmpty then locks else .empty) parentIter)

theorem insertTrace_found {parent child : CodePos} {rest : List CodePos} {path : List Text}
    (h : treeIter.find (toTreeNodeID parent) = some path) :
    insertTrace locks (parent :: child :: rest) treeIter = treeIter.modifyAt (below locks child rest) path := by
  rw [insertTrace, findTree, h]
  rfl

theorem insertTrace_new {parent child : CodePos} {rest : List CodePos}
    (h : treeIter.find (toTreeNodeID parent) = none) :
    insertTrace locks (parent :: child :: rest) treeIter =
      treeIter.put (below locks child rest (createInitTreeNode parent)) := by
  rw [insertTrace, findTree, h]
  rfl

/-- The nodes stay apart, and the node that the loop starts from keeps its name. -/
theorem apart_insertTrace (locks : Counter Text) (trace : List CodePos) (ht : treeIter.Apart) :
    (insertTrace locks trace treeIter).Apart ∧ (insertTrace locks trace treeIter).name = treeIter.name := by
  induction trace generalizing treeIter with
  | nil => exact ⟨ht, rfl⟩
  | cons parent trace ih =>
    cases trace with
    | nil => exact ⟨ht, rfl⟩
    | cons child rest =>
      have hbelow (t : CexTree) (h : t.Apart) :
          (below locks child rest t).Apart ∧ (below locks child rest t).name = t.name :=
        ih (apart_emplaceChild h child _)
      cases hfind : treeIter.find (toTreeNodeID parent) with
      | none =>
        obtain ⟨hnew, hname⟩ := hbelow _ (apart_createInitTreeNode parent)
        rw [insertTrace_new hfind]
        exact ⟨apart_put ht (fun he => absurd (he.symm.trans hname) (find_none hfind).1) hnew, rfl⟩
      | some path =>
        obtain ⟨n, hat, hn, hfirst⟩ := find_spec ht hfind
        obtain ⟨hnew, hname⟩ := hbelow n (apart_at? ht hat)
        rw [insertTrace_found hfind]
        exact ⟨apart_modifyAt ht hat (hn ▸ hfirst) hname hnew, name_modifyAt hat hname⟩

/-- The node that the loop takes for the parent. -/
def parentOf (parent : CodePos) (treeIter : CexTree) : CexTree :=
  ((findTree treeIter (toTreeNodeID parent)).bind fun path => at? path treeIter).getD (createInitTreeNode parent)

/-- The path on which a trace ends up. -/
def landing : List CodePos → CexTree → List Text
  | parent :: child :: rest, treeIter =>
    (findTree treeIter (toTreeNodeID parent)).getD [toTreeNodeID parent] ++
      landing (child :: rest) (emplaceChild child .empty (parentOf parent treeIter))
  | trace, _ => trace.map toTreeNodeID

/-- Every search finds nothing, or a child of the node it starts from. -/
def Straight : List CodePos → CexTree → Prop
  | parent :: child :: rest, treeIter =>
    (findTree treeIter (toTreeNodeID parent) = none ∨
      findTree treeIter (toTreeNodeID parent) = some [toTreeNodeID parent]) ∧
      Straight (child :: rest) (emplaceChild child .empty (childOf parent treeIter))
  | _, _ => True

theorem apart_parentOf (ht : treeIter.Apart) (parent : CodePos) : (parentOf parent treeIter).Apart := by
  unfold parentOf findTree
  cases hfind : treeIter.find (toTreeNodeID parent) with
  | none => exact apart_createInitTreeNode parent
  | some path =>
    obtain ⟨n, hat, -, -⟩ := find_spec ht hfind
    rw [Option.bind_some, hat]
    exact apart_at? ht hat

theorem name_parentOf (ht : treeIter.Apart) (parent : CodePos) :
    (parentOf parent treeIter).name = toTreeNodeID parent := by
  unfold parentOf findTree
  cases hfind : treeIter.find (toTreeNodeID parent) with
  | none => rfl
  | some path =>
    obtain ⟨n, hat, hname, -⟩ := find_spec ht hfind
    rw [Option.bind_some, hat]
    exact hname

/-- What a straight search takes for the parent is the child of that name. -/
theorem parentOf_straight {parent : CodePos} (ht : treeIter.Apart)
    (h : findTree treeIter (toTreeNodeID parent) = none ∨
      findTree treeIter (toTreeNodeID parent) = some [toTreeNodeID parent]) :
    parentOf parent treeIter = childOf parent treeIter := by
  unfold parentOf childOf
  cases h with
  | inl hnone =>
    rw [hnone, (find_none hnone).2]
    rfl
  | inr hsome =>
    obtain ⟨n, hat, -, -⟩ := find_spec ht hsome
    obtain ⟨c, hc, hn⟩ := Option.bind_eq_some_iff.mp hat
    cases hn
    rw [hsome, Option.bind_some, hat, hc]

/-- One pair of elements: the parent is a new child, or the node at the end of the path found. -/
theorem insertTrace_cases (ht : treeIter.Apart) (locks : Counter Text) (parent child : CodePos) (rest : List CodePos) :
    (findTree treeIter (toTreeNodeID parent) = none ∧ childOf parent treeIter = parentOf parent treeIter ∧
      insertTrace locks (parent :: child :: rest) treeIter =
        treeIter.put (below locks child rest (parentOf parent treeIter))) ∨
    ∃ path, findTree treeIter (toTreeNodeID parent) = some path ∧ treeIter.at? path = some (parentOf parent treeIter) ∧
      insertTrace locks (parent :: child :: rest) treeIter = treeIter.modifyAt (below locks child rest) path := by
  unfold parentOf findTree
  cases hfind : treeIter.find (toTreeNodeID parent) with
  | none =>
    refine .inl ⟨rfl, ?_, insertTrace_new hfind⟩
    rw [childOf, (find_none hfind).2]
    rfl
  | some path =>
    obtain ⟨n, hat, -, -⟩ := find_spec ht hfind
    refine .inr ⟨path, rfl, ?_, insertTrace_found hfind⟩
    rw [Option.bind_some, hat]
    rfl

theorem name_below (ht : treeIter.Apart) (locks : Counter Text) (child : CodePos) (rest : List CodePos) :
    (below locks child rest treeIter).name = treeIter.name :=
  (apart_insertTrace locks (child :: rest) (apart_emplaceChild ht child _)).2

section

variable (comb : Text) (locks : Counter Text)

/-- What the rest of the loop adds below the parent is added below its path. -/
theorem weightAt_step {parent child : CodePos} {rest : List CodePos} {l : List Text} {x : Nat} (ht : treeIter.Apart)
    (h : ∀ q, weightAt (CexNode.count comb) q (below locks child rest (parentOf parent treeIter)) =
      weightAt (CexNode.count comb) q (parentOf parent treeIter) + if q = l then x else 0) (q : List Text) :
    weightAt (CexNode.count comb) q (insertTrace locks (parent :: child :: rest) treeIter) =
      weightAt (CexNode.count comb) q treeIter +
        if q = (findTree treeIter (toTreeNodeID parent)).getD [toTreeNodeID parent] ++ l then x else 0 := by
  have hname := name_below (apart_parentOf ht parent) locks child rest
  cases insertTrace_cases ht locks parent child rest with
  | inl hnew =>
    obtain ⟨hfind, hchild, hins⟩ := hnew
    rw [hins, hfind]
    exact weightAt_put_childOf (hname.trans (name_parentOf ht parent)) (hchild ▸ h) q
  | inr hfound =>
    obtain ⟨path, hfind, hat, hins⟩ := hfound
    rw [hins, hfind]
    exact weightAt_modifyAt hat hname h q

theorem total_step {parent child : CodePos} {rest : List CodePos} {x : Nat} (ht : treeIter.Apart)
    (h : (below locks child rest (parentOf parent treeIter)).total CexNode.total =
      (parentOf parent treeIter).total CexNode.total + x) :
    (insertTrace locks (parent :: child :: rest) treeIter).total CexNode.total = treeIter.total CexNode.total + x := by
  have hname := name_below (apart_parentOf ht parent) locks child rest
  cases insertTrace_cases ht locks parent child rest with
  | inl hnew =>
    obtain ⟨-, hchild, hins⟩ := hnew
    rw [hins]
    exact total_put_childOf (hname.trans (name_parentOf ht parent)) (hchild ▸ h)
  | inr hfound =>
    obtain ⟨path, -, hat, hins⟩ := hfound
    rw [hins]
    exact total_modifyAt hat hname h

/-- A line of at least two frames adds its counts at the end of its landing path. -/
theorem weightAt_insertTrace (parent child : CodePos) (rest : List CodePos) (ht : treeIter.Apart) (q : List Text) :
    weightAt (CexNode.count comb) q (insertTrace locks (parent :: child :: rest) treeIter) =
      weightAt (CexNode.count comb) q treeIter +
        if q = landing (parent :: child :: rest) treeIter then locks.count comb else 0 := by
  induction rest generalizing parent child treeIter q with
  | nil =>
    refine weightAt_step comb locks ht (fun q => ?_) q
    exact weightAt_emplaceChild comb child locks _ q
  | cons next rest ih =>
    refine weightAt_step comb locks ht (fun q => ?_) q
    have hbelow := ih child next (apart_emplaceChild (apart_parentOf ht parent) child .empty) q
    rw [weightAt_emplaceChild, show (Counter.empty : Counter Text).count comb = 0 from rfl, ite_self] at hbelow
    exact hbelow

theorem total_insertTrace (parent child : CodePos) (rest : List CodePos) (ht : treeIter.Apart) :
    (insertTrace locks (parent :: child :: rest) treeIter).total CexNode.total =
      treeIter.total CexNode.total + locks.total := by
  induction rest generalizing parent child treeIter with
  | nil => exact total_step locks ht (total_emplaceChild child locks _)
  | cons next rest ih =>
    refine total_step locks ht ?_
    have hbelow := ih child next (apart_emplaceChild (apart_parentOf ht parent) child .empty)
    rw [total_emplaceChild, show (Counter.empty : Counter Text).total = 0 from rfl] at hbelow
    exact hbelow

end

/-- Frames with another name than the node before them never lead to a shorter path, and to one of
the same length only by straight searches. -/
theorem landing_length (parent : CodePos) (rest : List CodePos) (ht : treeIter.Apart)
    (hchain : (treeIter.name :: (parent :: rest).map toTreeNodeID).dropLast.IsChain (· ≠ ·)) :
    (parent :: rest).length ≤ (landing (parent :: rest) treeIter).length ∧
      ((landing (parent :: rest) treeIter).length = (parent :: rest).length → Straight (parent :: rest) treeIter) := by
  induction rest generalizing parent treeIter with
  | nil => exact ⟨Nat.le_refl 1, fun _ => trivial⟩
  | cons child rest ih =>
    have hchild := apart_emplaceChild (apart_parentOf ht parent) child .empty
    rw [List.map_cons, List.map_cons, List.dropLast_cons_of_ne_nil (List.cons_ne_nil _ _),
      List.dropLast_cons_of_ne_nil (List.cons_ne_nil _ _), List.isChain_cons_cons] at hchain
    obtain ⟨hne, hchain⟩ := hchain
    rw [← List.dropLast_cons_of_ne_nil (List.cons_ne_nil _ _), ← List.map_cons, ← name_parentOf ht parent,
      ← name_emplaceChild child .empty] at hchain
    obtain ⟨hle, hstraight⟩ := ih child hchild hchain
    rw [landing, List.length_append]
    simp only [List.length_cons] at hle hstraight ⊢
    cases hfind : findTree treeIter (toTreeNodeID parent) with
    | none =>
      rw [Option.getD_none, List.length_singleton]
      refine ⟨by omega, fun h => ?_⟩
      rw [Straight, ← parentOf_straight ht (.inl hfind)]
      exact ⟨.inl hfind, hstraight (by omega)⟩
    | some path =>
      rw [Option.getD_some]
      cases path with
      | nil => exact absurd (find_nil ht hfind) hne
      | cons a path =>
        rw [List.length_cons]
        refine ⟨by omega, fun h => ?_⟩
        have hnil : path = [] := List.eq_nil_of_length_eq_zero (by omega)
        rw [hnil] at hfind h
        rw [find_singleton ht hfind] at hfind
        rw [Straight, ← parentOf_straight ht (.inr hfind)]
        exact ⟨.inr hfind, hstraight (by simp at h; omega)⟩

theorem landing_straight (parent : CodePos) (rest : List CodePos) (ht : treeIter.Apart)
    (h : Straight (parent :: rest) treeIter) : landing (parent :: rest) treeIter = (parent :: rest).map toTreeNodeID := by
  induction rest generalizing parent treeIter with
  | nil => rfl
  | cons child rest ih =>
    obtain ⟨hfind, hrest⟩ := h
    have hparent := parentOf_straight ht hfind
    have hchild : (emplaceChild child .empty (childOf parent treeIter)).Apart :=
      hparent ▸ apart_emplaceChild (apart_parentOf ht parent) child .empty
    rw [landing, hparent, ih child hchild hrest]
    cases hfind with
    | inl hnone =>
      rw [hnone]
      rfl
    | inr hsome =>
      rw [hsome]
      rfl

end LockDoc.Processing
