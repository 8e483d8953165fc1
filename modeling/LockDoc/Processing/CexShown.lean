import LockDoc.Processing.CexPaths

/-!
# What a counterexample tree shows

`Shows` is what the tree of a group is for: every line stands under its own call path, and the
counts at a node are those of the lines with that path. The tree has this exactly when every
line is in place: two frames at least, no combination twice, and straight searches.
-/
namespace LockDoc.Processing

open NamedTree

namespace CexLine

/-- The call path of a line, outermost frame first. -/
def path (line : CexLine) : List Text := line.traceElems.map toTreeNodeID

def count (comb : Text) (line : CexLine) : Nat := sumUnder comb line.locksHeld

def total (line : CexLine) : Nat := (line.locksHeld.map Prod.snd).sum

end CexLine

/-- The tree contains every trace as a path from the root, a count is the sum over the lines
with the path, and the counts add up to those of the input. -/
structure Shows (group : List CexLine) (tree : CexTree) : Prop where
  paths : ∀ line ∈ group, (tree.at? line.path).isSome
  counts : ∀ q comb, tree.weightAt (CexNode.count comb) q =
    (group.map fun line => if line.path = q then line.count comb else 0).sum
  total : tree.total CexNode.total = (group.map CexLine.total).sum

/-- A trace entered child by child. -/
def plant (locks : Counter Text) : List CodePos → CexTree → CexTree
  | [], node => addLocks locks node
  | codePos :: rest, node => node.put (plant locks rest (childOf codePos node))

/-- What a line needs in the tree of the own paths of the lines before it. -/
structure CexLine.InPlace (line : CexLine) (tree : CexTree) : Prop where
  frames : 2 ≤ line.stacktrace.length
  once : (line.locksHeld.map Prod.fst).Nodup
  straight : Straight line.traceElems tree

def CexLine.plant (tree : CexTree) (line : CexLine) : CexTree := Processing.plant line.locks line.traceElems tree

/-- Every line of a group is in place. -/
def AllInPlace : List CexLine → CexTree → Prop
  | [], _ => True
  | line :: group, tree => line.InPlace tree ∧ AllInPlace group (line.plant tree)

section

variable {treeIter : CexTree}

theorem name_plant (locks : Counter Text) (trace : List CodePos) (node : CexTree) :
    (plant locks trace node).name = node.name := by
  cases trace with
  | nil => rfl
  | cons codePos rest => rfl

/-- An empty child is there in a planted trace anyway. -/
theorem plant_emplaceChild (locks : Counter Text) (child : CodePos) (rest : List CodePos) (parentIter : CexTree) :
    plant locks (child :: rest) (emplaceChild child .empty parentIter) = plant locks (child :: rest) parentIter := by
  have hname := name_childOf child parentIter
  have hchild : childOf child (emplaceChild child .empty parentIter) = childOf child parentIter := by
    rw [childOf, emplaceChild, child_put, name_addLocks, if_pos hname]
    rfl
  rw [plant, plant, hchild]
  exact put_put parentIter (hname.trans ((name_plant _ _ _).trans hname).symm)

/-- A straight search changes a child of the node it starts from. -/
theorem insertTrace_put {locks : Counter Text} {parent child : CodePos} {rest : List CodePos} (ht : treeIter.Apart)
    (h : findTree treeIter (toTreeNodeID parent) = none ∨
      findTree treeIter (toTreeNodeID parent) = some [toTreeNodeID parent]) :
    insertTrace locks (parent :: child :: rest) treeIter =
      treeIter.put (below locks child rest (childOf parent treeIter)) := by
  have hparent := parentOf_straight ht h
  cases insertTrace_cases ht locks parent child rest with
  | inl hnew =>
    rw [hnew.2.2, hparent]
  | inr hfound =>
    obtain ⟨path, hfind, hat, hins⟩ := hfound
    have hpath : path = [toTreeNodeID parent] := by
      rw [hfind] at h
      exact Option.some.inj (h.resolve_left (Option.some_ne_none path))
    subst hpath
    obtain ⟨c, hc, hn⟩ := Option.bind_eq_some_iff.mp hat
    cases hn
    rw [hins, modifyAt, hc, ← hparent]
    rfl

/-- Straight searches enter a trace child by child. -/
theorem insertTrace_straight (locks : Counter Text) (parent child : CodePos) (rest : List CodePos)
    (ht : treeIter.Apart) (h : Straight (parent :: child :: rest) treeIter) :
    insertTrace locks (parent :: child :: rest) treeIter = plant locks (parent :: child :: rest) treeIter := by
  induction rest generalizing parent child treeIter with
  | nil =>
    rw [insertTrace_put ht h.1]
    rfl
  | cons next rest ih =>
    obtain ⟨hfind, hrest⟩ := h
    have hparent : (childOf parent treeIter).Apart := parentOf_straight ht hfind ▸ apart_parentOf ht parent
    have hbelow := ih child next (apart_emplaceChild hparent child .empty) hrest
    rw [plant_emplaceChild] at hbelow
    rw [insertTrace_put ht hfind]
    exact congrArg (NamedTree.put treeIter) hbelow

/-- A planted trace is there, and nothing that was there is gone. -/
theorem at?_plant (locks : Counter Text) (trace : List CodePos) (node : CexTree) :
    ((plant locks trace node).at? (trace.map toTreeNodeID)).isSome := by
  induction trace generalizing node with
  | nil => rfl
  | cons codePos rest ih =>
    rw [plant, List.map_cons, at?_put, name_plant, name_childOf, if_pos rfl]
    exact ih _

theorem at?_addLocks (locks : Counter Text) (node : CexTree) (q : List Text) :
    ((addLocks locks node).at? q).isSome = (node.at? q).isSome := by
  cases q with
  | nil => rfl
  | cons a q => rfl

theorem at?_plant_kept (locks : Counter Text) (trace : List CodePos) {node : CexTree} {q : List Text}
    (h : (node.at? q).isSome) : ((plant locks trace node).at? q).isSome := by
  induction trace generalizing node q with
  | nil => rwa [plant, at?_addLocks]
  | cons codePos rest ih =>
    cases q with
    | nil => rfl
    | cons a q =>
      rw [plant, at?_put, name_plant, name_childOf]
      split
      · rename_i ha
        refine ih ?_
        subst ha
        rw [at?] at h
        unfold childOf
        cases hc : node.child (toTreeNodeID codePos) with
        | none =>
          rw [hc] at h
          cases h
        | some c =>
          rw [hc] at h
          exact h
      · exact h

end

section

variable {group : List CexLine} {tree : CexTree}

/-- Every line with the path on which it ends up. -/
def landings : List CexLine → CexTree → List (CexLine × List Text)
  | [], _ => []
  | line :: group, tree => (line, landing line.traceElems tree) :: landings group (line.insert tree)

theorem map_fst_landings (group : List CexLine) (tree : CexTree) : (landings group tree).map Prod.fst = group := by
  induction group generalizing tree with
  | nil => rfl
  | cons line group ih => rw [landings, List.map_cons, ih]

theorem mem_of_landings {x : CexLine × List Text} (h : x ∈ landings group tree) : x.1 ∈ group := by
  rw [← map_fst_landings group tree]
  exact List.mem_map_of_mem h

/-- A trace of at least two frames begins with two. -/
theorem CexLine.traceElems_cons {line : CexLine} (h : 2 ≤ line.stacktrace.length) :
    ∃ parent child rest, line.traceElems = parent :: child :: rest := by
  rw [← List.length_reverse] at h
  unfold CexLine.traceElems
  match line.stacktrace.reverse, h with
  | parent :: child :: rest, _ => exact ⟨parent, child, rest, rfl⟩

/-- A trace of one frame leaves the tree as it is. -/
theorem CexLine.insert_single {line : CexLine} (h : ¬2 ≤ line.stacktrace.length) : line.insert tree = tree := by
  rw [← List.length_reverse] at h
  unfold CexLine.insert CexLine.traceElems
  match line.stacktrace.reverse, h with
  | [], _ => rfl
  | [codePos], _ => rfl
  | parent :: child :: rest, h => exact absurd (Nat.le_add_left 2 rest.length) h

theorem apart_insert (ht : tree.Apart) (line : CexLine) :
    (line.insert tree).Apart ∧ (line.insert tree).name = tree.name :=
  apart_insertTrace line.locks line.traceElems ht

theorem apart_group (ht : tree.Apart) (group : List CexLine) :
    (group.foldl CexLine.insert tree).Apart ∧ (group.foldl CexLine.insert tree).name = tree.name := by
  induction group generalizing tree with
  | nil => exact ⟨ht, rfl⟩
  | cons line group ih =>
    obtain ⟨hline, hname⟩ := apart_insert ht line
    obtain ⟨hgroup, hroot⟩ := ih hline
    exact ⟨hgroup, hroot.trans hname⟩

/-- The counts in the tree are those of the lines that have at least two frames. -/
theorem total_group (ht : tree.Apart) (group : List CexLine) :
    (group.foldl CexLine.insert tree).total CexNode.total = tree.total CexNode.total +
      (group.map fun line => if 2 ≤ line.stacktrace.length then line.locks.total else 0).sum := by
  induction group generalizing tree with
  | nil => rfl
  | cons line group ih =>
    rw [List.foldl_cons, ih (apart_insert ht line).1, List.map_cons, List.sum_cons]
    split
    · rename_i hlen
      obtain ⟨parent, child, rest, htrace⟩ := CexLine.traceElems_cons hlen
      rw [CexLine.insert, htrace, total_insertTrace line.locks parent child rest ht]
      omega
    · rename_i hlen
      rw [CexLine.insert_single hlen]
      omega

/-- The counts of a node are those of the lines that land there. -/
theorem weightAt_group (ht : tree.Apart) (hlen : ∀ line ∈ group, 2 ≤ line.stacktrace.length) (comb : Text)
    (q : List Text) :
    (group.foldl CexLine.insert tree).weightAt (CexNode.count comb) q = tree.weightAt (CexNode.count comb) q +
      ((landings group tree).map fun x => if x.2 = q then x.1.locks.count comb else 0).sum := by
  induction group generalizing tree with
  | nil => rfl
  | cons line group ih =>
    obtain ⟨parent, child, rest, htrace⟩ := CexLine.traceElems_cons (hlen line List.mem_cons_self)
    rw [List.foldl_cons, ih (apart_insert ht line).1 fun l hl => hlen l (List.mem_cons_of_mem _ hl), landings,
      List.map_cons, List.sum_cons, CexLine.insert, htrace, weightAt_insertTrace comb line.locks parent child rest ht q,
      ← htrace]
    simp only [eq_comm (a := q)]
    omega

/-- A line in place is planted, and lands on its own path. -/
theorem CexLine.InPlace.landing {line : CexLine} (h : line.InPlace tree) (ht : tree.Apart) :
    line.insert tree = line.plant tree ∧ Processing.landing line.traceElems tree = line.path := by
  obtain ⟨parent, child, rest, htrace⟩ := CexLine.traceElems_cons h.frames
  have hstraight := h.straight
  rw [htrace] at hstraight
  rw [CexLine.insert, CexLine.plant, CexLine.path, htrace]
  exact ⟨insertTrace_straight line.locks parent child rest ht hstraight, landing_straight parent _ ht hstraight⟩

theorem allInPlace_plant (ht : tree.Apart) (h : AllInPlace group tree) :
    group.foldl CexLine.insert tree = group.foldl CexLine.plant tree := by
  induction group generalizing tree with
  | nil => rfl
  | cons line group ih =>
    obtain ⟨hline, hgroup⟩ := h
    have hins := (hline.landing ht).1
    have happart := (apart_insert ht line).1
    rw [hins] at happart
    rw [List.foldl_cons, List.foldl_cons, hins, ih happart hgroup]

theorem allInPlace_landings (ht : tree.Apart) (h : AllInPlace group tree) :
    ∀ x ∈ landings group tree, x.2 = x.1.path := by
  induction group generalizing tree with
  | nil => simp [landings]
  | cons line group ih =>
    obtain ⟨hline, hgroup⟩ := h
    obtain ⟨hins, hland⟩ := hline.landing ht
    rw [← hins] at hgroup
    rw [landings]
    intro x hx
    cases hx with
    | head => exact hland
    | tail _ hx => exact ih (apart_insert ht line).1 hgroup x hx

theorem allInPlace_lines (h : AllInPlace group tree) :
    ∀ line ∈ group, 2 ≤ line.stacktrace.length ∧ (line.locksHeld.map Prod.fst).Nodup := by
  induction group generalizing tree with
  | nil => simp
  | cons line group ih =>
    obtain ⟨hline, hgroup⟩ := h
    intro l hl
    cases hl with
    | head => exact ⟨hline.frames, hline.once⟩
    | tail _ hl => exact ih hgroup l hl

/-- Planting a group keeps every path. -/
theorem at?_foldl_plant {q : List Text} (h : (tree.at? q).isSome) :
    ((group.foldl CexLine.plant tree).at? q).isSome := by
  induction group generalizing tree with
  | nil => exact h
  | cons line group ih => exact ih (at?_plant_kept line.locks line.traceElems h)

theorem at?_path {line : CexLine} (h : line ∈ group) : ((group.foldl CexLine.plant tree).at? line.path).isSome := by
  induction group generalizing tree with
  | nil => cases h
  | cons l group ih =>
    cases h with
    | head =>
      have hnew : ((line.plant tree).at? line.path).isSome := at?_plant line.locks line.traceElems tree
      rw [List.foldl_cons]
      exact at?_foldl_plant hnew
    | tail _ h => exact ih h

/-- No line lands on a shorter path than its own, and on one of the same length only on its own. -/
theorem landings_length (ht : tree.Apart) (hlen : ∀ line ∈ group, 2 ≤ line.stacktrace.length)
    (hchain : ∀ line ∈ group, (tree.name :: line.path).dropLast.IsChain (· ≠ ·)) :
    ∀ x ∈ landings group tree, x.1.path.length ≤ x.2.length ∧ (x.1.path.length = x.2.length → x.1.path = x.2) := by
  induction group generalizing tree with
  | nil => simp [landings]
  | cons line group ih =>
    rw [landings]
    intro x hx
    cases hx with
    | head =>
      obtain ⟨parent, child, rest, htrace⟩ := CexLine.traceElems_cons (hlen line List.mem_cons_self)
      have hfree := hchain line List.mem_cons_self
      rw [CexLine.path, htrace] at hfree
      obtain ⟨hle, hstraight⟩ := landing_length parent (child :: rest) ht hfree
      rw [CexLine.path, htrace, List.length_map]
      exact ⟨hle, fun he => (landing_straight parent (child :: rest) ht (hstraight he.symm)).symm⟩
    | tail _ hx =>
      obtain ⟨happart, hname⟩ := apart_insert ht line
      exact ih happart (fun l hl => hlen l (List.mem_cons_of_mem _ hl))
        (fun l hl => hname.symm ▸ hchain l (List.mem_cons_of_mem _ hl)) x hx

/-- Lines that land on their own paths are in place. -/
theorem allInPlace_of_landings (ht : tree.Apart)
    (hlines : ∀ line ∈ group, 2 ≤ line.stacktrace.length ∧ (line.locksHeld.map Prod.fst).Nodup)
    (hchain : ∀ line ∈ group, (tree.name :: line.path).dropLast.IsChain (· ≠ ·))
    (h : ∀ x ∈ landings group tree, x.2 = x.1.path) : AllInPlace group tree := by
  induction group generalizing tree with
  | nil => trivial
  | cons line group ih =>
    obtain ⟨hframes, honce⟩ := hlines line List.mem_cons_self
    obtain ⟨parent, child, rest, htrace⟩ := CexLine.traceElems_cons hframes
    have hpath := h _ List.mem_cons_self
    have hstraight : Straight line.traceElems tree := by
      have hlength := congrArg List.length hpath
      have hfree := hchain line List.mem_cons_self
      rw [CexLine.path, htrace] at hfree
      rw [CexLine.path, htrace, List.length_map] at hlength
      rw [htrace]
      exact (landing_length parent (child :: rest) ht hfree).2 hlength
    have hline : line.InPlace tree := ⟨hframes, honce, hstraight⟩
    obtain ⟨happart, hname⟩ := apart_insert ht line
    have hgroup := ih happart (fun l hl => hlines l (List.mem_cons_of_mem _ hl))
      (fun l hl => hname.symm ▸ hchain l (List.mem_cons_of_mem _ hl)) fun x hx => h x (List.mem_cons_of_mem _ hx)
    rw [(hline.landing ht).1] at hgroup
    exact ⟨hline, hgroup⟩

end

theorem apart_newTree : newTree.Apart := trivial

theorem weightAt_newTree (comb : Text) (q : List Text) : newTree.weightAt (CexNode.count comb) q = 0 := by
  cases q with
  | nil => rfl
  | cons a q => rfl

/-- Under a line with no combination twice, the dictionary has the counts of the line. -/
theorem CexLine.count_locks {line : CexLine} (h : (line.locksHeld.map Prod.fst).Nodup) (comb : Text) :
    line.locks.count comb = line.count comb := Counter.count_ofList h comb

/-- When the counts add up, every line has two frames and no combination twice. -/
theorem Shows.lines {group : List CexLine} (h : Shows group (groupTree group)) :
    ∀ line ∈ group, 2 ≤ line.stacktrace.length ∧ (line.locksHeld.map Prod.fst).Nodup := by
  have htotal := h.total
  rw [groupTree, total_group apart_newTree] at htotal
  have hsum : (group.map fun line => if 2 ≤ line.stacktrace.length then line.locks.total else 0).sum =
      (group.map CexLine.total).sum := (Nat.zero_add _).symm.trans htotal
  have hle : ∀ line ∈ group, (if 2 ≤ line.stacktrace.length then line.locks.total else 0) ≤ line.total := by
    intro line _
    split
    · exact Counter.total_ofList_le line.locksHeld
    · exact Nat.zero_le _
  intro line hline
  have heq := Counter.eq_of_sum_eq hle hsum line hline
  split at heq
  · rename_i hlen
    exact ⟨hlen, (Counter.total_ofList_iff line.positive).mp heq⟩
  · obtain ⟨e, he⟩ := List.exists_mem_of_ne_nil _ line.counted
    have hpos := line.positive e he
    have hmem := List.le_sum_of_mem (List.mem_map_of_mem he : e.2 ∈ line.locksHeld.map Prod.snd)
    rw [CexLine.total] at heq
    omega

/-- A path of the tree is free of inner frames that follow one of their own name. -/
theorem Shows.chain {group : List CexLine} (h : Shows group (groupTree group)) :
    ∀ line ∈ group, (newTree.name :: line.path).dropLast.IsChain (· ≠ ·) := by
  intro line hline
  obtain ⟨n, hat⟩ := Option.isSome_iff_exists.mp (h.paths line hline)
  obtain ⟨happart, hname⟩ := apart_group apart_newTree group
  rw [← hname]
  exact chain_of_at? happart hat

theorem CexLine.exists_count_pos (line : CexLine) : ∃ comb, 0 < line.count comb := by
  obtain ⟨e, he⟩ := List.exists_mem_of_ne_nil _ line.counted
  have hmem := List.le_sum_of_mem (List.mem_map_of_mem (f := fun e' => if e'.1 = e.1 then e'.2 else 0) he)
  rw [if_pos rfl] at hmem
  exact ⟨e.1, Nat.lt_of_lt_of_le (line.positive e he) hmem⟩

/-- The counts of a node when every line has two frames and no combination twice. -/
theorem weightAt_groupTree {group : List CexLine}
    (hlines : ∀ line ∈ group, 2 ≤ line.stacktrace.length ∧ (line.locksHeld.map Prod.fst).Nodup) (q : List Text)
    (comb : Text) : (groupTree group).weightAt (CexNode.count comb) q =
      ((landings group newTree).map fun x => if x.2 = q then x.1.count comb else 0).sum := by
  rw [groupTree, weightAt_group apart_newTree fun line hline => (hlines line hline).1, weightAt_newTree, Nat.zero_add]
  refine congrArg List.sum (List.map_congr_left fun x hx => ?_)
  rw [CexLine.count_locks (hlines x.1 (mem_of_landings hx)).2]

/-- A sum over the lines, taken over their landings. -/
theorem sum_landings (f : CexLine → Nat) (group : List CexLine) (tree : CexTree) :
    ((landings group tree).map fun x => f x.1).sum = (group.map f).sum := by
  conv_rhs => rw [← map_fst_landings group tree, List.map_map]
  rfl

/-- The tree of a group shows the group exactly when every line is in place. -/
theorem shows_iff (group : List CexLine) : Shows group (groupTree group) ↔ AllInPlace group newTree := by
  constructor
  · intro h
    have hlines := h.lines
    have hchain := h.chain
    have hlabels := Counter.labels_eq (landings group newTree) (fun x => x.1.path) (fun x => x.2)
      (fun comb x => x.1.count comb) List.length
      (landings_length apart_newTree (fun line hline => (hlines line hline).1) hchain)
      (fun x _ => x.1.exists_count_pos) fun q comb => by
        rw [← weightAt_groupTree hlines, h.counts,
          ← sum_landings (fun line => if line.path = q then line.count comb else 0) group newTree]
    exact allInPlace_of_landings apart_newTree hlines hchain fun x hx => (hlabels x hx).symm
  · intro h
    have hlines := allInPlace_lines h
    have hlandings := allInPlace_landings apart_newTree h
    constructor
    · intro line hline
      rw [groupTree, allInPlace_plant apart_newTree h]
      exact at?_path hline
    · intro q comb
      rw [weightAt_groupTree hlines, ← sum_landings _ group newTree]
      refine congrArg List.sum (List.map_congr_left fun x hx => ?_)
      rw [hlandings x hx]
    · rw [groupTree, total_group apart_newTree]
      refine (Nat.zero_add _).trans (congrArg List.sum (List.map_congr_left fun line hline => ?_))
      rw [if_pos (hlines line hline).1]
      exact (Counter.total_ofList_iff line.positive).mpr (hlines line hline).2

section

/-- A position on its first line. -/
def frameOf (fn : String) : CodePos := ⟨"0xc0de".toList, fn.toList, "fs/inode.c".toList, "1".toList⟩

/-- One access without locks on the way through some functions, innermost first. -/
def lineOf (fn : String) (callers : List String) : CexLine where
  locksHeld := [("nolocks".toList, 1)]
  stacktrace := frameOf fn :: callers.map frameOf
  counted := List.cons_ne_nil _ _
  positive := by simp
  framed := List.cons_ne_nil _ _

/-- A trace that begins with an inner frame of the line before is entered below that frame. -/
theorem not_shows_innerFrame : ¬Shows [lineOf "iget" ["open", "entry"], lineOf "iput" ["open"]]
    (groupTree [lineOf "iget" ["open", "entry"], lineOf "iput" ["open"]]) := by
  intro h
  have hpath := h.paths (lineOf "iput" ["open"]) (List.mem_cons_of_mem _ List.mem_cons_self)
  revert hpath
  decide +kernel

end

end LockDoc.Processing
