import LockDoc.Lib.Greedy

/-!
# Climbing coverage

`coverage-climber.sh` puts benchmarks into an order: the one whose map has the most basic blocks
comes first, its blocks are taken out of all other maps, and what has no block left is dropped. The
benchmarks that remain cover everything, and the order is a greedy one. As the script asks, the maps
are sorted; `comm` and `join` refuse others.
-/
namespace LockDoc.Coverage

/-- A map file: its path below the directory, and the basic blocks, one a line. -/
structure MapFile (ν α : Type) where
  name : ν
  lines : List α
  deriving DecidableEq, Repr

/-- A line of the output. -/
structure Climbed (ν : Type) where
  name : ν
  bbCount : Nat
  total : Nat
  deriving DecidableEq, Repr

/-- The lines are in order, and no two of them are equal. -/
def SortedLines {α : Type} [LinearOrder α] (lines : List α) : Prop := lines.Pairwise (· < ·)

instance {α : Type} [LinearOrder α] (lines : List α) : Decidable (SortedLines lines) :=
  inferInstanceAs (Decidable (lines.Pairwise (· < ·)))

variable {ν α : Type} [LinearOrder ν] [LinearOrder α]

/-- `set-intersect`, two files: `join` goes through both files at once and prints every pair of
equal lines. -/
def setIntersect : List α → List α → List α
  | [], _ => []
  | line :: file1, file2 =>
    let file2 := file2.dropWhile (· < line)
    file2.takeWhile (· = line) ++ setIntersect file1 file2

/-- `set-minus`: `comm -23` goes through both files at once and prints the lines of the first file
without a partner in the second. -/
def setMinus : List α → List α → List α
  | [], _ => []
  | line :: file1, file2 =>
    let file2 := file2.dropWhile (· < line)
    if file2.head? = some line then setMinus file1 file2.tail else line :: setMinus file1 file2

/-- One call of `wc -l`, `sort -rn`, and the line after that of the total: the longest file, of
equally long ones the one whose name is sorted last. -/
def top (files : List (MapFile ν α)) : Option (MapFile ν α) :=
  List.argmax (fun f => toLex (f.lines.length, f.name)) files

/-- The loop, with a bound on its rounds; the names in the drop file come second. -/
def climb : Nat → Nat → List (MapFile ν α) → Option (List (Climbed ν) × List ν)
  | 0, _, files => if files.isEmpty then some ([], []) else none
  | n + 1, total, files =>
    match top files with
    | none => some ([], [])
    | some best =>
      let total := total + best.lines.length
      let b := (files.filter fun f => f.name ≠ best.name).map fun f => { f with lines := setMinus f.lines best.lines }
      (climb n total (b.filter fun f => f.lines ≠ [])).map fun (entries, dropped) =>
        (⟨best.name, best.lines.length, total⟩ :: entries, (b.filter fun f => f.lines = []).map MapFile.name ++ dropped)

/-- With a third argument all maps are intersected with it first. -/
def restrict (allFs : Option (List α)) (files : List (MapFile ν α)) : List (MapFile ν α) :=
  files.map fun f => { f with lines := allFs.elim f.lines fun all => setIntersect all f.lines }

/-- The script. -/
def coverageClimber (n : Nat) (allFs : Option (List α)) (files : List (MapFile ν α)) :
    Option (List (Climbed ν) × List ν) :=
  climb n 0 (restrict allFs files)

/-- The basic blocks of a benchmark. -/
def blocks (files : List (MapFile ν α)) (name : ν) : Finset α :=
  ((files.filter fun f => f.name = name).flatMap MapFile.lines).toFinset

omit [LinearOrder ν] in
theorem names_restrict (allFs : Option (List α)) (files : List (MapFile ν α)) :
    (restrict allFs files).map MapFile.name = files.map MapFile.name := by simp [restrict, Function.comp_def]

/-- What `comm` and `join` pass over in the second file. -/
theorem dropWhile_lt {file : List α} (h : SortedLines file) (line : α) :
    file.dropWhile (· < line) = file.filter (line ≤ ·) := by
  induction file with
  | nil => rfl
  | cons first file ih =>
    obtain ⟨hfirst, hfile⟩ := List.pairwise_cons.mp h
    by_cases hlt : first < line
    · rw [List.dropWhile_cons_of_pos (by simpa using hlt), List.filter_cons_of_neg (by simpa using hlt), ih hfile]
    · have hkeep : (first :: file).filter (line ≤ ·) = first :: file := by
        rw [List.filter_eq_self]
        intro x hx
        rcases List.mem_cons.mp hx with rfl | hx
        · simpa using hlt
        · simpa using (not_lt.mp hlt).trans (hfirst x hx).le
      rw [List.dropWhile_cons_of_neg (by simpa using hlt), hkeep]

/-- What they stop at: the line itself, if it is in the second file. -/
theorem dropWhile_cases {file : List α} (h : SortedLines file) (line : α) :
    SortedLines (file.dropWhile (· < line)) ∧ (∀ x, x ∈ file.dropWhile (· < line) ↔ x ∈ file ∧ line ≤ x) ∧
      (line ∈ file → ∃ rest, file.dropWhile (· < line) = line :: rest) := by
  have hsorted : SortedLines (file.dropWhile (· < line)) := h.sublist (List.dropWhile_sublist _)
  have hmem : ∀ x, x ∈ file.dropWhile (· < line) ↔ x ∈ file ∧ line ≤ x := by
    intro x
    rw [dropWhile_lt h, List.mem_filter, decide_eq_true_eq]
  refine ⟨hsorted, hmem, fun hin => ?_⟩
  have hline := (hmem line).mpr ⟨hin, le_refl line⟩
  generalize file.dropWhile (· < line) = left at hsorted hmem hline
  cases left with
  | nil => cases hline
  | cons first rest =>
    rcases List.mem_cons.mp hline with rfl | hrest
    · exact ⟨rest, rfl⟩
    · have hfirst := ((hmem first).mp (List.mem_cons_self ..)).2
      exact absurd ((List.pairwise_cons.mp hsorted).1 line hrest) (not_lt.mpr hfirst)

/-- On sorted files `comm -23` is the difference. -/
theorem setMinus_eq_filter {file1 file2 : List α} (h1 : SortedLines file1) (h2 : SortedLines file2) :
    setMinus file1 file2 = file1.filter (· ∉ file2) := by
  induction file1 generalizing file2 with
  | nil => rfl
  | cons line file1 ih =>
    obtain ⟨hline, hrest⟩ := List.pairwise_cons.mp h1
    obtain ⟨hsorted, hmem, hfound⟩ := dropWhile_cases h2 line
    rw [setMinus]
    by_cases hin : line ∈ file2
    · obtain ⟨rest, hleft⟩ := hfound hin
      rw [hleft] at hsorted hmem
      rw [hleft, List.head?_cons, if_pos rfl, List.tail_cons, ih hrest (List.pairwise_cons.mp hsorted).2,
        List.filter_cons_of_neg (by simpa using hin)]
      refine List.filter_congr fun x hx => ?_
      have hlt := hline x hx
      simpa [hlt.ne', hlt.le] using hmem x
    · have hne : (file2.dropWhile (· < line)).head? ≠ some line := fun he =>
        hin ((hmem line).mp (List.mem_of_mem_head? he)).1
      rw [if_neg hne, ih hrest hsorted, List.filter_cons_of_pos (by simpa using hin)]
      refine congrArg _ (List.filter_congr fun x hx => ?_)
      simpa [(hline x hx).le] using hmem x

/-- On sorted files `join` is the intersection. -/
theorem setIntersect_eq_filter {file1 file2 : List α} (h1 : SortedLines file1) (h2 : SortedLines file2) :
    setIntersect file1 file2 = file1.filter (· ∈ file2) := by
  induction file1 generalizing file2 with
  | nil => rfl
  | cons line file1 ih =>
    obtain ⟨hline, hrest⟩ := List.pairwise_cons.mp h1
    obtain ⟨hsorted, hmem, hfound⟩ := dropWhile_cases h2 line
    have hlater : file1.filter (· ∈ file2.dropWhile (· < line)) = file1.filter (· ∈ file2) := by
      refine List.filter_congr fun x hx => ?_
      simpa [(hline x hx).le] using hmem x
    rw [setIntersect, ih hrest hsorted, hlater]
    by_cases hin : line ∈ file2
    · obtain ⟨rest, hleft⟩ := hfound hin
      have hnone : rest.takeWhile (· = line) = [] := by
        rw [hleft] at hsorted
        refine List.takeWhile_eq_nil_iff.mpr fun hpos he => ?_
        have hlt := (List.pairwise_cons.mp hsorted).1 _ (List.getElem_mem hpos)
        exact hlt.ne' (of_decide_eq_true he)
      rw [hleft, List.takeWhile_cons_of_pos (by simp), hnone, List.filter_cons_of_pos (by simpa using hin)]
      rfl
    · have hnone : (file2.dropWhile (· < line)).takeWhile (· = line) = [] := by
        refine List.takeWhile_eq_nil_iff.mpr fun hpos he => ?_
        rw [decide_eq_true_eq] at he
        exact hin (he ▸ ((hmem _).mp (List.getElem_mem hpos)).1)
      rw [hnone, List.nil_append, List.filter_cons_of_neg (by simpa using hin)]

theorem SortedLines.setMinus {file1 file2 : List α} (h1 : SortedLines file1) (h2 : SortedLines file2) :
    SortedLines (setMinus file1 file2) ∧
      (Coverage.setMinus file1 file2).toFinset = file1.toFinset \ file2.toFinset := by
  rw [setMinus_eq_filter h1 h2]
  refine ⟨List.Pairwise.filter _ h1, ?_⟩
  ext line
  simp

theorem SortedLines.setIntersect {file1 file2 : List α} (h1 : SortedLines file1) (h2 : SortedLines file2) :
    SortedLines (setIntersect file1 file2) ∧
      (Coverage.setIntersect file1 file2).toFinset = file1.toFinset ∩ file2.toFinset := by
  rw [setIntersect_eq_filter h1 h2]
  refine ⟨List.Pairwise.filter _ h1, ?_⟩
  ext line
  simp

theorem SortedLines.nodup {lines : List α} (h : SortedLines lines) : lines.Nodup := h.imp ne_of_lt

omit [LinearOrder α] in
theorem top_spec {files : List (MapFile ν α)} {best : MapFile ν α} (h : top files = some best) :
    best ∈ files ∧ ∀ f ∈ files, f.lines.length ≤ best.lines.length := by
  refine ⟨List.argmax_mem h, fun f hf => ?_⟩
  have hle := List.le_of_mem_argmax hf h
  rw [Prod.Lex.toLex_le_toLex] at hle
  rcases hle with hlt | ⟨heq, -⟩
  · exact Nat.le_of_lt hlt
  · exact Nat.le_of_eq heq

/-- The files at some time: what is left of the maps beyond the blocks that were counted. -/
structure Left (s : ν → Finset α) (family : Finset ν) (seen : Finset α) (files : List (MapFile ν α)) : Prop where
  names : (files.map MapFile.name).Nodup
  mem : ∀ f ∈ files, f.name ∈ family
  lines : ∀ f ∈ files, SortedLines f.lines ∧ f.lines.toFinset = s f.name \ seen
  others : ∀ name ∈ family, name ∉ files.map MapFile.name → s name ⊆ seen

namespace Left

variable {s : ν → Finset α} {family : Finset ν} {seen : Finset α} {files : List (MapFile ν α)}

omit [LinearOrder ν] in
theorem gain (h : Left s family seen files) {f : MapFile ν α} (hf : f ∈ files) :
    Greedy.gain s seen f.name = f.lines.length := by
  rw [Greedy.gain, ← (h.lines f hf).2, List.toFinset_card_of_nodup (h.lines f hf).1.nodup]

/-- The longest file gains most. -/
theorem greatest (h : Left s family seen files) {best : MapFile ν α} (hbest : top files = some best) :
    ∀ name ∈ family, Greedy.gain s seen name ≤ Greedy.gain s seen best.name := by
  obtain ⟨hmem, hle⟩ := top_spec hbest
  intro name hname
  by_cases hin : name ∈ files.map MapFile.name
  · obtain ⟨f, hf, rfl⟩ := List.mem_map.mp hin
    rw [h.gain hf, h.gain hmem]
    exact hle f hf
  · have hempty : s name \ seen = ∅ := Finset.sdiff_eq_empty_iff_subset.mpr (h.others name hname hin)
    rw [Greedy.gain, hempty]
    exact Nat.zero_le _

/-- The files of the next round. -/
theorem next (h : Left s family seen files) {best : MapFile ν α} (hbest : best ∈ files) :
    Left s family (seen ∪ s best.name) ((((files.filter fun f => f.name ≠ best.name).map fun f =>
      { f with lines := setMinus f.lines best.lines }).filter fun f => f.lines ≠ [])) := by
  have hlines : ∀ f ∈ files, SortedLines (setMinus f.lines best.lines) ∧
      (setMinus f.lines best.lines).toFinset = s f.name \ (seen ∪ s best.name) := by
    intro f hf
    obtain ⟨hsorted, heq⟩ := h.lines f hf
    obtain ⟨hsorted', heq'⟩ := hsorted.setMinus (h.lines best hbest).1
    refine ⟨hsorted', ?_⟩
    rw [heq', heq, (h.lines best hbest).2]
    ext a
    simp only [Finset.mem_sdiff, Finset.mem_union]
    tauto
  refine ⟨?_, ?_, ?_, ?_⟩
  · have hsub : ((((files.filter fun f => f.name ≠ best.name).map fun f =>
        { f with lines := setMinus f.lines best.lines }).filter fun f => f.lines ≠ []).map MapFile.name).Sublist
        (files.map MapFile.name) := by
      have hmap := (List.filter_sublist (l := (files.filter fun f => f.name ≠ best.name).map fun f =>
        { f with lines := setMinus f.lines best.lines }) (p := fun f => f.lines ≠ [])).map MapFile.name
      rw [List.map_map] at hmap
      exact hmap.trans (List.filter_sublist.map MapFile.name)
    exact h.names.sublist hsub
  · intro f hf
    obtain ⟨f', hf', rfl⟩ := List.mem_map.mp (List.mem_of_mem_filter hf)
    exact h.mem f' (List.mem_of_mem_filter hf')
  · intro f hf
    obtain ⟨f', hf', rfl⟩ := List.mem_map.mp (List.mem_of_mem_filter hf)
    exact hlines f' (List.mem_of_mem_filter hf')
  · intro name hname hout
    by_cases hin : name ∈ files.map MapFile.name
    · obtain ⟨f, hf, rfl⟩ := List.mem_map.mp hin
      by_cases hb : f.name = best.name
      · rw [hb]
        exact Finset.subset_union_right
      · have hempty : setMinus f.lines best.lines = [] := by
          by_contra hne
          refine hout (List.mem_map.mpr ⟨{ f with lines := setMinus f.lines best.lines }, ?_, rfl⟩)
          exact List.mem_filter.mpr ⟨List.mem_map.mpr ⟨f, List.mem_filter.mpr ⟨hf, decide_eq_true hb⟩, rfl⟩,
            decide_eq_true hne⟩
        have hset := (hlines f hf).2
        rw [hempty] at hset
        exact Finset.sdiff_eq_empty_iff_subset.mp hset.symm
    · exact (h.others name hname hin).trans Finset.subset_union_left

end Left

/-- The columns of the output, for an order of the benchmarks. -/
def climbedOf (s : ν → Finset α) : Finset α → List ν → List (Climbed ν)
  | _, [] => []
  | seen, name :: rest => ⟨name, Greedy.gain s seen name, (seen ∪ s name).card⟩ :: climbedOf s (seen ∪ s name) rest

/-- With as many rounds as there are files the loop ends. The benchmarks are a greedy run, and with
the dropped ones they are all. -/
theorem climb_run {s : ν → Finset α} {family : Finset ν} {n : Nat} {seen : Finset α} {files : List (MapFile ν α)}
    (h : Left s family seen files) (hn : files.length ≤ n) :
    ∃ order dropped, climb n seen.card files = some (climbedOf s seen order, dropped) ∧
      (order ++ dropped).Perm (files.map MapFile.name) ∧ Greedy.Run s family seen order ∧
      ∀ name ∈ family, s name ⊆ seen ∪ Greedy.covered s order := by
  induction n generalizing seen files with
  | zero =>
    obtain rfl := List.length_eq_zero_iff.mp (Nat.le_zero.mp hn)
    exact ⟨[], [], rfl, List.Perm.refl _, .nil _, fun name hname =>
      (h.others name hname (by simp)).trans Finset.subset_union_left⟩
  | succ n ih =>
    cases hbest : top files with
    | none =>
      obtain rfl := List.argmax_eq_none.mp hbest
      exact ⟨[], [], rfl, List.Perm.refl _, .nil _, fun name hname =>
        (h.others name hname (by simp)).trans Finset.subset_union_left⟩
    | some best =>
      obtain ⟨hmem, -⟩ := top_spec hbest
      let b := (files.filter fun f => f.name ≠ best.name).map fun f => { f with lines := setMinus f.lines best.lines }
      have hlen : (b.filter fun f => f.lines ≠ []).length ≤ n := by
        have hless : (files.filter fun f => f.name ≠ best.name).length < files.length :=
          List.length_filter_lt_length_iff_exists.mpr ⟨best, hmem, by simp⟩
        have hb : b.length = (files.filter fun f => f.name ≠ best.name).length := List.length_map _
        have hfilter := List.length_filter_le (fun f : MapFile ν α => decide (f.lines ≠ [])) b
        omega
      obtain ⟨order, dropped, hrun, hperm, hgreedy, hall⟩ := ih (h.next hmem) hlen
      have hcard : (seen ∪ s best.name).card = seen.card + best.lines.length := by
        rw [Greedy.card_union_gain, h.gain hmem]
      refine ⟨best.name :: order, (b.filter fun f => f.lines = []).map MapFile.name ++ dropped, ?_, ?_,
        .cons (h.mem best hmem) (h.greatest hbest) hgreedy, fun name hname => ?_⟩
      · rw [climb, hbest]
        simp only
        rw [← hcard, hrun, climbedOf, h.gain hmem]
        rfl
      · have hsplit : (((b.filter fun f => f.lines ≠ []).map MapFile.name) ++
            (b.filter fun f => f.lines = []).map MapFile.name).Perm (b.map MapFile.name) := by
          rw [← List.map_append]
          have hparts := List.filter_append_perm (fun f : MapFile ν α => decide (f.lines ≠ [])) b
          simp only [ne_eq, decide_not, Bool.not_not] at hparts ⊢
          exact hparts.map _
        have hnames : b.map MapFile.name = (files.map MapFile.name).filter fun name => name ≠ best.name := by
          rw [List.map_map, List.filter_map]
          rfl
        have herase : (best.name :: (files.map MapFile.name).filter fun name => name ≠ best.name).Perm
            (files.map MapFile.name) := by
          have hin : best.name ∈ files.map MapFile.name := List.mem_map_of_mem hmem
          have hfilter : ((files.map MapFile.name).filter fun name => name ≠ best.name) =
              (files.map MapFile.name).erase best.name := by
            rw [h.names.erase_eq_filter]
            refine List.filter_congr fun name _ => ?_
            simp [bne, beq_eq_decide]
          rw [hfilter]
          exact (List.perm_cons_erase hin).symm
        have hnow : (b.map MapFile.name).Perm (order ++ ((b.filter fun f => f.lines = []).map MapFile.name ++ dropped)) := by
          refine (hsplit.symm.trans (hperm.symm.append_right _)).trans ?_
          rw [List.append_assoc]
          exact List.perm_append_comm.append_left order
        rw [hnames] at hnow
        exact (hnow.symm.cons best.name).trans herase
      · have hrest := hall name hname
        rw [Greedy.covered, ← Finset.union_assoc]
        exact hrest

omit [LinearOrder ν] in
/-- Counts fall. -/
theorem climbedOf_pairwise {s : ν → Finset α} {family : Finset ν} {seen : Finset α} {order : List ν}
    (h : Greedy.Run s family seen order) : (climbedOf s seen order).Pairwise fun e e' => e'.bbCount ≤ e.bbCount := by
  induction h with
  | nil => exact List.Pairwise.nil
  | @cons seen name rest mem greatest next ih =>
    refine List.Pairwise.cons (fun e he => ?_) ih
    have hlater : ∀ (order : List ν) (seen' : Finset α), seen ⊆ seen' → Greedy.Run s family seen' order →
        ∀ e ∈ climbedOf s seen' order, e.bbCount ≤ Greedy.gain s seen name := by
      intro order
      induction order with
      | nil => simp [climbedOf]
      | cons name' order ih' =>
        intro seen' hsub hrun e he
        cases hrun with
        | cons mem' _ next' =>
          rcases List.mem_cons.mp he with rfl | he
          · exact (Greedy.gain_anti hsub name').trans (greatest name' mem')
          · exact ih' _ (hsub.trans Finset.subset_union_left) next' e he
    exact hlater rest _ Finset.subset_union_left next e he

omit [LinearOrder ν] in
/-- The last total counts every block once. -/
theorem climbedOf_total (s : ν → Finset α) (seen : Finset α) (order : List ν) :
    ∀ e ∈ (climbedOf s seen order).getLast?, e.total = (seen ∪ Greedy.covered s order).card := by
  induction order generalizing seen with
  | nil => simp [climbedOf]
  | cons name rest ih =>
    intro e he
    rw [Greedy.covered, ← Finset.union_assoc]
    cases rest with
    | nil =>
      obtain rfl : ⟨name, Greedy.gain s seen name, (seen ∪ s name).card⟩ = e := by simpa [climbedOf] using he
      simp [Greedy.covered]
    | cons name' rest =>
      refine ih _ e ?_
      simpa [climbedOf] using he

/-- The files before the first round. -/
theorem left_restrict {files : List (MapFile ν α)} {allFs : Option (List α)}
    (hnames : (files.map MapFile.name).Nodup) (hfiles : ∀ f ∈ files, SortedLines f.lines)
    (hall : ∀ all ∈ allFs, SortedLines all) :
    Left (fun name => (blocks files name).filter fun line => ∀ all ∈ allFs, line ∈ all)
      (files.map MapFile.name).toFinset ∅ (restrict allFs files) := by
  refine ⟨by rwa [names_restrict], ?_, ?_, ?_⟩
  · intro f hf
    rw [List.mem_toFinset, ← names_restrict allFs]
    exact List.mem_map_of_mem hf
  · intro f hf
    obtain ⟨f', hf', rfl⟩ := List.mem_map.mp hf
    have hone : files.filter (fun f => f.name = f'.name) = [f'] := by
      refine List.perm_singleton.mp ((List.perm_ext_iff_of_nodup ((hnames.of_map _).filter _)
        (List.nodup_singleton _)).mpr fun f => ?_)
      rw [List.mem_filter, decide_eq_true_eq, List.mem_singleton]
      constructor
      · rintro ⟨hf, he⟩
        exact List.inj_on_of_nodup_map hnames hf hf' he
      · rintro rfl
        exact ⟨hf', rfl⟩
    cases allFs with
    | none =>
      refine ⟨hfiles f' hf', ?_⟩
      ext line
      simp [blocks, hone]
    | some all =>
      obtain ⟨hsorted, heq⟩ := (hall all rfl).setIntersect (hfiles f' hf')
      refine ⟨hsorted, heq.trans ?_⟩
      ext line
      simp [blocks, hone, and_comm]
  · intro name hname hout
    rw [names_restrict] at hout
    exact absurd (List.mem_toFinset.mp hname) hout

/-- The benchmarks in the output and in the drop file are all benchmarks, and the ones in the output
cover what all cover. Each of them adds most at its time, the counts fall, and the last total is the
number of all blocks. However far one follows the order, no cover leaves much less uncovered. -/
theorem coverageClimber_covers {files : List (MapFile ν α)} {allFs : Option (List α)}
    (hnames : (files.map MapFile.name).Nodup) (hfiles : ∀ f ∈ files, SortedLines f.lines)
    (hall : ∀ all ∈ allFs, SortedLines all) :
    let s := fun name => (blocks files name).filter fun line => ∀ all ∈ allFs, line ∈ all
    let family := (files.map MapFile.name).toFinset
    ∃ order dropped, coverageClimber files.length allFs files = some (climbedOf s ∅ order, dropped) ∧
      (order ++ dropped).Perm (files.map MapFile.name) ∧ Greedy.Run s family ∅ order ∧
      Greedy.covered s order = family.biUnion s ∧
      ((climbedOf s ∅ order).Pairwise fun e e' => e'.bbCount ≤ e.bbCount) ∧
      (∀ e ∈ (climbedOf s ∅ order).getLast?, e.total = (family.biUnion s).card) ∧
      ∀ k cover, cover ⊆ family → family.biUnion s ⊆ cover.biUnion s →
        cover.card ^ (order.take k).length * (family.biUnion s \ Greedy.covered s (order.take k)).card ≤
          (cover.card - 1) ^ (order.take k).length * (family.biUnion s).card := by
  intro s family
  have hlen : (restrict allFs files).length = files.length := List.length_map _
  obtain ⟨order, dropped, hrun, hperm, hgreedy, hsub⟩ :=
    climb_run (left_restrict hnames hfiles hall) (Nat.le_of_eq hlen)
  rw [names_restrict] at hperm
  have hcovered : Greedy.covered s order = family.biUnion s := by
    ext a
    rw [Greedy.mem_covered, Finset.mem_biUnion]
    constructor
    · rintro ⟨name, hname, ha⟩
      exact ⟨name, List.mem_toFinset.mpr (hperm.subset (List.mem_append_left _ hname)), ha⟩
    · rintro ⟨name, hname, ha⟩
      have hin := hsub name hname ha
      rw [Finset.empty_union] at hin
      exact Greedy.mem_covered.mp hin
  refine ⟨order, dropped, hrun, hperm, hgreedy, hcovered, climbedOf_pairwise hgreedy, fun e he => ?_,
    fun k cover hcover hfamily => ?_⟩
  · rw [climbedOf_total s ∅ order e he, Finset.empty_union, hcovered]
  · have hbound := (hgreedy.take k).bound hcover hfamily
    rwa [Finset.empty_union, Finset.sdiff_empty] at hbound

/-- Of three benchmarks one is covered by the others. -/
def threeMaps : List (MapFile Nat Nat) := [⟨1, [1, 2]⟩, ⟨2, [1, 3]⟩, ⟨3, [3, 4, 5]⟩]

theorem threeMaps_climbed : ∃ order dropped,
    coverageClimber 3 none threeMaps = some (climbedOf (fun name => (blocks threeMaps name).filter fun line =>
      ∀ all ∈ (none : Option (List Nat)), line ∈ all) ∅ order, dropped) ∧
    (order ++ dropped).Perm [1, 2, 3] ∧
    coverageClimber 3 none threeMaps = some ([⟨3, 3, 3⟩, ⟨1, 2, 5⟩], [2]) := by
  obtain ⟨order, dropped, hrun, hperm, -⟩ :=
    @coverageClimber_covers _ _ _ _ threeMaps none (by decide) (by decide) (by simp)
  exact ⟨order, dropped, hrun, hperm, by decide +kernel⟩

end LockDoc.Coverage
