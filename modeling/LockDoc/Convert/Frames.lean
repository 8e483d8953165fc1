import LockDoc.Convert.Effect

/-!
# Stack frames and their source files

`binaryread.cc` resolves an instruction pointer to a code location and to the locations it is
inlined by, and remembers the answer. The kernel directory is cut off the paths three times:
off the file of a lock operation, of a code location and of an inlining location. Each copy
looks for the directory in its own way, and only the second minds a missing slash at its end.
-/
namespace LockDoc.Convert

/-- What libbfd says about an address. -/
structure BfdLine where
  file : Option String
  fn : Option String
  line : Nat
  deriving DecidableEq, Repr

/-- A section of the kernel image; `nearestLine` is `bfd_find_nearest_line_discriminator`
by the offset into it. -/
structure BfdSection where
  alloc : Bool
  vma : Nat
  size : Nat
  nearestLine : Nat → Option BfdLine

/-- The kernel image as libbfd shows it. After the lookup of an address `inlinerInfo` lists
what `bfd_find_inliner_info` answers, call by call, until it finds nothing more. -/
structure Bfd where
  sections : List BfdSection
  inlinerInfo : Nat → List BfdLine

structure CodeLocation where
  fn : String
  file : String
  line : Int
  deriving DecidableEq, Repr

structure ResolvedInstructionPtr where
  codeLocation : CodeLocation
  inlinedBy : List CodeLocation
  deriving DecidableEq, Repr

/-- Undefined behaviour of `get_function_at_addr`. -/
inductive Undefined where
  | pastEnd
  | nullFile
  deriving DecidableEq, Repr

def findAddressInSection (pc : Nat) (found : Option BfdLine) (s : BfdSection) : Option BfdLine :=
  if found.isSome then found
  else if !s.alloc then none
  else if pc < s.vma then none
  else if addU64 s.vma s.size ≤ pc then none
  else s.nearestLine (pc - s.vma)

/-- `bfd_map_over_sections`. -/
def Bfd.search (bfd : Bfd) (pc : Nat) : Option BfdLine := bfd.sections.foldl (findAddressInSection pc) none

/-- `file + n`; the byte after the end may be pointed to. -/
def advance (file : String) (n : Nat) : Except Undefined String :=
  if n ≤ file.toList.length then .ok (String.ofList (file.toList.drop n)) else .error .pastEnd

/-- The file of a code location. A directory without a slash at its end takes one more character. -/
def codeFile (compDir : String) : Option String → Except Undefined String
  | none => .ok "unknown"
  | some file =>
    let len := compDir.toList.length
    if compDir.toList <:+: file.toList then
      if compDir.toList.getLast? ≠ some '/' then advance file (len + 1) else advance file len
    else .ok file

/-- The file of an inlining location; `strstr` needs one. -/
def inlinedFile (compDir : String) : Option String → Except Undefined String
  | none => .error .nullFile
  | some file => if compDir.toList <:+: file.toList then advance file compDir.toList.length else .ok file

def inlinedLocation (compDir : String) (answer : BfdLine) : Except Undefined CodeLocation := do
  let file ← inlinedFile compDir answer.file
  .ok ⟨answer.fn.getD "unknown", file, toInt answer.line⟩

/-- What is stored for an address that has not been looked up before. -/
def resolve (bfd : Bfd) (compDir : String) (addr : Nat) : Except Undefined ResolvedInstructionPtr :=
  match bfd.search addr with
  | some answer => do
    let file ← codeFile compDir answer.file
    let inlinedBy ← (bfd.inlinerInfo addr).mapM (inlinedLocation compDir)
    .ok ⟨⟨answer.fn.getD "unknown", file, toInt answer.line⟩, inlinedBy⟩
  | none => .ok ⟨⟨"unknown", "unknown", 0⟩, []⟩

/-- `functionAddresses`. -/
abbrev FunctionAddresses := Std.ExtTreeMap Nat ResolvedInstructionPtr

def getFunctionAtAddr (bfd : Bfd) (compDir : String) (functionAddresses : FunctionAddresses) (addr : Nat) :
    Except Undefined (ResolvedInstructionPtr × FunctionAddresses) :=
  match functionAddresses[addr]? with
  | some resolved => .ok (resolved, functionAddresses)
  | none => do
    let resolved ← resolve bfd compDir addr
    .ok (resolved, functionAddresses.insert addr resolved)

/-- What the calls of a run leave in the map. -/
inductive Looked (bfd : Bfd) (compDir : String) : FunctionAddresses → Prop
  | empty : Looked bfd compDir ∅
  | call {seen next : FunctionAddresses} {addr : Nat} {resolved : ResolvedInstructionPtr} (h : Looked bfd compDir seen)
    (hcall : getFunctionAtAddr bfd compDir seen addr = .ok (resolved, next)) : Looked bfd compDir next

/-- The map never changes an answer. -/
theorem Looked.getFunctionAtAddr {bfd : Bfd} {compDir : String} {seen : FunctionAddresses}
    (h : Looked bfd compDir seen) (addr : Nat) :
    (getFunctionAtAddr bfd compDir seen addr).map Prod.fst = resolve bfd compDir addr := by
  have hstored : ∀ addr resolved, seen[addr]? = some resolved → resolve bfd compDir addr = .ok resolved := by
    induction h with
    | empty =>
      intro addr resolved hget
      simp at hget
    | @call seen next addr' resolved' _ hcall ih =>
      intro addr resolved hget
      unfold LockDoc.Convert.getFunctionAtAddr at hcall
      cases hseen : seen[addr']? with
      | some r =>
        simp only [hseen] at hcall
        cases hcall
        exact ih addr resolved hget
      | none =>
        simp only [hseen, FallibleRun.bind_ok] at hcall
        obtain ⟨r, hr, hnext⟩ := hcall
        cases hnext
        rw [Std.ExtTreeMap.getElem?_insert] at hget
        split at hget
        · rename_i haddr
          cases hget
          rw [← Std.LawfulEqOrd.compare_eq_iff_eq.mp haddr, hr]
        · exact ih addr resolved hget
  unfold LockDoc.Convert.getFunctionAtAddr
  cases hseen : seen[addr]? with
  | some r => exact (hstored addr r hseen).symm
  | none =>
    cases hr : resolve bfd compDir addr with
    | error e => rfl
    | ok r => rfl

/-- A file relative to the kernel directory: the rest after the directory and one slash, if it
starts with these, else the file as it is. -/
def underKernel (kernelDir file : String) : String :=
  if withSlash kernelDir <+: file.toList then String.ofList (file.toList.drop (withSlash kernelDir).length) else file

/-- Every copy of the removal makes the file relative in this way: what a `P()` stores, from
any state of the locks; the code location of a frame with this file, and every location it is
inlined by that has this file, from any state of the map. -/
structure SameWay (kernelDir file : String) : Prop where
  lastFile : ∀ (lm lm' : LockManager) (l : LockPtr) (e : LockEvent) (ctx : Int), e.op.isP = true → e.file = file →
    lm.transition l e kernelDir ctx = .ok lm' →
      ∃ pos rest, (lm'.heap l).lastNPos = pos :: rest ∧ pos.subLock = e.op.side ∧
        pos.lastFile = underKernel kernelDir file
  codeLocation : ∀ (bfd : Bfd) (seen : FunctionAddresses) (addr : Nat) (answer : BfdLine), Looked bfd kernelDir seen →
    bfd.search addr = some answer → answer.file = some file → (∀ a ∈ bfd.inlinerInfo addr, a.file ≠ none) →
      ∃ resolved next, getFunctionAtAddr bfd kernelDir seen addr = .ok (resolved, next) ∧
        resolved.codeLocation.file = underKernel kernelDir file
  inlinedBy : ∀ (bfd : Bfd) (seen next : FunctionAddresses) (addr : Nat) (resolved : ResolvedInstructionPtr) (i : Nat)
    (answer : BfdLine), Looked bfd kernelDir seen → bfd.search addr ≠ none →
    (bfd.inlinerInfo addr)[i]? = some answer → answer.file = some file →
    getFunctionAtAddr bfd kernelDir seen addr = .ok (resolved, next) →
      ∃ location, resolved.inlinedBy[i]? = some location ∧ location.file = underKernel kernelDir file

/-- The kernel directory does not occur in the file at all, or it ends with a slash and the
file starts with it. -/
def Unambiguous (kernelDir file : String) : Prop :=
  ¬kernelDir.toList <:+: file.toList ∨ (kernelDir.toList.getLast? = some '/' ∧ kernelDir.toList <+: file.toList)

instance (kernelDir file : String) : Decidable (Unambiguous kernelDir file) := by
  unfold Unambiguous
  infer_instance

theorem withSlash_eq_self {kernelDir : String} (h : kernelDir.toList.getLast? = some '/') :
    withSlash kernelDir = kernelDir.toList := if_pos h

theorem prefix_withSlash (kernelDir : String) : kernelDir.toList <+: withSlash kernelDir := by
  unfold withSlash
  split
  · exact List.prefix_rfl
  · exact List.prefix_append _ _

section

variable {kernelDir file : String}

theorem Unambiguous.relativeFile (h : Unambiguous kernelDir file) :
    relativeFile kernelDir file = underKernel kernelDir file := by
  unfold LockDoc.Convert.relativeFile underKernel
  rcases h with hno | ⟨hslash, hpre⟩
  · have hno' : ¬withSlash kernelDir <:+: file.toList := fun hin =>
      hno ((prefix_withSlash kernelDir).isInfix.trans hin)
    rw [if_neg hno', if_neg fun hp => hno' hp.isInfix]
  · rw [withSlash_eq_self hslash, if_pos hpre, if_pos hpre.isInfix]

theorem advance_of_le {n : Nat} (h : n ≤ file.toList.length) :
    advance file n = .ok (String.ofList (file.toList.drop n)) := if_pos h

theorem Unambiguous.codeFile (h : Unambiguous kernelDir file) :
    codeFile kernelDir (some file) = .ok (underKernel kernelDir file) := by
  unfold LockDoc.Convert.codeFile underKernel
  dsimp only
  rcases h with hno | ⟨hslash, hpre⟩
  · rw [if_neg hno, if_neg fun hp => hno ((prefix_withSlash kernelDir).isInfix.trans hp.isInfix)]
  · rw [if_pos hpre.isInfix, if_neg (not_not.mpr hslash), advance_of_le hpre.length_le, withSlash_eq_self hslash,
      if_pos hpre]

/-- The third copy is right about the file only under the condition. -/
theorem inlinedFile_eq_iff (hdir : kernelDir ≠ "") :
    inlinedFile kernelDir (some file) = .ok (underKernel kernelDir file) ↔ Unambiguous kernelDir file := by
  have hpos : 0 < kernelDir.toList.length := by
    rw [List.length_pos_iff]
    exact fun he => hdir (String.toList_injective he)
  unfold inlinedFile underKernel Unambiguous
  dsimp only
  by_cases hin : kernelDir.toList <:+: file.toList
  · have hle := hin.length_le
    rw [if_pos hin, advance_of_le hle, Except.ok.injEq]
    simp only [hin, not_true_eq_false, false_or]
    constructor
    · intro he
      split at he
      · rename_i hpre
        -- Both drop something off the file, so they drop the same number of characters.
        have hdrop := congrArg List.length (String.ofList_injective he)
        have hle' := hpre.length_le
        rw [List.length_drop, List.length_drop] at hdrop
        have hlen : kernelDir.toList.length = (withSlash kernelDir).length := by omega
        have hslash : kernelDir.toList.getLast? = some '/' := by
          by_contra hno
          rw [withSlash, if_neg hno, List.length_append, List.length_singleton] at hlen
          omega
        rw [withSlash_eq_self hslash] at hpre
        exact ⟨hslash, hpre⟩
      · have hdrop := congrArg (fun s => s.toList.length) he
        simp only [String.toList_ofList, List.length_drop] at hdrop
        omega
    · rintro ⟨hslash, hpre⟩
      rw [withSlash_eq_self hslash, if_pos hpre]
  · have hno : ¬withSlash kernelDir <+: file.toList := fun hp =>
      hin ((prefix_withSlash kernelDir).isInfix.trans hp.isInfix)
    rw [if_neg hin, if_neg hno]
    simp [hin]

end

/-- A call whose frame has an answer. -/
theorem Looked.resolve_ok {bfd : Bfd} {compDir : String} {seen next : FunctionAddresses} {addr : Nat}
    {resolved : ResolvedInstructionPtr} (h : Looked bfd compDir seen)
    (hcall : LockDoc.Convert.getFunctionAtAddr bfd compDir seen addr = .ok (resolved, next)) :
    resolve bfd compDir addr = .ok resolved := by
  rw [← h.getFunctionAtAddr addr, hcall]
  rfl

/-- Inlining locations with files are all resolved. -/
theorem mapM_inlinedLocation {compDir : String} {answers : List BfdLine} (h : ∀ a ∈ answers, a.file ≠ none) :
    ∃ locations, answers.mapM (inlinedLocation compDir) = .ok locations := by
  induction answers with
  | nil => exact ⟨[], rfl⟩
  | cons a answers ih =>
    obtain ⟨locations, hrest⟩ := ih fun x hx => h x (List.mem_cons_of_mem _ hx)
    obtain ⟨file, hfile⟩ := Option.ne_none_iff_exists'.mp (h a List.mem_cons_self)
    obtain ⟨location, hloc⟩ : ∃ location, inlinedLocation compDir a = .ok location := by
      unfold inlinedLocation inlinedFile
      rw [hfile]
      dsimp only
      split
      · rename_i hin
        rw [advance_of_le hin.length_le]
        exact ⟨_, rfl⟩
      · exact ⟨_, rfl⟩
    exact ⟨location :: locations, by rw [List.mapM_cons, hloc, hrest]; rfl⟩

/-- The locations are resolved one by one. -/
theorem getElem?_mapM_inlinedLocation {compDir : String} {answers : List BfdLine} {locations : List CodeLocation}
    (h : answers.mapM (inlinedLocation compDir) = .ok locations) {i : Nat} {answer : BfdLine}
    (hi : answers[i]? = some answer) :
    ∃ location, locations[i]? = some location ∧ inlinedFile compDir answer.file = .ok location.file := by
  induction answers generalizing locations i with
  | nil => simp at hi
  | cons a answers ih =>
    rw [List.mapM_cons] at h
    obtain ⟨location, hloc, h⟩ := FallibleRun.bind_ok.mp h
    obtain ⟨rest, hrest, h⟩ := FallibleRun.bind_ok.mp h
    cases h
    cases i with
    | zero =>
      cases hi
      obtain ⟨file, hfile, hloc⟩ := FallibleRun.bind_ok.mp hloc
      cases hloc
      exact ⟨_, rfl, hfile⟩
    | succ i => simpa using ih hrest (by simpa using hi)

/-- An image that resolves one address, and inlines it by one location with the file. -/
def inlinedImage (file : String) : Bfd :=
  ⟨[⟨true, 0, 1, fun _ => some ⟨none, none, 0⟩⟩], fun _ => [⟨some file, none, 0⟩]⟩

theorem inlinedImage_search (file : String) : (inlinedImage file).search 0 = some ⟨none, none, 0⟩ := rfl

theorem inlinedImage_call {kernelDir file : String} {location : CodeLocation}
    (h : inlinedLocation kernelDir ⟨some file, none, 0⟩ = .ok location) :
    getFunctionAtAddr (inlinedImage file) kernelDir ∅ 0 =
      .ok (⟨⟨"unknown", "unknown", 0⟩, [location]⟩,
        (∅ : FunctionAddresses).insert 0 ⟨⟨"unknown", "unknown", 0⟩, [location]⟩) := by
  have hresolve : resolve (inlinedImage file) kernelDir 0 = .ok ⟨⟨"unknown", "unknown", 0⟩, [location]⟩ := by
    unfold resolve
    rw [inlinedImage_search]
    simp only [inlinedImage, List.mapM_cons, List.mapM_nil, h]
    rfl
  simp [getFunctionAtAddr, hresolve, bind, Except.bind]

/-- `rwlock.cc`: what a `P()` pushes has the relative file. -/
theorem Unambiguous.lastFile {kernelDir : String} {e : LockEvent} {lm lm' : LockManager} {l : LockPtr} {ctx : Int}
    (h : Unambiguous kernelDir e.file) (hp : e.op.isP = true) (ht : lm.transition l e kernelDir ctx = .ok lm') :
    ∃ pos rest, (lm'.heap l).lastNPos = pos :: rest ∧ pos.subLock = e.op.side ∧
      pos.lastFile = underKernel kernelDir e.file := by
  obtain ⟨-, ⟨-, lm₁, -, rfl⟩ | ⟨hno, -⟩⟩ := LockManager.transition_ok ht
  · refine ⟨e.pos kernelDir e.op.side, (lm₁.heap l).lastNPos, ?_, rfl, h.relativeFile⟩
    have hheap : (lm₁.acquire l (e.pos kernelDir e.op.side) ctx).heap l =
        (lm₁.heap l).push (e.pos kernelDir e.op.side) := by
      simp [LockManager.acquire, LockManager.startTXN, LockManager.setStack, LockManager.setLock]
    rw [hheap]
    rfl
  · rw [hp] at hno
    cases hno

/-- `get_function_at_addr()` makes the file of a frame relative. -/
theorem Unambiguous.codeLocation {kernelDir file : String} {bfd : Bfd} {seen : FunctionAddresses} {addr : Nat}
    {answer : BfdLine} (h : Unambiguous kernelDir file) (hlooked : Looked bfd kernelDir seen)
    (hsearch : bfd.search addr = some answer) (hfile : answer.file = some file)
    (hinl : ∀ a ∈ bfd.inlinerInfo addr, a.file ≠ none) :
    ∃ resolved next, getFunctionAtAddr bfd kernelDir seen addr = .ok (resolved, next) ∧
      resolved.codeLocation.file = underKernel kernelDir file := by
  obtain ⟨locations, hlocs⟩ := @mapM_inlinedLocation kernelDir (bfd.inlinerInfo addr) hinl
  have hresolve := hlooked.getFunctionAtAddr addr
  simp only [resolve, hsearch, hfile, h.codeFile, hlocs, bind, Except.bind] at hresolve
  cases hcall : getFunctionAtAddr bfd kernelDir seen addr with
  | error e =>
    rw [hcall] at hresolve
    cases hresolve
  | ok r =>
    rw [hcall] at hresolve
    obtain ⟨resolved, next⟩ := r
    cases hresolve
    exact ⟨_, next, rfl, rfl⟩

/-- `get_function_at_addr()` gives every inlining location the file that its own cut leaves. -/
theorem located_of_looked {kernelDir file : String} {bfd : Bfd} {seen next : FunctionAddresses} {addr i : Nat}
    {resolved : ResolvedInstructionPtr} {answer : BfdLine} (hlooked : Looked bfd kernelDir seen)
    (hsearch : bfd.search addr ≠ none) (hi : (bfd.inlinerInfo addr)[i]? = some answer) (hfile : answer.file = some file)
    (hcall : getFunctionAtAddr bfd kernelDir seen addr = .ok (resolved, next)) :
    ∃ location, resolved.inlinedBy[i]? = some location ∧ inlinedFile kernelDir (some file) = .ok location.file := by
  have hresolve := hlooked.resolve_ok hcall
  obtain ⟨found, hfound⟩ := Option.ne_none_iff_exists'.mp hsearch
  unfold resolve at hresolve
  rw [hfound] at hresolve
  obtain ⟨file', -, hresolve⟩ := FallibleRun.bind_ok.mp hresolve
  obtain ⟨locations, hlocs, hresolve⟩ := FallibleRun.bind_ok.mp hresolve
  cases hresolve
  obtain ⟨location, hget, hloc⟩ := getElem?_mapM_inlinedLocation hlocs hi
  rw [hfile] at hloc
  exact ⟨location, hget, hloc⟩

/-- A map and an address with this file as an inlining location are always there. -/
theorem SameWay.inlined {kernelDir file : String} (h : SameWay kernelDir file) :
    inlinedFile kernelDir (some file) = .ok (underKernel kernelDir file) := by
  obtain ⟨location, hloc⟩ : ∃ location, inlinedLocation kernelDir ⟨some file, none, 0⟩ = .ok location := by
    obtain ⟨locations, hlocs⟩ := @mapM_inlinedLocation kernelDir [⟨some file, none, 0⟩] (by simp)
    rw [List.mapM_cons] at hlocs
    obtain ⟨location, hloc, -⟩ := FallibleRun.bind_ok.mp hlocs
    exact ⟨location, hloc⟩
  obtain ⟨location', hget, hfile⟩ := h.inlinedBy (inlinedImage file) ∅ _ 0 _ 0 ⟨some file, none, 0⟩ .empty
    (by rw [inlinedImage_search]; simp) rfl rfl
    (inlinedImage_call hloc)
  cases hget
  rw [← hfile]
  obtain ⟨name, hname, hloc⟩ := FallibleRun.bind_ok.mp hloc
  cases hloc
  exact hname

/-- The copies agree on a file exactly if the directory occurs nowhere in it, or ends with a
slash and the file starts with it. -/
theorem sameWay_iff (kernelDir file : String) (hdir : kernelDir ≠ "") :
    SameWay kernelDir file ↔ Unambiguous kernelDir file := by
  constructor
  · intro h
    exact (inlinedFile_eq_iff hdir).mp h.inlined
  · intro h
    refine ⟨?_, ?_, ?_⟩
    · rintro lm lm' l e ctx hp rfl ht
      exact h.lastFile hp ht
    · intro bfd seen addr answer hlooked hsearch hfile hinl
      exact h.codeLocation hlooked hsearch hfile hinl
    · intro bfd seen next addr resolved i answer hlooked hsearch hi hfile hcall
      obtain ⟨location, hget, hloc⟩ := located_of_looked hlooked hsearch hi hfile hcall
      rw [(inlinedFile_eq_iff hdir).mpr h] at hloc
      exact ⟨location, hget, (Except.ok.inj hloc).symm⟩

/-- With the directory as the manual has it, inlining locations keep the slash. -/
theorem not_sameWay_inode : ¬SameWay "/opt/kernel/linux" "/opt/kernel/linux/fs/inode.c" := by
  intro h
  have hloc : inlinedLocation "/opt/kernel/linux" ⟨some "/opt/kernel/linux/fs/inode.c", none, 0⟩ =
      .ok ⟨"unknown", "/fs/inode.c", 0⟩ := by decide +kernel
  obtain ⟨location, hget, hfile⟩ := h.inlinedBy _ ∅ _ 0 _ 0 _ .empty (by rw [inlinedImage_search]; simp) rfl rfl
    (inlinedImage_call hloc)
  cases hget
  revert hfile
  decide

theorem sameWay_inode : SameWay "/opt/kernel/linux/" "/opt/kernel/linux/fs/inode.c" :=
  (sameWay_iff _ _ (by decide)).mpr (by decide +kernel)

end LockDoc.Convert
