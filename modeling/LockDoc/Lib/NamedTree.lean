import Mathlib.Data.List.Chain

/-!
# Trees whose children have names

The children of a node are a dictionary in the order of insertion, and a path of names leads
to a node. A search by name goes through the whole tree in preorder. `Apart` is what trees
that grow under the nodes of such a search keep: no two children of a node have one name, and
a node named like its parent has no children, for the search always stops at the parent.
-/

/-- The children of a node. -/
inductive Forest (κ ν : Type) where
  | nil
  | cons (name : κ) (value : ν) (children : Forest κ ν) (rest : Forest κ ν)

structure NamedTree (κ ν : Type) where
  name : κ
  value : ν
  children : Forest κ ν

namespace Forest

variable {κ ν : Type} [DecidableEq κ]

def get? (k : κ) : Forest κ ν → Option (NamedTree κ ν)
  | nil => none
  | cons name value children rest => if name = k then some ⟨name, value, children⟩ else rest.get? k

/-- Enter a node under its own name. -/
def set (t : NamedTree κ ν) : Forest κ ν → Forest κ ν
  | nil => cons t.name t.value t.children nil
  | cons name value children rest =>
    if name = t.name then cons t.name t.value t.children rest else cons name value children (rest.set t)

/-- The first node with a name, in preorder. -/
def find (k : κ) : Forest κ ν → Option (List κ)
  | nil => none
  | cons name _ children rest =>
    if name = k then some [name] else ((children.find k).map (name :: ·)).or (rest.find k)

/-- The sum of a weight over all nodes. -/
def sum (w : ν → Nat) : Forest κ ν → Nat
  | nil => 0
  | cons _ value children rest => w value + children.sum w + rest.sum w

def Apart (parent : κ) : Forest κ ν → Prop
  | nil => True
  | cons name _ children rest =>
    rest.get? name = none ∧ (name = parent → children = nil) ∧ children.Apart name ∧ rest.Apart parent

theorem name_of_get? {k : κ} {c : Forest κ ν} {t : NamedTree κ ν} (h : c.get? k = some t) : t.name = k := by
  induction c with
  | nil => cases h
  | cons name value children rest _ ih =>
    rw [get?] at h
    split at h
    · rename_i hk
      cases h
      exact hk
    · exact ih h

theorem get?_set (t : NamedTree κ ν) (c : Forest κ ν) (k : κ) :
    (c.set t).get? k = if t.name = k then some t else c.get? k := by
  induction c with
  | nil => rfl
  | cons name value children rest _ ih =>
    rw [set]
    split
    · rename_i hname
      rw [get?, get?, hname]
      split
      · rfl
      · rfl
    · rename_i hname
      rw [get?, get?, ih]
      by_cases hk : name = k
      · rw [if_pos hk, if_neg (hk ▸ Ne.symm hname), if_pos hk]
      · rw [if_neg hk, if_neg hk]

theorem sum_set (w : ν → Nat) (t : NamedTree κ ν) (c : Forest κ ν) :
    (c.set t).sum w + (c.get? t.name).elim 0 (fun s => w s.value + s.children.sum w) =
      c.sum w + (w t.value + t.children.sum w) := by
  induction c with
  | nil => simp [set, sum, get?]
  | cons name value children rest _ ih =>
    rw [set, get?]
    split
    · simp only [sum, Option.elim_some]
      omega
    · simp only [sum]
      omega

/-- A name that no search finds is no child's. -/
theorem get?_of_find {k : κ} {c : Forest κ ν} (h : c.find k = none) : c.get? k = none := by
  induction c with
  | nil => rfl
  | cons name value children rest _ ih =>
    rw [find] at h
    rw [get?]
    split
    · rename_i hk
      rw [if_pos hk] at h
      cases h
    · rename_i hk
      rw [if_neg hk, Option.or_eq_none_iff] at h
      exact ih h.2

theorem apart_get? {parent k : κ} {c : Forest κ ν} {t : NamedTree κ ν} (hc : c.Apart parent) (h : c.get? k = some t) :
    (k = parent → t.children = nil) ∧ t.children.Apart k := by
  induction c with
  | nil => cases h
  | cons name value children rest _ ih =>
    obtain ⟨-, hleaf, hchildren, hrest⟩ := hc
    rw [get?] at h
    split at h
    · rename_i hk
      cases h
      exact hk ▸ ⟨hleaf, hchildren⟩
    · exact ih hrest h

theorem apart_set {parent : κ} {c : Forest κ ν} {t : NamedTree κ ν} (hc : c.Apart parent)
    (hleaf : t.name = parent → t.children = nil) (ht : t.children.Apart t.name) : (c.set t).Apart parent := by
  induction c with
  | nil => exact ⟨rfl, hleaf, ht, trivial⟩
  | cons name value children rest _ ih =>
    obtain ⟨hfresh, hname, hchildren, hrest⟩ := hc
    rw [set]
    split
    · rename_i he
      exact ⟨he ▸ hfresh, hleaf, ht, hrest⟩
    · rename_i hne
      refine ⟨?_, hname, hchildren, ih hrest⟩
      rw [get?_set, if_neg (Ne.symm hne)]
      exact hfresh

end Forest

namespace NamedTree

variable {κ ν : Type} [DecidableEq κ]

def child (k : κ) (t : NamedTree κ ν) : Option (NamedTree κ ν) := t.children.get? k

def put (t c : NamedTree κ ν) : NamedTree κ ν := { t with children := t.children.set c }

def at? : List κ → NamedTree κ ν → Option (NamedTree κ ν)
  | [], t => some t
  | k :: p, t => (t.child k).bind (at? p)

/-- Change the node at the end of a path. -/
def modifyAt (f : NamedTree κ ν → NamedTree κ ν) : List κ → NamedTree κ ν → NamedTree κ ν
  | [], t => f t
  | k :: p, t => (t.child k).elim t fun c => t.put (modifyAt f p c)

/-- The path to the first node with a name, the tree's own root included. -/
def find (k : κ) (t : NamedTree κ ν) : Option (List κ) := if t.name = k then some [] else t.children.find k

def Apart (t : NamedTree κ ν) : Prop := t.children.Apart t.name

def total (w : ν → Nat) (t : NamedTree κ ν) : Nat := w t.value + t.children.sum w

/-- A weight of the node at the end of a path. -/
def weightAt (w : ν → Nat) (q : List κ) (t : NamedTree κ ν) : Nat := (t.at? q).elim 0 fun n => w n.value

@[simp] theorem put_name (t c : NamedTree κ ν) : (t.put c).name = t.name := rfl
@[simp] theorem put_value (t c : NamedTree κ ν) : (t.put c).value = t.value := rfl

theorem child_put (t c : NamedTree κ ν) (k : κ) : (t.put c).child k = if c.name = k then some c else t.child k :=
  Forest.get?_set c t.children k

theorem name_of_child {k : κ} {t c : NamedTree κ ν} (h : t.child k = some c) : c.name = k := Forest.name_of_get? h

/-- Entering a node twice is entering the second one. -/
theorem put_put {c d : NamedTree κ ν} (t : NamedTree κ ν) (h : c.name = d.name) : (t.put c).put d = t.put d := by
  have hset (f : Forest κ ν) : (f.set c).set d = f.set d := by
    induction f with
    | nil => simp [Forest.set, h]
    | cons name value children rest _ ih =>
      by_cases hn : name = d.name
      · simp [Forest.set, h, hn]
      · simp [Forest.set, h, hn, ih]
  exact congrArg (fun f => { t with children := f }) (hset t.children)

theorem total_put (w : ν → Nat) (t c : NamedTree κ ν) :
    (t.put c).total w + (t.child c.name).elim 0 (total w) = t.total w + c.total w := by
  have hsum := Forest.sum_set w c t.children
  have hold : (t.child c.name).elim 0 (total w) =
      (t.children.get? c.name).elim 0 (fun s => w s.value + s.children.sum w) := rfl
  rw [hold]
  simp only [total, put]
  omega

theorem apart_child {k : κ} {t c : NamedTree κ ν} (ht : t.Apart) (h : t.child k = some c) :
    (k = t.name → c.children = .nil) ∧ c.Apart := by
  have hc := Forest.apart_get? ht h
  rw [Apart, name_of_child h]
  exact hc

theorem apart_put {t c : NamedTree κ ν} (ht : t.Apart) (hleaf : c.name = t.name → c.children = .nil) (hc : c.Apart) :
    (t.put c).Apart := Forest.apart_set ht hleaf hc

theorem apart_at? {p : List κ} {t n : NamedTree κ ν} (ht : t.Apart) (hat : t.at? p = some n) : n.Apart := by
  induction p generalizing t with
  | nil =>
    cases hat
    exact ht
  | cons k p ih =>
    obtain ⟨c, hc, hat⟩ := Option.bind_eq_some_iff.mp hat
    exact ih (apart_child ht hc).2 hat

theorem at?_put (t c : NamedTree κ ν) (k : κ) (q : List κ) :
    (t.put c).at? (k :: q) = if c.name = k then c.at? q else t.at? (k :: q) := by
  rw [at?, child_put]
  split
  · rfl
  · rfl

theorem weightAt_cons (w : ν → Nat) (k : κ) (q : List κ) (t : NamedTree κ ν) :
    weightAt w (k :: q) t = (t.child k).elim 0 (weightAt w q) := by
  rw [weightAt, at?]
  cases t.child k with
  | none => rfl
  | some c => rfl

theorem weightAt_put (w : ν → Nat) (t c : NamedTree κ ν) (k : κ) (q : List κ) :
    weightAt w (k :: q) (t.put c) = if c.name = k then weightAt w q c else weightAt w (k :: q) t := by
  rw [weightAt, at?_put]
  split
  · rfl
  · rfl

/-- A path that a search among children has found. -/
theorem find_children {k parent : κ} {c : Forest κ ν} {p : List κ} (hc : c.Apart parent) (h : c.find k = some p) :
    ∃ a q d n, p = a :: q ∧ c.get? a = some d ∧ d.at? q = some n ∧ n.name = k ∧ k ∉ p.dropLast := by
  induction c generalizing p parent with
  | nil => cases h
  | cons name value children rest ihc ihr =>
    obtain ⟨hfresh, -, hchildren, hrest⟩ := hc
    rw [Forest.find] at h
    split at h
    · rename_i hk
      cases h
      refine ⟨name, [], ⟨name, value, children⟩, ⟨name, value, children⟩, rfl, ?_, rfl, hk, ?_⟩
      · rw [Forest.get?, if_pos rfl]
      · simp
    · rename_i hk
      cases hf : children.find k with
      | some q =>
        rw [hf, Option.map_some, Option.some_or] at h
        cases h
        obtain ⟨a, r, d, n, rfl, hget, hat, hname, hnot⟩ := ihc hchildren hf
        refine ⟨name, a :: r, ⟨name, value, children⟩, n, rfl, ?_, ?_, hname, ?_⟩
        · rw [Forest.get?, if_pos rfl]
        · rw [at?, child, hget]
          exact hat
        · rw [List.dropLast_cons_of_ne_nil (List.cons_ne_nil a r), List.mem_cons, not_or]
          exact ⟨Ne.symm hk, hnot⟩
      | none =>
        rw [hf, Option.map_none, Option.none_or] at h
        obtain ⟨a, q, d, n, rfl, hget, hat, hname, hnot⟩ := ihr hrest h
        refine ⟨a, q, d, n, rfl, ?_, hat, hname, hnot⟩
        rw [Forest.get?, if_neg]
        · exact hget
        · rintro rfl
          rw [hfresh] at hget
          cases hget

/-- A search ends at a node with the name, and no node before the last on the path has it. -/
theorem find_spec {k : κ} {t : NamedTree κ ν} {p : List κ} (ht : t.Apart) (h : t.find k = some p) :
    ∃ n, t.at? p = some n ∧ n.name = k ∧ k ∉ (t.name :: p).dropLast := by
  rw [find] at h
  split at h
  · rename_i hk
    cases h
    exact ⟨t, rfl, hk, List.not_mem_nil⟩
  · rename_i hk
    obtain ⟨a, q, d, n, rfl, hget, hat, hname, hnot⟩ := find_children ht h
    refine ⟨n, ?_, hname, ?_⟩
    · rw [at?, child, hget]
      exact hat
    · rw [List.dropLast_cons_of_ne_nil (List.cons_ne_nil a q), List.mem_cons, not_or]
      exact ⟨Ne.symm hk, hnot⟩

/-- A search that finds nothing: neither the root nor a child has the name. -/
theorem find_none {k : κ} {t : NamedTree κ ν} (h : t.find k = none) : t.name ≠ k ∧ t.child k = none := by
  rw [find] at h
  split at h
  · cases h
  · rename_i hk
    exact ⟨hk, Forest.get?_of_find h⟩

/-- A search that stops at the root, or at one of its children. -/
theorem find_nil {k : κ} {t : NamedTree κ ν} (ht : t.Apart) (h : t.find k = some []) : t.name = k := by
  obtain ⟨n, hat, hname, -⟩ := find_spec ht h
  cases hat
  exact hname

theorem find_singleton {k a : κ} {t : NamedTree κ ν} (ht : t.Apart) (h : t.find k = some [a]) : a = k := by
  obtain ⟨n, hat, hname, -⟩ := find_spec ht h
  rw [at?] at hat
  obtain ⟨c, hc, hn⟩ := Option.bind_eq_some_iff.mp hat
  cases hn
  rw [← hname, name_of_child hc]

section

variable {f : NamedTree κ ν → NamedTree κ ν} {p : List κ} {t n : NamedTree κ ν}

theorem name_modifyAt (hat : t.at? p = some n) (hf : (f n).name = n.name) : (t.modifyAt f p).name = t.name := by
  cases p with
  | nil =>
    cases hat
    exact hf
  | cons k p =>
    obtain ⟨c, hc, -⟩ := Option.bind_eq_some_iff.mp hat
    rw [modifyAt, hc]
    rfl

/-- A change that puts a weight at a place below the node puts it there below the tree. -/
theorem weightAt_modifyAt {w : ν → Nat} {l : List κ} {x : Nat} (hat : t.at? p = some n) (hf : (f n).name = n.name)
    (h : ∀ q, weightAt w q (f n) = weightAt w q n + if q = l then x else 0) (q : List κ) :
    weightAt w q (t.modifyAt f p) = weightAt w q t + if q = p ++ l then x else 0 := by
  induction p generalizing t q with
  | nil =>
    cases hat
    exact h q
  | cons k p ih =>
    obtain ⟨c, hc, hat⟩ := Option.bind_eq_some_iff.mp hat
    have hk : (c.modifyAt f p).name = k := (name_modifyAt hat hf).trans (name_of_child hc)
    rw [modifyAt, hc, Option.elim_some]
    cases q with
    | nil => rfl
    | cons a q =>
      rw [weightAt_put, hk]
      by_cases ha : k = a
      · subst ha
        rw [if_pos rfl, ih hat, weightAt_cons, hc]
        simp
      · rw [if_neg ha, List.cons_append, if_neg fun he => ha (List.cons.inj he).1.symm]
        rfl

theorem total_modifyAt {w : ν → Nat} {x : Nat} (hat : t.at? p = some n) (hf : (f n).name = n.name)
    (h : (f n).total w = n.total w + x) : (t.modifyAt f p).total w = t.total w + x := by
  induction p generalizing t with
  | nil =>
    cases hat
    exact h
  | cons k p ih =>
    obtain ⟨c, hc, hat⟩ := Option.bind_eq_some_iff.mp hat
    have hk : (c.modifyAt f p).name = k := (name_modifyAt hat hf).trans (name_of_child hc)
    have hput := total_put w t (c.modifyAt f p)
    rw [hk, hc, Option.elim_some, ih hat] at hput
    rw [modifyAt, hc, Option.elim_some]
    omega

/-- The nodes stay apart when the changed one is the first with its name on its path. -/
theorem apart_modifyAt (ht : t.Apart) (hat : t.at? p = some n) (hfirst : n.name ∉ (t.name :: p).dropLast)
    (hname : (f n).name = n.name) (hf : (f n).Apart) : (t.modifyAt f p).Apart := by
  induction p generalizing t with
  | nil =>
    cases hat
    exact hf
  | cons k p ih =>
    obtain ⟨c, hc, hat⟩ := Option.bind_eq_some_iff.mp hat
    obtain ⟨hleaf, hchild⟩ := apart_child ht hc
    have hck := name_of_child hc
    have hk : (c.modifyAt f p).name = k := (name_modifyAt hat hname).trans hck
    rw [List.dropLast_cons_of_ne_nil (List.cons_ne_nil k p), List.mem_cons, not_or] at hfirst
    rw [modifyAt, hc, Option.elim_some]
    refine apart_put ht (fun he => ?_) (ih hchild hat (hck ▸ hfirst.2))
    rw [hk] at he
    cases p with
    | nil =>
      cases hat
      exact absurd (hck.trans he) hfirst.1
    | cons a p =>
      -- a node on the way has a child, so it is not named like its parent
      rw [at?, child, hleaf he] at hat
      cases hat

end

/-- Along a path no node with children follows one of its own name. -/
theorem chain_of_at? {t n : NamedTree κ ν} {q : List κ} (ht : t.Apart) (hat : t.at? q = some n) :
    (t.name :: q).dropLast.IsChain (· ≠ ·) := by
  induction q generalizing t with
  | nil => exact List.isChain_nil
  | cons a q ih =>
    obtain ⟨c, hc, hat⟩ := Option.bind_eq_some_iff.mp hat
    obtain ⟨hleaf, hchild⟩ := apart_child ht hc
    have hrest := ih hchild hat
    rw [name_of_child hc] at hrest
    cases q with
    | nil => exact List.isChain_singleton _
    | cons b q =>
      rw [List.dropLast_cons_of_ne_nil (List.cons_ne_nil b q)] at hrest
      refine List.isChain_cons_cons.mpr ⟨fun he => ?_, hrest⟩
      rw [at?, child, hleaf he.symm] at hat
      cases hat

end NamedTree
