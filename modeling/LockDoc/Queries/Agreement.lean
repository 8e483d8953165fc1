import LockDoc.Hypothesizer.Combination
import LockDoc.Queries.Counterexample

/-!
# Queries and hypotheses

The hypothesizer says that an access supports a rule if its labels contain the locks of the
rule, first in the order of the rule; a counterexample query leaves out the accesses that
its joins find. The joins see a label without its question mark, pick any occurrence of a
repeated label, and put the `EMBOTHER` locks of a rule in the order of the arguments. The
two agree on every rule for exactly those accesses where this makes no difference.
-/
namespace LockDoc.Queries

open LockDoc.Convert (SubLock)
open LockDoc.Hypothesizer (MyId LockCombination firstOccurrences)
open LockDoc.Hypothesizer.LockCombination

/-- What the joins see of a label. -/
def Label.bare (lock : Label) : Option Label :=
  match lock.place with
  | .global _ _ _ => some lock
  | .embSame e => if e.member.isSome then some ⟨.embSame { e with exact := true }, lock.subLock⟩ else none
  | .embOther e => if e.member.isSome then some ⟨.embOther { e with exact := true }, lock.subLock⟩ else none

def Access.bareLabels (a : Access) (useSubclasses : Bool) : List Label :=
  a.held.filterMap (fun l => (label useSubclasses a.allocId l).bare)

def Label.embedding (lock : Label) : Option Embedding :=
  match lock.place with
  | .global _ _ _ => none
  | .embSame e | .embOther e => some e

/-- The locks are write-side locks as the hypothesizer shows them for the database of the
access: an id stands for one lock, and a data type is used with or without subclasses. -/
structure Shown (useSubclasses : Bool) (a : Access) (locks : List Label) : Prop where
  writer : ∀ lock ∈ locks, lock.subLock = .writer
  global : ∀ lock ∈ locks, ∀ name id lockType, lock.place = .global name id lockType →
    ∀ l ∈ a.held, l.id = id → label useSubclasses a.allocId l = lock
  subclass : ∀ lock ∈ locks, ∀ other ∈ a.labels useSubclasses, ∀ e ∈ lock.embedding, ∀ e' ∈ other.embedding,
    e.dataType = e'.dataType → (e.subclass = none ↔ e'.subclass = none)

theorem Shown.subset {u : Bool} {a : Access} {locks locks' : List Label} (h : Shown u a locks) (hs : locks' ⊆ locks) :
    Shown u a locks' :=
  ⟨fun k hk => h.writer k (hs hk), fun k hk => h.global k (hs hk), fun k hk => h.subclass k (hs hk)⟩

theorem bare_of_locatable {lock : Label} (h : lock.locatable = true) : lock.bare = some lock := by
  obtain ⟨place, subLock⟩ := lock
  cases place with
  | global name id lockType => rfl
  | embSame e =>
    obtain ⟨dt, sc, m, exact⟩ := e
    simp only [Label.locatable, Bool.and_eq_true] at h
    simp [Label.bare, h]
  | embOther e =>
    obtain ⟨dt, sc, m, exact⟩ := e
    simp only [Label.locatable, Bool.and_eq_true] at h
    simp [Label.bare, h]

theorem locatable_of_bare {lock k : Label} (h : lock.bare = some k) : k.locatable = true := by
  obtain ⟨place, subLock⟩ := lock
  cases place with
  | global name id lockType =>
    cases h
    rfl
  | embSame e =>
    simp only [Label.bare, Option.ite_none_right_eq_some, Option.some.injEq] at h
    obtain ⟨hm, rfl⟩ := h
    simpa [Label.locatable] using hm
  | embOther e =>
    simp only [Label.bare, Option.ite_none_right_eq_some, Option.some.injEq] at h
    obtain ⟨hm, rfl⟩ := h
    simpa [Label.locatable] using hm

/-- The columns of an embedded lock that the joins compare are those of its bare label. -/
theorem embeddedCond_iff {u : Bool} {e e' : Embedding} {l : HeldLock} (hl : l.subLock = .writer)
    (he : (e.exact && e.member.isSome) = true)
    (hs : e.dataType = e'.dataType →
      (e.subclass = none ↔ (if u then e' else { e' with subclass := none }).subclass = none)) :
    embeddedCond e .writer e' l = true ↔
      e'.member.isSome ∧ { (if u then e' else { e' with subclass := none }) with exact := true } = e := by
  obtain ⟨dt, sc, m, ex⟩ := e
  obtain ⟨dt', sc', m', ex'⟩ := e'
  simp only [Bool.and_eq_true] at he
  obtain ⟨rfl, hm⟩ := he
  cases u with
  | false =>
    simp only [Bool.false_eq_true, if_false, iff_true] at hs
    simp only [embeddedCond, subLockCond, hl, Embedding.mk.injEq]
    grind
  | true =>
    simp only [if_true] at hs
    simp only [embeddedCond, subLockCond, hl, Embedding.mk.injEq]
    grind

/-- A held lock meets the join conditions of a lock exactly if that is its bare label. -/
theorem joinCond_iff {lockAddress : Nat → Option Nat} {u : Bool} {a : Access} {locks : List Label} {lock : Label}
    {l : HeldLock} (hs : Shown u a locks) (hk : lock ∈ locks) (hloc : lock.locatable = true) (hl : l ∈ a.held)
    (hlw : l.subLock = .writer) :
    joinCond lockAddress a.allocId lock l = true ↔ (label u a.allocId l).bare = some lock := by
  have hsub := hs.subclass lock hk (label u a.allocId l) (List.mem_map_of_mem hl)
  have hglobal := hs.global lock hk
  have hw := hs.writer lock hk
  obtain ⟨place, subLock⟩ := lock
  obtain rfl : subLock = .writer := hw
  cases place with
  | global name id lockType =>
    simp only [joinCond, reduceCtorEq, if_false, decide_eq_true_eq]
    constructor
    · intro hid
      rw [hglobal name id lockType rfl l hl hid]
      rfl
    · intro h
      cases he : l.embeddedIn with
      | none =>
        simp only [label, he, Label.bare, Option.some.injEq, Label.mk.injEq, Place.global.injEq] at h
        exact h.1.2.1
      | some ae =>
        simp only [label, he] at h
        split at h <;> simp [Label.bare] at h
  | embSame e =>
    simp only [Label.locatable] at hloc
    cases he : l.embeddedIn with
    | none => simp [joinCond, he, label, Label.bare]
    | some ae =>
      obtain ⟨b, e'⟩ := ae
      simp only [label, he] at hsub ⊢
      by_cases hb : b = a.allocId
      · simp only [hb, if_true] at hsub ⊢
        have hc := @embeddedCond_iff u e e' l hlw hloc fun hd =>
          hsub e rfl _ rfl (by rw [hd]; split <;> rfl)
        simp only [joinCond, he, Option.any_some, hb, decide_true, Bool.true_and, hc, Label.bare,
          Option.ite_none_right_eq_some, Option.some.injEq, Label.mk.injEq, Place.embSame.injEq, hlw, and_true]
        cases u <;> rfl
      · simp only [hb, if_false]
        simp [joinCond, he, hb, Label.bare]
  | embOther e =>
    simp only [Label.locatable] at hloc
    cases he : l.embeddedIn with
    | none => simp [joinCond, he, label, Label.bare]
    | some ae =>
      obtain ⟨b, e'⟩ := ae
      simp only [label, he] at hsub ⊢
      by_cases hb : b = a.allocId
      · simp only [hb, if_true]
        simp [joinCond, he, hb, Label.bare]
      · simp only [hb, if_false] at hsub ⊢
        have hc := @embeddedCond_iff u e e' l hlw hloc fun hd =>
          hsub e rfl _ rfl (by rw [hd]; split <;> rfl)
        simp only [joinCond, he, Option.any_some, ne_eq, hb, not_false_eq_true, decide_true, Bool.true_and, hc, Label.bare,
          Option.ite_none_right_eq_some, Option.some.injEq, Label.mk.injEq, Place.embOther.injEq, hlw, and_true]
        cases u <;> rfl

/-- The held locks that start later than an alias. -/
def Access.later (a : Access) (k : Option HeldLock) : List HeldLock :=
  a.held.filter (fun l => k.all (fun k => k.start < l.start))

theorem mem_later {a : Access} {k : Option HeldLock} {l : HeldLock} : l ∈ a.later k ↔ l ∈ a.held ∧ Later k l := by
  cases k <;> simp [Access.later, Later]

theorem later_none (a : Access) : a.later none = a.held := by simp [Access.later]

theorem later_ordered (a : Access) (k : Option HeldLock) : (a.later k).Pairwise (fun l m => l.start < m.start) :=
  a.ordered.sublist List.filter_sublist

theorem later_later {a : Access} {k : Option HeldLock} {l : HeldLock} (h : Later k l) :
    (a.later k).filter (fun m => l.start < m.start) = a.later (some l) := by
  unfold Access.later
  rw [List.filter_filter]
  apply List.filter_congr
  intro m _
  cases k with
  | none => simp
  | some k =>
    have hkl := h k rfl
    simp only [Option.all_some]
    by_cases hlm : l.start < m.start
    · have : k.start < m.start := by omega
      simp [hlm, this]
    · simp [hlm]

section Found

variable {lockAddress : Nat → Option Nat} {a : Access} {g : HeldLock → Option Label} {locks : List Label}

/-- With `SEQ` the locks are found exactly if they can be picked in their order. -/
theorem found_seq_iff (hg : ∀ lock ∈ locks, ∀ l ∈ a.held, joinCond lockAddress a.allocId lock l = true ↔ g l = some lock)
    {previous embOther : Option HeldLock} (ho : ∀ l, Later previous l → Later embOther l) :
    Found lockAddress a .seq previous embOther locks ↔ locks.Sublist ((a.later previous).filterMap g) := by
  induction locks generalizing previous embOther with
  | nil => simp [Found]
  | cons lock rest ih =>
    rw [Timeline.cons_sublist_iff (later_ordered a previous)]
    have hrest : ∀ l, Later previous l →
        (Found lockAddress a .seq (some l) (if lock.isEmbOther then some l else embOther) rest ↔
          rest.Sublist ((a.later (some l)).filterMap g)) := by
      intro l hl
      refine ih (fun k hk => hg k (by simp [hk])) ?_
      intro m hm
      split
      · exact hm
      · intro o ho'
        have h₁ := ho l hl o ho'
        have h₂ := hm l rfl
        omega
    constructor
    · rintro ⟨l, hl, hc, -, hp, hf⟩
      have hp := hp rfl
      refine ⟨l, mem_later.mpr ⟨hl, hp⟩, (hg lock (by simp) l hl).mp hc, ?_⟩
      rw [later_later hp]
      exact (hrest l hp).mp hf
    · rintro ⟨l, hl, hc, hf⟩
      obtain ⟨hl, hp⟩ := mem_later.mp hl
      rw [later_later hp] at hf
      exact ⟨l, hl, (hg lock (by simp) l hl).mpr hc, fun _ => ho l hp, fun _ => hp, (hrest l hp).mpr hf⟩

/-- With `ANY` they are found exactly if all are held, and the `EMBOTHER` locks among them
can be picked in their order. -/
theorem found_any_iff (hg : ∀ lock ∈ locks, ∀ l ∈ a.held, joinCond lockAddress a.allocId lock l = true ↔ g l = some lock)
    {previous embOther : Option HeldLock} :
    Found lockAddress a .any previous embOther locks ↔ (∀ lock ∈ locks, lock ∈ a.held.filterMap g) ∧
      (locks.filter Label.isEmbOther).Sublist ((a.later embOther).filterMap g) := by
  induction locks generalizing previous embOther with
  | nil => simp [Found]
  | cons lock rest ih =>
    have ih := fun l embOther => @ih (fun k hk => hg k (by simp [hk])) (some l) embOther
    have hc := hg lock (by simp)
    simp only [Found, ih, List.forall_mem_cons, List.mem_filterMap (b := lock)]
    cases ho : lock.isEmbOther with
    | true =>
      rw [List.filter_cons_of_pos ho, Timeline.cons_sublist_iff (later_ordered a embOther)]
      simp only [if_true, forall_const]
      constructor
      · rintro ⟨l, hl, hj, hlat, -, hall, hf⟩
        have hj := (hc l hl).mp hj
        refine ⟨⟨⟨l, hl, hj⟩, hall⟩, l, mem_later.mpr ⟨hl, hlat⟩, hj, ?_⟩
        rw [later_later hlat]
        exact hf
      · rintro ⟨⟨-, hall⟩, l, hl, hj, hf⟩
        obtain ⟨hl, hlat⟩ := mem_later.mp hl
        rw [later_later hlat] at hf
        exact ⟨l, hl, (hc l hl).mpr hj, hlat, by simp, hall, hf⟩
    | false =>
      rw [List.filter_cons_of_neg (by simp [ho])]
      simp only [Bool.false_eq_true, if_false, false_implies, true_and]
      constructor
      · rintro ⟨l, hl, hj, -, hall, hf⟩
        exact ⟨⟨⟨l, hl, (hc l hl).mp hj⟩, hall⟩, hf⟩
      · rintro ⟨⟨⟨l, hl, hj⟩, hall⟩, hf⟩
        exact ⟨l, hl, (hc l hl).mpr hj, by simp, hall, hf⟩

end Found

/-- What the hypothesizer says about the locks, for a numbering of the labels. -/
def Supports (u : Bool) (a : Access) (ids : Label → MyId) (n : Nat) (locks : List Label) : Prop :=
  (LockCombination.mk n ((a.labels u).map ids)).containsLocks ((locks.map ids).insertionSort (· ≤ ·)) = true

def SupportsOrder (u : Bool) (a : Access) (ids : Label → MyId) (n : Nat) (locks : List Label) : Prop :=
  Supports u a ids n locks ∧
    (LockCombination.mk n ((a.labels u).map ids)).lockOrder (locks.map ids) = locks.map ids

/-- Query and hypothesizer agree on a rule. -/
def Agrees (u : Bool) (a : Access) (lockAddress : Nat → Option Nat) (ids : Label → MyId) (n : Nat)
    (locks : List Label) : Prop :=
  (excluded lockAddress a .seq locks = .ok true ↔ SupportsOrder u a ids n locks) ∧
    (excluded lockAddress a .any locks = .ok true ↔ Supports u a ids n locks)

/-- They agree on every rule that the script makes a query for. -/
def AgreesOnAll (u : Bool) (a : Access) : Prop :=
  ∀ lockAddress ids n locks, locks.Nodup → (∃ joins, counterexampleSql .seq locks = .ok joins) → Shown u a locks →
    Set.InjOn ids { k | k ∈ locks ∨ k ∈ a.labels u } → Agrees u a lockAddress ids n locks

/-- The access gives the joins no choice: a label with a question mark stands beside the
exact one, no two labels are held in both orders, and there is at most one `EMBOTHER` label. -/
structure Plain (u : Bool) (a : Access) : Prop where
  located : ∀ k ∈ a.bareLabels u, k ∈ a.labels u
  oneOrder : Timeline.OneOrder (a.bareLabels u)
  embOther : ∀ j ∈ a.bareLabels u, ∀ k ∈ a.bareLabels u, j.isEmbOther = true → k.isEmbOther = true → j = k

section Rule

variable {u : Bool} {a : Access} {lockAddress : Nat → Option Nat} {ids : Label → MyId} {n : Nat} {locks : List Label}

theorem script_ok_iff {connector : Connector} :
    (∃ joins, counterexampleSql connector locks = .ok joins) ↔
      locks ≠ [] ∧ ∀ lock ∈ locks, lock.locatable = true := by
  unfold counterexampleSql
  constructor
  · rintro ⟨joins, h⟩
    split at h
    · cases h
    · rename_i hne
      exact ⟨hne, lockJoins_ok h⟩
  · rintro ⟨hne, hl⟩
    rw [if_neg hne]
    exact lockJoins_total 1 0 hl

/-- The outcome of the query on bare labels. -/
theorem excluded_bare_iff (hw : ∀ l ∈ a.held, l.subLock = .writer) (hs : Shown u a locks) (hne : locks ≠ [])
    (hl : ∀ lock ∈ locks, lock.locatable = true) :
    (excluded lockAddress a .seq locks = .ok true ↔ locks.Sublist (a.bareLabels u)) ∧
      (excluded lockAddress a .any locks = .ok true ↔ (∀ lock ∈ locks, lock ∈ a.bareLabels u) ∧
        (locks.filter Label.isEmbOther).Sublist (a.bareLabels u)) := by
  have hg : ∀ lock ∈ locks, ∀ l ∈ a.held, joinCond lockAddress a.allocId lock l = true ↔
      (label u a.allocId l).bare = some lock :=
    fun lock hk l hl' => joinCond_iff hs hk (hl lock hk) hl' (hw l hl')
  rw [excluded_iff, excluded_iff, found_seq_iff hg (fun _ h => h), found_any_iff hg, later_none]
  exact ⟨⟨fun h => h.2.2, fun h => ⟨hne, hl, h⟩⟩, ⟨fun h => h.2.2, fun h => ⟨hne, hl, h⟩⟩⟩

/-- Locks that are written exactly are picked from the labels in the joins' view too. -/
theorem sublist_bareLabels {g : List Label} (hl : ∀ lock ∈ g, lock.locatable = true) (h : g.Sublist (a.labels u)) :
    g.Sublist (a.bareLabels u) := by
  have hself : g.filterMap Label.bare = g := by
    rw [List.filterMap_congr (fun k hk => bare_of_locatable (hl k hk)), List.filterMap_some]
  have hsub := h.filterMap Label.bare
  rw [hself, Access.labels, List.filterMap_map] at hsub
  exact hsub

theorem mem_bareLabels {k : Label} : k ∈ a.bareLabels u ↔ ∃ lock ∈ a.labels u, lock.bare = some k := by
  simp [Access.bareLabels, Access.labels]

theorem map_ids_nodup (hn : locks.Nodup) (hi : Set.InjOn ids { k | k ∈ locks ∨ k ∈ a.labels u }) :
    (locks.map ids).Nodup :=
  hn.map_on fun _ hx _ hy he => hi (.inl hx) (.inl hy) he

/-- The hypothesizer finds the locks exactly if all of them are among the labels. -/
theorem supports_iff (hn : locks.Nodup) (hi : Set.InjOn ids { k | k ∈ locks ∨ k ∈ a.labels u }) :
    Supports u a ids n locks ↔ ∀ lock ∈ locks, lock ∈ a.labels u := by
  have hnd := map_ids_nodup hn hi
  have hsorted : ((locks.map ids).insertionSort (· ≤ ·)).Pairwise (· < ·) := by
    have hle := List.pairwise_insertionSort (· ≤ ·) (locks.map ids)
    have hne : ((locks.map ids).insertionSort (· ≤ ·)).Nodup := (List.perm_insertionSort _ _).nodup_iff.mpr hnd
    exact (hle.and hne).imp fun ⟨h₁, h₂⟩ => Nat.lt_of_le_of_ne h₁ h₂
  unfold Supports
  rw [containsLocks_iff hsorted]
  simp only [List.mem_insertionSort, List.mem_map, forall_exists_index, and_imp, forall_apply_eq_imp_iff₂]
  refine forall₂_congr fun lock hk => ⟨?_, fun h => ⟨lock, h, rfl⟩⟩
  rintro ⟨other, ho, he⟩
  rwa [← hi (.inr ho) (.inl hk) he]

/-- The locks in the order in which the hypothesizer sees them. -/
theorem lockOrder_eq_map (hn : locks.Nodup) (hi : Set.InjOn ids { k | k ∈ locks ∨ k ∈ a.labels u })
    (hm : ∀ lock ∈ locks, lock ∈ a.labels u) :
    ∃ g : List Label, (LockCombination.mk n ((a.labels u).map ids)).lockOrder (locks.map ids) = g.map ids ∧
      g.Sublist (a.labels u) ∧ g.Perm locks := by
  have hnd := map_ids_nodup hn hi
  obtain ⟨g, hg, he⟩ := List.sublist_map_iff.mp (orderFrom_sublist ((a.labels u).map ids) (locks.map ids))
  have hperm : (g.map ids).Perm (locks.map ids) := by
    rw [← he]
    refine orderFrom_perm hnd ?_
    intro x hx
    obtain ⟨lock, hk, rfl⟩ := List.mem_map.mp hx
    exact List.mem_map_of_mem (hm lock hk)
  refine ⟨g, he, hg, ?_⟩
  have hgn : g.Nodup := List.Nodup.of_map ids (hperm.nodup_iff.mpr hnd)
  refine (List.perm_ext_iff_of_nodup hgn hn).mpr fun k => ⟨fun hk => ?_, fun hk => ?_⟩
  · obtain ⟨lock, hl, he⟩ := List.mem_map.mp (hperm.mem_iff.mp (List.mem_map_of_mem hk))
    rwa [← hi (.inl hl) (.inr (hg.subset hk)) he]
  · obtain ⟨other, ho, he⟩ := List.mem_map.mp (hperm.mem_iff.mpr (List.mem_map_of_mem hk))
    rwa [← hi (.inr (hg.subset ho)) (.inl hk) he]

/-- On a plain access they agree about every rule. -/
theorem Plain.agrees (hp : Plain u a) (hw : ∀ l ∈ a.held, l.subLock = .writer) (hs : Shown u a locks)
    (hn : locks.Nodup) (hne : locks ≠ []) (hl : ∀ lock ∈ locks, lock.locatable = true)
    (hi : Set.InjOn ids { k | k ∈ locks ∨ k ∈ a.labels u }) : Agrees u a lockAddress ids n locks := by
  obtain ⟨hseq, hany⟩ := @excluded_bare_iff u a lockAddress locks hw hs hne hl
  have hmem : (∀ lock ∈ locks, lock ∈ a.bareLabels u) ↔ ∀ lock ∈ locks, lock ∈ a.labels u := by
    refine forall₂_congr fun lock hk => ⟨hp.located lock, fun h => ?_⟩
    exact mem_bareLabels.mpr ⟨lock, h, bare_of_locatable (hl lock hk)⟩
  refine ⟨?_, ?_⟩
  · rw [hseq, SupportsOrder, supports_iff hn hi]
    constructor
    · intro hsub
      have hm := hmem.mp fun lock hk => hsub.subset hk
      obtain ⟨g, he, hg, hgp⟩ := lockOrder_eq_map (n := n) hn hi hm
      have hgl : ∀ k ∈ g, k.locatable = true := fun k hk => hl k (hgp.mem_iff.mp hk)
      rw [he, hp.oneOrder.eq_of_perm (sublist_bareLabels hgl hg) hsub hgp]
      exact ⟨hm, rfl⟩
    · rintro ⟨hm, ho⟩
      obtain ⟨g, he, hg, hgp⟩ := lockOrder_eq_map (n := n) hn hi hm
      rw [ho] at he
      have hgeq : locks = g := by
        refine List.ext_getElem hgp.length_eq.symm fun i h₁ h₂ => ?_
        have hat : (locks.map ids)[i]? = (g.map ids)[i]? := by rw [he]
        simp only [List.getElem?_map, List.getElem?_eq_getElem h₁, List.getElem?_eq_getElem h₂, Option.map_some,
          Option.some.injEq] at hat
        exact hi (.inl (List.getElem_mem h₁)) (.inl (hgp.mem_iff.mp (List.getElem_mem h₂))) hat
      rw [hgeq]
      exact sublist_bareLabels (fun k hk => hl k (hgp.mem_iff.mp hk)) hg
  · rw [hany, supports_iff hn hi, ← hmem]
    refine ⟨fun h => h.1, fun h => ⟨h, ?_⟩⟩
    -- at most one of the locks is an `EMBOTHER` lock
    have hof : ∀ k ∈ locks.filter Label.isEmbOther, k ∈ a.bareLabels u ∧ k.isEmbOther = true := by
      intro k hk
      obtain ⟨hk, ho⟩ := List.mem_filter.mp hk
      exact ⟨h k hk, ho⟩
    have hnf := hn.filter Label.isEmbOther
    generalize locks.filter Label.isEmbOther = others at hof hnf
    match others with
    | [] => exact List.nil_sublist _
    | [k] => exact List.singleton_sublist.mpr (hof k (by simp)).1
    | j :: k :: rest =>
      obtain ⟨hj, hoj⟩ := hof j (by simp)
      obtain ⟨hk, hok⟩ := hof k (by simp)
      have hjk := hp.embOther j hj k hk hoj hok
      simp [hjk] at hnf

end Rule

theorem bare_writer {lock k : Label} (h : lock.bare = some k) : k.subLock = lock.subLock := by
  obtain ⟨place, subLock⟩ := lock
  cases place <;> simp only [Label.bare, Option.ite_none_right_eq_some, Option.some.injEq] at h
  · rw [← h]
  · rw [← h.2]
  · rw [← h.2]

theorem bare_embedding {lock k : Label} {e : Embedding} (h : lock.bare = some k) (he : e ∈ k.embedding) :
    ∃ e' ∈ lock.embedding, e'.dataType = e.dataType ∧ e'.subclass = e.subclass := by
  obtain ⟨place, subLock⟩ := lock
  cases place <;> simp only [Label.bare, Option.ite_none_right_eq_some, Option.some.injEq] at h
  · subst h
    exact ⟨e, he, rfl, rfl⟩
  · obtain ⟨-, rfl⟩ := h
    cases he
    exact ⟨_, rfl, rfl, rfl⟩
  · obtain ⟨-, rfl⟩ := h
    cases he
    exact ⟨_, rfl, rfl, rfl⟩

theorem bare_global {lock k : Label} {name : Option String} {id : Nat} {lockType : String} (h : lock.bare = some k)
    (hg : k.place = .global name id lockType) : lock = k := by
  obtain ⟨place, subLock⟩ := lock
  cases place <;> simp only [Label.bare, Option.ite_none_right_eq_some, Option.some.injEq] at h
  · exact h
  · rw [← h.2] at hg
    cases hg
  · rw [← h.2] at hg
    cases hg

/-- What the joins see of the labels may be passed to the script. -/
theorem Shown.bareLabels {u : Bool} {a : Access} (h : Shown u a (a.labels u)) : Shown u a (a.bareLabels u) := by
  refine ⟨?_, ?_, ?_⟩
  · intro k hk
    obtain ⟨lock, hl, hb⟩ := mem_bareLabels.mp hk
    rw [bare_writer hb]
    exact h.writer lock hl
  · intro k hk name id lockType hg l hl hid
    obtain ⟨lock, hlock, hb⟩ := mem_bareLabels.mp hk
    obtain rfl := bare_global hb hg
    exact h.global lock hlock name id lockType hg l hl hid
  · intro k hk other ho e he e' he' hd
    obtain ⟨lock, hlock, hb⟩ := mem_bareLabels.mp hk
    obtain ⟨e₀, he₀, hd₀, hs₀⟩ := bare_embedding hb he
    rw [← hs₀]
    exact h.subclass lock hlock other ho e₀ he₀ e' he' (hd₀.trans hd)

@[simp] theorem label_subLock (u : Bool) (allocId : Nat) (l : HeldLock) : (label u allocId l).subLock = l.subLock := by
  unfold label
  cases l.embeddedIn with
  | none => rfl
  | some ae =>
    dsimp only
    split <;> rfl

theorem injOn_idxOf (l : List Label) : Set.InjOn l.idxOf { k | k ∈ l } :=
  fun _ hx _ _ he => (List.idxOf_inj hx).mp he

/-- A rule of labels that are held can be numbered by their places. -/
theorem injOn_places {locks l : List Label} (h : ∀ k ∈ locks, k ∈ l) : Set.InjOn l.idxOf { k | k ∈ locks ∨ k ∈ l } :=
  (injOn_idxOf l).mono fun k hk => hk.elim (h k) id

/-- An access on which they agree about every rule is plain. -/
theorem AgreesOnAll.plain {u : Bool} {a : Access} (h : AgreesOnAll u a) (hd : Shown u a (a.labels u))
    (hw : ∀ l ∈ a.held, l.subLock = .writer) : Plain u a := by
  have hloc : ∀ k ∈ a.bareLabels u, k.locatable = true := by
    intro k hk
    obtain ⟨lock, -, hb⟩ := mem_bareLabels.mp hk
    exact locatable_of_bare hb
  -- what the agreement says about a rule of labels that the joins see
  have hrule : ∀ (ids : Label → MyId) (locks : List Label), Set.InjOn ids { k | k ∈ locks ∨ k ∈ a.labels u } →
      locks.Nodup → locks ≠ [] → (∀ k ∈ locks, k ∈ a.bareLabels u) →
      (locks.Sublist (a.bareLabels u) ↔ SupportsOrder u a ids 1 locks) ∧
      ((locks.filter Label.isEmbOther).Sublist (a.bareLabels u) ↔ ∀ k ∈ locks, k ∈ a.labels u) := by
    intro ids locks hi hn hne hk
    have hl : ∀ k ∈ locks, k.locatable = true := fun k hm => hloc k (hk k hm)
    have hs : Shown u a locks := hd.bareLabels.subset hk
    obtain ⟨hseq, hany⟩ := h (fun _ => none) _ 1 locks hn (script_ok_iff.mpr ⟨hne, hl⟩) hs hi
    obtain ⟨hseq', hany'⟩ := @excluded_bare_iff u a (fun _ => none) locks hw hs hne hl
    refine ⟨hseq'.symm.trans hseq, ?_⟩
    rw [← supports_iff hn hi, ← hany, hany']
    exact ⟨fun hf => ⟨hk, hf⟩, fun hf => hf.2⟩
  have hlocated : ∀ k ∈ a.bareLabels u, k ∈ a.labels u := by
    intro k hk
    have hi : Set.InjOn (k :: a.labels u).idxOf { j | j ∈ [k] ∨ j ∈ a.labels u } := by
      simpa only [List.mem_cons, List.not_mem_nil, or_false] using injOn_idxOf (k :: a.labels u)
    have hone := (hrule _ [k] hi (by simp) (by simp) (by simpa using hk)).2
    refine hone.mp ?_ k (by simp)
    by_cases ho : k.isEmbOther = true
    · rw [List.filter_cons_of_pos ho]
      exact List.singleton_sublist.mpr hk
    · rw [List.filter_cons_of_neg ho]
      exact List.nil_sublist _
  have hpair : ∀ j k : Label, j ≠ k → j ∈ a.bareLabels u → k ∈ a.bareLabels u →
      ([j, k].Sublist (a.bareLabels u) ↔ SupportsOrder u a (a.labels u).idxOf 1 [j, k]) ∧
      (([j, k].filter Label.isEmbOther).Sublist (a.bareLabels u) ↔ ∀ l ∈ [j, k], l ∈ a.labels u) := by
    intro j k hne hj hk
    have hmem : ∀ l ∈ [j, k], l ∈ a.bareLabels u := by simp [hj, hk]
    exact hrule _ [j, k] (injOn_places fun l hl => hlocated l (hmem l hl)) (by simpa using hne) (by simp) hmem
  have hone : Timeline.OneOrder (a.bareLabels u) := by
    intro j k hne hjk hkj
    have hj : j ∈ a.bareLabels u := hjk.subset (by simp)
    have hk : k ∈ a.bareLabels u := hjk.subset (by simp)
    have h₁ := ((hpair j k hne hj hk).1.mp hjk).2
    have h₂ := ((hpair k j (Ne.symm hne) hk hj).1.mp hkj).2
    have hids : (a.labels u).idxOf j ≠ (a.labels u).idxOf k :=
      fun he => hne (injOn_idxOf (a.labels u) (hlocated j hj) (hlocated k hk) he)
    -- the order of first occurrences does not depend on the order of the rule
    have hsame : ∀ x y : MyId, firstOccurrences [x, y] ((a.labels u).map (a.labels u).idxOf) =
        firstOccurrences [y, x] ((a.labels u).map (a.labels u).idxOf) := by
      intro x y
      unfold firstOccurrences
      congr 1
      exact List.filter_congr fun z _ => by simp [or_comm]
    rw [lockOrder_eq (by simpa using hids)] at h₁
    rw [lockOrder_eq (by simpa using Ne.symm hids)] at h₂
    simp only [List.map_cons, List.map_nil] at h₁ h₂
    rw [hsame, h₂, List.cons.injEq] at h₁
    exact hids h₁.1.symm
  refine ⟨hlocated, hone, ?_⟩
  intro j hj k hk hoj hok
  by_contra hne
  have hboth : ∀ j k : Label, j ≠ k → j ∈ a.bareLabels u → k ∈ a.bareLabels u → j.isEmbOther = true →
      k.isEmbOther = true → [j, k].Sublist (a.bareLabels u) := by
    intro j k hne hj hk hoj hok
    have hr := (hpair j k hne hj hk).2.mpr (by simp [hlocated j hj, hlocated k hk])
    rwa [List.filter_eq_self.mpr (by simp [hoj, hok])] at hr
  exact hone j k hne (hboth j k hne hj hk hoj hok) (hboth k j (Ne.symm hne) hk hj hok hoj)

/-- Query and hypothesizer agree on every rule exactly for the plain accesses. -/
theorem agreesOnAll_iff_plain {u : Bool} {a : Access} (hd : Shown u a (a.labels u)) : AgreesOnAll u a ↔ Plain u a := by
  have hw : ∀ l ∈ a.held, l.subLock = .writer := by
    intro l hl
    simpa using hd.writer (label u a.allocId l) (List.mem_map_of_mem hl)
  constructor
  · exact fun h => h.plain hd hw
  · intro hp lockAddress ids n locks hn hscript hs hi
    obtain ⟨hne, hl⟩ := script_ok_iff.mp hscript
    exact hp.agrees hw hs hn hne hl hi

/-- Write-side locks inside the accessed `inode`, and inside a `dentry` of the given id. -/
def inodeLock (start : Nat) : HeldLock :=
  ⟨start, 100, 0x7000, "spinlock_t", none, .writer, some (7, ⟨"inode", none, some "i_lock", true⟩)⟩

def dentryLock (start dentry : Nat) (member : String) : HeldLock :=
  ⟨start, dentry, 0x1000 * dentry, "spinlock_t", none, .writer, some (dentry, ⟨"dentry", none, some member, true⟩)⟩

/-- Locks without global names and without subclasses are shown as they are. -/
theorem shown_of_embedded {u : Bool} {a : Access} {locks : List Label} (hw : ∀ lock ∈ locks, lock.subLock = .writer)
    (he : ∀ lock ∈ locks, ∃ e ∈ lock.embedding, e.subclass = none)
    (hl : ∀ other ∈ a.labels u, ∃ e ∈ other.embedding, e.subclass = none) : Shown u a locks := by
  refine ⟨hw, ?_, ?_⟩
  · intro lock hk name id lockType hg
    obtain ⟨e, h, -⟩ := he lock hk
    simp [Label.embedding, hg] at h
  · intro lock hk other ho e h e' h' _
    obtain ⟨e₁, h₁, hs₁⟩ := he lock hk
    obtain ⟨e₂, h₂, hs₂⟩ := hl other ho
    rw [Option.mem_unique h h₁, Option.mem_unique h' h₂, hs₁, hs₂]

/-- The lock of an `inode`, then the lock of a `dentry`. -/
def nestedLocks : Access := ⟨7, [inodeLock 1, dentryLock 2 8 "d_lock"], by decide⟩

theorem nestedLocks_agrees : AgreesOnAll true nestedLocks := by
  have hshown : Shown true nestedLocks (nestedLocks.labels true) :=
    shown_of_embedded (by decide) (by decide +kernel) (by decide +kernel)
  refine (agreesOnAll_iff_plain hshown).mpr ⟨by decide +kernel, ?_, by decide +kernel⟩
  intro j k hne hjk hkj
  have hlen : (nestedLocks.bareLabels true).length = 2 := by decide +kernel
  have h₁ := hjk.eq_of_length (by rw [hlen]; rfl)
  have h₂ := hkj.eq_of_length (by rw [hlen]; rfl)
  rw [← h₂, List.cons.injEq] at h₁
  exact hne h₁.1

/-- The lock of a `dentry`, that of the `inode`, and that of another `dentry`. -/
def relocked : Access := ⟨7, [dentryLock 1 8 "d_lock", inodeLock 2, dentryLock 3 9 "d_lock"], by decide⟩

/-- Two different locks of other objects. -/
def twoOthers : Access := ⟨7, [dentryLock 1 8 "d_lock", dentryLock 2 8 "d_seq"], by decide⟩

/-- In the first access a `SEQ` query finds the `inode` before the second `dentry`, where the
hypothesizer sees the first; in the second an `ANY` query asks for `d_seq` before `d_lock`. -/
theorem relocked_twoOthers_disagree : ¬AgreesOnAll true relocked ∧ ¬AgreesOnAll true twoOthers := by
  refine ⟨fun h => ?_, fun h => ?_⟩
  · have hseq := (h (fun _ => none) (relocked.labels true).idxOf 1
      [label true 7 (inodeLock 2), label true 7 (dentryLock 1 8 "d_lock")] (by decide +kernel) ⟨_, rfl⟩
      (shown_of_embedded (by decide +kernel) (by decide +kernel) (by decide +kernel))
      (injOn_places (by decide +kernel))).1
    exact absurd (hseq.mp (by decide +kernel)).2 (by decide +kernel)
  · have hany := (h (fun _ => none) (twoOthers.labels true).idxOf 1
      [label true 7 (dentryLock 2 8 "d_seq"), label true 7 (dentryLock 1 8 "d_lock")] (by decide +kernel) ⟨_, rfl⟩
      (shown_of_embedded (by decide +kernel) (by decide +kernel) (by decide +kernel))
      (injOn_places (by decide +kernel))).2
    exact absurd (hany.mpr (by unfold Supports; decide +kernel)) (by decide +kernel)

end LockDoc.Queries
