import LockDoc.Lib.Dict
import LockDoc.Lib.Text
import LockDoc.Convert.Subclass
import LockDoc.Convert.Columns
import LockDoc.Layout.Flatten

/-!
# Blacklists

After the trace, `convert` translates two files in which data types, subclasses and members are
named into tables with their ids. A data type stands for all of its subclasses that were observed;
lines with a name that is not known are left out. As a subclass is looked up by its name alone,
the data type in front of it is not looked at.
-/
namespace LockDoc.Convert

open FallibleRun

/-- `DELIMITER_BLACKLISTS`. -/
def delimiterBlacklists : Char := ';'

/-- `types[subclass.data_type_idx].name`. -/
def State.typeName (cfg : Config) (s : Subclass) : String := ((cfg.types[s.dataTypeIdx]?).map DataType.name).getD ""

/-- The subclasses of each data type, by the name of the data type. -/
def type2id (cfg : Config) (σ : State) : Dict String (List Nat) :=
  Dict.accumulate [] (State.typeName cfg) (fun s ids => ids ++ [s.id]) σ.subclasses

/-- The last subclass of each name. -/
def subclass2id (σ : State) : Dict String Nat := Dict.accumulate 0 Subclass.name (fun s _ => s.id) σ.subclasses

/-- The column for the data type, translated; `none` is the `continue` after a message. -/
def blacklistIDs (cfg : Config) (σ : State) (dataTypeBl : String) : Option (List String) :=
  if dataTypeBl ≠ "\\N" then
    if realSubclass dataTypeBl then ((subclass2id σ).get? (subclassName dataTypeBl)).map fun id => [toString id]
    else ((type2id cfg σ).get? (dataTypeName dataTypeBl)).map fun ids => ids.map toString
  else some [dataTypeBl]

/-- The names that `addMemberName` was called with; the ids start at one. -/
def memberNamesOf (names : List Text) : List Text := names.foldl (fun known name => (Layout.addMemberName known name).2) []

def memberNameId (memberNames : List Text) (name : String) : Option Nat :=
  (memberNames.idxOf? name.toList).map (· + 1)

/-- The column for the member of a line of the function blacklist, translated. -/
def memberID (memberNames : List Text) (member : String) : Option String :=
  if member ≠ "\\N" then (memberNameId memberNames member).map toString else some member

/-- A row of `function_blacklist.csv`, as it is written. -/
structure FnBlacklistRow where
  fnBlID : Nat
  subclassId : String
  memberID : String
  fn : String
  sequence : String
  deriving DecidableEq, Repr

/-- The rows for a line, without their ids. -/
def fnBlacklistLine (cfg : Config) (σ : State) (memberNames : List Text) (inputLine : String) :
    List (String × String × String × String) :=
  match columns delimiterBlacklists inputLine with
  | [dataTypeBl, member, fn, sequence] =>
    match blacklistIDs cfg σ dataTypeBl, memberID memberNames member with
    | some ids, some memberID => ids.map fun id => (id, memberID, fn, sequence)
    | _, _ => []
  | _ => []

/-- The function blacklist; its first line is the header. -/
def fnBlacklistOFile (cfg : Config) (σ : State) (memberNames : List Text) (lines : List String) : List FnBlacklistRow :=
  (lines.tail.flatMap (fnBlacklistLine cfg σ memberNames)).mapIdx fun i r => ⟨i + 1, r.1, r.2.1, r.2.2.1, r.2.2.2⟩

/-- The rows of the member blacklist for a line. -/
def memberBlacklistLine (cfg : Config) (σ : State) (memberNames : List Text) (inputLine : String) :
    List (String × Nat) :=
  match columns delimiterBlacklists inputLine with
  | [dataTypeBl, member] =>
    match blacklistIDs cfg σ dataTypeBl, memberNameId memberNames member with
    | some ids, some memberID => ids.map fun id => (id, memberID)
    | _, _ => []
  | _ => []

def memberBlacklistOFile (cfg : Config) (σ : State) (memberNames : List Text) (lines : List String) : List (String × Nat) :=
  lines.tail.flatMap (memberBlacklistLine cfg σ memberNames)

/-- A column names a subclass by its own name, or by that of its data type. -/
def NamesSubclass (cfg : Config) (s : Subclass) (dataTypeBl : String) : Prop :=
  if realSubclass dataTypeBl then s.name = subclassName dataTypeBl else State.typeName cfg s = dataTypeName dataTypeBl

instance (cfg : Config) (s : Subclass) (dataTypeBl : String) : Decidable (NamesSubclass cfg s dataTypeBl) :=
  inferInstanceAs (Decidable (if realSubclass dataTypeBl then _ else _))

/-- What the lookups by name rest on: no two subclasses have the same name or the same id. -/
structure Distinct (subclasses : List Subclass) : Prop where
  names : (subclasses.map Subclass.name).Nodup
  ids : (subclasses.map Subclass.id).Nodup

/-- A new subclass is appended only if its name is new. -/
theorem step_names {cfg : Config} {σ σ' : State} {e : Event} (h : step cfg σ e = .ok σ')
    (hn : (σ.subclasses.map Subclass.name).Nodup) : (σ'.subclasses.map Subclass.name).Nodup := by
  have ha := step_accounted h
  change (σ'.allocs.subclasses.map Subclass.name).Nodup
  generalize σ'.allocs = v at ha
  cases ha with
  | rejected _ _ => exact hn
  | freed ts base size a ha => exact hn
  | admitted ts base size typeStr i subclasses next hfree hc =>
    cases hc with
    | known i hi => exact hn
    | fresh d hi hd =>
      rw [List.findIdx?_eq_none_iff] at hi
      refine (List.map_append ▸ List.nodup_append.mpr ⟨hn, List.nodup_singleton _, ?_⟩)
      rintro name hname other hother rfl
      obtain ⟨s, hs, rfl⟩ := List.mem_map.mp hname
      have hnew := hi s hs
      rw [List.mem_singleton.mp hother, decide_eq_false_iff_not] at hnew
      exact hnew rfl

/-- The subclasses at the end of a conversion. -/
theorem convert_distinct {cfg : Config} {trace : List Event} {σ : State} (h : convert cfg trace = .ok σ) :
    Distinct σ.subclasses := by
  obtain ⟨τ, hτ, hsub, -⟩ := convert_allocs h
  rw [hsub]
  constructor
  · exact run_invariant (C := fun _ _ => True) (I := fun σ => (σ.subclasses.map Subclass.name).Nodup)
      (fun _ _ _ hI _ hst => step_names hst hI) (fun _ _ _ _ _ _ => trivial) List.nodup_nil hτ
  · have hplace := (run_numbered hτ).place
    rw [List.nodup_iff_getElem?_ne_getElem?]
    intro i j hij hj he
    simp only [List.getElem?_map] at he
    rw [List.length_map] at hj
    have hi : i < τ.subclasses.length := hij.trans hj
    rw [List.getElem?_eq_getElem hi, List.getElem?_eq_getElem hj] at he
    simp only [Option.map_some, Option.some.injEq] at he
    rw [hplace i _ (List.getElem?_eq_getElem hi), hplace j _ (List.getElem?_eq_getElem hj)] at he
    omega

theorem toString_injective {m n : Nat} (h : toString m = toString n) : m = n :=
  Text.ofNat_injective (congrArg String.toList h)

theorem foldl_push {α β : Type} (f : α → β) (xs : List α) (ys : List β) :
    xs.foldl (fun ys x => ys ++ [f x]) ys = ys ++ xs.map f := by
  induction xs generalizing ys with
  | nil => simp
  | cons x xs ih => rw [List.foldl_cons, ih, List.map_cons, List.append_assoc, List.singleton_append]

/-- The ids under a data type are those of its subclasses. -/
theorem mem_type2id {cfg : Config} {σ : State} {name : String} {id : Nat} :
    (∃ ids, (type2id cfg σ).get? name = some ids ∧ id ∈ ids) ↔
      ∃ s ∈ σ.subclasses, State.typeName cfg s = name ∧ s.id = id := by
  rw [type2id, Dict.get?_accumulate]
  constructor
  · rintro ⟨ids, hget, hid⟩
    split at hget
    · cases hget
      rw [foldl_push, List.nil_append] at hid
      obtain ⟨s, hs, rfl⟩ := List.mem_map.mp hid
      obtain ⟨hs, hname⟩ := List.mem_filter.mp hs
      exact ⟨s, hs, of_decide_eq_true hname, rfl⟩
    · cases hget
  · rintro ⟨s, hs, hname, rfl⟩
    have hany : (σ.subclasses.any fun s => State.typeName cfg s = name) = true :=
      List.any_eq_true.mpr ⟨s, hs, decide_eq_true hname⟩
    rw [if_pos hany]
    refine ⟨_, rfl, ?_⟩
    rw [foldl_push, List.nil_append]
    exact List.mem_map_of_mem (List.mem_filter.mpr ⟨hs, decide_eq_true hname⟩)

/-- The id under a name is that of the one subclass with this name. -/
theorem get?_subclass2id {σ : State} (hd : Distinct σ.subclasses) {name : String} {id : Nat} :
    (subclass2id σ).get? name = some id ↔ ∃ s ∈ σ.subclasses, s.name = name ∧ s.id = id := by
  have hone : ∀ s ∈ σ.subclasses, s.name = name → (σ.subclasses.filter fun s => s.name = name) = [s] := by
    intro s hs hname
    have hnodup : (σ.subclasses.filter fun s => s.name = name).Nodup := hd.names.of_map _ |>.filter _
    have hall : ∀ s' ∈ σ.subclasses.filter fun s => s.name = name, s' = s := by
      intro s' hs'
      obtain ⟨hs', hname'⟩ := List.mem_filter.mp hs'
      exact List.inj_on_of_nodup_map hd.names hs' hs ((of_decide_eq_true hname').trans hname.symm)
    exact List.perm_singleton.mp ((List.perm_ext_iff_of_nodup hnodup (List.nodup_singleton s)).mpr fun s' =>
      ⟨fun h => List.mem_singleton.mpr (hall s' h),
        fun h => List.mem_singleton.mp h ▸ List.mem_filter.mpr ⟨hs, decide_eq_true hname⟩⟩)
  rw [subclass2id, Dict.get?_accumulate]
  constructor
  · intro hget
    split at hget
    · rename_i hany
      obtain ⟨s, hs, hname⟩ := List.any_eq_true.mp hany
      have hname := of_decide_eq_true hname
      rw [hone s hs hname] at hget
      cases hget
      exact ⟨s, hs, hname, rfl⟩
    · cases hget
  · rintro ⟨s, hs, hname, rfl⟩
    have hany : (σ.subclasses.any fun s => s.name = name) = true :=
      List.any_eq_true.mpr ⟨s, hs, decide_eq_true hname⟩
    rw [if_pos hany, hone s hs hname]
    rfl

/-- A name that is not `\N` is translated to the ids of the subclasses that it names. -/
theorem mem_blacklistIDs {cfg : Config} {σ : State} (hd : Distinct σ.subclasses) {s : Subclass} (hs : s ∈ σ.subclasses)
    {dataTypeBl : String} (hne : dataTypeBl ≠ "\\N") :
    (∃ ids, blacklistIDs cfg σ dataTypeBl = some ids ∧ toString s.id ∈ ids) ↔ NamesSubclass cfg s dataTypeBl := by
  have hsame : ∀ s' ∈ σ.subclasses, s'.id = s.id → s' = s := fun s' hs' he =>
    List.inj_on_of_nodup_map hd.ids hs' hs he
  unfold blacklistIDs NamesSubclass
  rw [if_pos hne]
  cases realSubclass dataTypeBl with
  | true =>
    rw [if_pos rfl, if_pos rfl]
    constructor
    · rintro ⟨texts, hmap, hid⟩
      obtain ⟨id, hget, rfl⟩ := Option.map_eq_some_iff.mp hmap
      obtain ⟨s', hs', hname, hid'⟩ := (get?_subclass2id hd).mp hget
      have he := toString_injective (List.mem_singleton.mp hid)
      rw [hsame s' hs' (hid'.trans he.symm)] at hname
      exact hname
    · intro hname
      have hget := (get?_subclass2id hd).mpr ⟨s, hs, hname, rfl⟩
      exact ⟨[toString s.id], by rw [hget]; rfl, List.mem_singleton_self _⟩
  | false =>
    rw [if_neg Bool.false_ne_true, if_neg Bool.false_ne_true]
    constructor
    · rintro ⟨texts, hmap, htext⟩
      obtain ⟨ids, hget, rfl⟩ := Option.map_eq_some_iff.mp hmap
      obtain ⟨id, hid, he⟩ := List.mem_map.mp htext
      obtain ⟨s', hs', hname, rfl⟩ := mem_type2id.mp ⟨ids, hget, hid⟩
      rw [hsame s' hs' (toString_injective he)] at hname
      exact hname
    · intro hname
      obtain ⟨ids, hget, hid⟩ := mem_type2id.mpr ⟨s, hs, hname, rfl⟩
      exact ⟨ids.map toString, by rw [hget]; rfl, List.mem_map_of_mem hid⟩

theorem memberNamesOf_nodup (names : List Text) : (memberNamesOf names).Nodup := by
  have hrun : ∀ known : List Text, known.Nodup →
      (names.foldl (fun known name => (Layout.addMemberName known name).2) known).Nodup := by
    induction names with
    | nil => exact fun _ h => h
    | cons name names ih =>
      intro known h
      rw [List.foldl_cons]
      apply ih
      unfold Layout.addMemberName
      cases hidx : known.idxOf? name with
      | some i => exact h
      | none =>
        have hnew := List.idxOf?_eq_none_iff.mp hidx
        exact List.nodup_append.mpr ⟨h, List.nodup_singleton name, fun a ha b hb he =>
          hnew (List.mem_singleton.mp hb ▸ he ▸ ha)⟩
  exact hrun [] List.nodup_nil

/-- The number of a name tells the name. -/
theorem memberNameId_eq_iff {memberNames : List Text} (hn : memberNames.Nodup) {m : Nat} {name : String}
    (hname : memberNames[m]? = some name.toList) {other : String} :
    memberNameId memberNames other = some (m + 1) ↔ other = name := by
  obtain ⟨hm, hget⟩ := List.getElem?_eq_some_iff.mp hname
  have hsucc : memberNameId memberNames other = some (m + 1) ↔ memberNames.idxOf? other.toList = some m := by
    simp [memberNameId]
  rw [hsucc, List.idxOf?_eq_some_iff]
  constructor
  · rintro ⟨_, hother, -⟩
    exact String.toList_injective (hother.symm.trans hget)
  · rintro rfl
    exact ⟨hm, hget, fun j hj he => hj.ne (hn.getElem_inj_iff.mp (he.trans hget.symm))⟩

/-- The rows for a line, read off the line. -/
theorem mem_fnBlacklistLine {cfg : Config} {σ : State} {memberNames : List Text} {line id member' fn sequence : String} :
    (id, member', fn, sequence) ∈ fnBlacklistLine cfg σ memberNames line ↔
      ∃ dataTypeBl member ids, columns delimiterBlacklists line = [dataTypeBl, member, fn, sequence] ∧
        blacklistIDs cfg σ dataTypeBl = some ids ∧ id ∈ ids ∧ memberID memberNames member = some member' := by
  unfold fnBlacklistLine
  constructor
  · intro h
    split at h
    · rename_i dataTypeBl member fn' sequence' hcol
      split at h
      · rename_i ids memberID hids hmember
        obtain ⟨id', hid, he⟩ := List.mem_map.mp h
        cases he
        exact ⟨dataTypeBl, member, ids, hcol, hids, hid, hmember⟩
      · cases h
    · cases h
  · rintro ⟨dataTypeBl, member, ids, hcol, hids, hid, hmember⟩
    rw [hcol]
    dsimp only
    rw [hids, hmember]
    exact List.mem_map_of_mem hid

theorem mem_memberBlacklistLine {cfg : Config} {σ : State} {memberNames : List Text} {line id : String} {m : Nat} :
    (id, m) ∈ memberBlacklistLine cfg σ memberNames line ↔
      ∃ dataTypeBl member ids, columns delimiterBlacklists line = [dataTypeBl, member] ∧
        blacklistIDs cfg σ dataTypeBl = some ids ∧ id ∈ ids ∧ memberNameId memberNames member = some m := by
  unfold memberBlacklistLine
  constructor
  · intro h
    split at h
    · rename_i dataTypeBl member hcol
      split at h
      · rename_i ids memberID hids hmember
        obtain ⟨id', hid, he⟩ := List.mem_map.mp h
        cases he
        exact ⟨dataTypeBl, member, ids, hcol, hids, hid, hmember⟩
      · cases h
    · cases h
  · rintro ⟨dataTypeBl, member, ids, hcol, hids, hid, hmember⟩
    rw [hcol]
    dsimp only
    rw [hids, hmember]
    exact List.mem_map_of_mem hid

end LockDoc.Convert
