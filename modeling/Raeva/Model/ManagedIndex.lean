import Raeva.Model.Inheritance

/-!
# The index of managed dependencies

The management of a model as `build_managed_dep_index` indexes it: one entry for
each key, where entries whose keys collide are merged beforehand.  Looking up a
dependency and applying what is found fills its fields as applying the entries
with its key in turn does.
-/

namespace Raeva.Model

open List

abbrev ManagedDepKey := Text × Text × Text × Option Text

/-- Where the entry of a key is: in the management itself or among the merged
ones. -/
inductive Slot where
  | entry (dep : Dependency)
  | merged (index : ℕ)

structure ManagedIndex where
  index : Table ManagedDepKey Slot
  merged : List Dependency

def applyManagedDependency (dep managed : Dependency) : Dependency :=
  { dep with
    version := dep.version.or managed.version
    scope := dep.scope.or managed.scope
    type := dep.type.or managed.type
    classifier := dep.classifier.or managed.classifier
    systemPath := dep.systemPath.or managed.systemPath
    exclusions := if dep.exclusions.isEmpty then managed.exclusions else dep.exclusions }

namespace ManagedIndex

def empty : ManagedIndex :=
  ⟨∅, []⟩

def add (managed : ManagedIndex) (dep : Dependency) : ManagedIndex :=
  match managed.index.lookup (managementKey dep) with
  | none => { managed with index := managed.index.insert (managementKey dep) (.entry dep) }
  | some (.merged index) =>
    { managed with merged := managed.merged.modify index (applyManagedDependency · dep) }
  | some (.entry first) =>
    let index := managed.merged.length
    { index := managed.index.insert (managementKey dep) (.merged index)
      merged := (managed.merged ++ [first]).modify index (applyManagedDependency · dep) }

end ManagedIndex

def buildManagedDepIndex (management : List Dependency) : ManagedIndex :=
  management.foldl ManagedIndex.add .empty

def ManagedIndex.get? (managed : ManagedIndex) (key : ManagedDepKey) : Option Dependency :=
  match managed.index.lookup key with
  | none => none
  | some (.entry dep) => some dep
  | some (.merged index) => managed.merged[index]?

def findManagedDependencyIndexed (dep : Dependency) (managed : ManagedIndex) :
    Option Dependency :=
  managed.get? (managementKey dep)

def manageDependency (dep : Dependency) (managed : ManagedIndex) : Dependency :=
  match findManagedDependencyIndexed dep managed with
  | none => dep
  | some found => applyManagedDependency dep found

/-! ## Filling in turn -/

instance : Std.Associative applyManagedDependency where
  assoc a b c := by
    simp only [applyManagedDependency, Option.or_assoc, Dependency.mk.injEq, true_and]
    refine ⟨?_, trivial⟩
    by_cases hown : a.exclusions.isEmpty = true <;> simp [hown]

theorem foldl_applyManagedDependency (dep first : Dependency) (rest : List Dependency) :
    rest.foldl applyManagedDependency (applyManagedDependency dep first) =
      applyManagedDependency dep (rest.foldl applyManagedDependency first) :=
  foldl_assoc

/-- A dependency whose open fields are those of the first entry that sets them. -/
structure FilledFrom (dep : Dependency) (entries : List Dependency) (filled : Dependency) :
    Prop where
  kept : filled.groupId = dep.groupId ∧ filled.artifactId = dep.artifactId ∧
    filled.optional = dep.optional
  version : filled.version = dep.version.or (entries.findSome? (·.version))
  scope : filled.scope = dep.scope.or (entries.findSome? (·.scope))
  type : filled.type = dep.type.or (entries.findSome? (·.type))
  classifier : filled.classifier = dep.classifier.or (entries.findSome? (·.classifier))
  systemPath : filled.systemPath = dep.systemPath.or (entries.findSome? (·.systemPath))
  exclusions : filled.exclusions =
    (((dep :: entries).map (·.exclusions)).find? (!·.isEmpty)).getD []

theorem filledFrom_foldl (dep : Dependency) (entries : List Dependency) :
    FilledFrom dep entries (entries.foldl applyManagedDependency dep) := by
  induction entries generalizing dep with
  | nil =>
    refine ⟨⟨rfl, rfl, rfl⟩, ?_, ?_, ?_, ?_, ?_, ?_⟩
    all_goals simp
    cases dep.exclusions <;> rfl
  | cons entry entries ih =>
    have htail := ih (applyManagedDependency dep entry)
    have hor : ∀ {β : Type} (f : Dependency → Option β) (x : Option β),
        (x.or (f entry)).or (entries.findSome? f) = x.or ((entry :: entries).findSome? f) :=
      fun f x => by rw [findSome?_cons_eq_or, Option.or_assoc]
    refine ⟨htail.kept, htail.version.trans (hor _ _), htail.scope.trans (hor _ _),
      htail.type.trans (hor _ _), htail.classifier.trans (hor _ _),
      htail.systemPath.trans (hor _ _), htail.exclusions.trans ?_⟩
    rw [applyManagedDependency]
    cases hown : dep.exclusions <;> simp [hown]

/-! ## The index -/

namespace ManagedIndex

/-- Every merged slot is there, and no two keys share one. -/
structure Ok (managed : ManagedIndex) : Prop where
  bound : ∀ key index, managed.index.lookup key = some (.merged index) →
    index < managed.merged.length
  unshared : ∀ key key' index, managed.index.lookup key = some (.merged index) →
    managed.index.lookup key' = some (.merged index) → key = key'

variable {managed : ManagedIndex} {dep : Dependency}

theorem ok_empty : empty.Ok where
  bound key index h := by cases h
  unshared key key' index h := by cases h

theorem add_of_none (h : managed.index.lookup (managementKey dep) = none) :
    managed.add dep = ⟨managed.index.insert (managementKey dep) (.entry dep), managed.merged⟩ := by
  rw [add, h]

theorem add_of_entry {first : Dependency}
    (h : managed.index.lookup (managementKey dep) = some (.entry first)) :
    managed.add dep = ⟨managed.index.insert (managementKey dep) (.merged managed.merged.length),
        managed.merged ++ [applyManagedDependency first dep]⟩ := by
  simp only [add, h, modify_eq_take_drop, take_left, drop_left, modifyHead_cons]

theorem add_of_merged {index : ℕ}
    (h : managed.index.lookup (managementKey dep) = some (.merged index)) :
    managed.add dep =
      ⟨managed.index, managed.merged.modify index (applyManagedDependency · dep)⟩ := by
  rw [add, h]

theorem Ok.add (h : managed.Ok) (dep : Dependency) : (managed.add dep).Ok := by
  cases hslot : managed.index.lookup (managementKey dep) with
  | none =>
    have hold : ∀ {key index}, (managed.index.insert (managementKey dep) (.entry dep)).lookup key =
        some (.merged index) → managed.index.lookup key = some (.merged index) := by
      intro key index hkey
      rw [Table.lookup_insert_eq] at hkey
      split at hkey
      · cases hkey
      · exact hkey
    rw [add_of_none hslot]
    exact ⟨fun key index hkey => h.bound key index (hold hkey),
      fun key key' index hkey hkey' => h.unshared key key' index (hold hkey) (hold hkey')⟩
  | some slot =>
    cases slot with
    | merged index =>
      rw [add_of_merged hslot]
      exact ⟨fun key index hkey => (h.bound key index hkey).trans_eq
        (length_modify _ _ _).symm, h.unshared⟩
    | entry first =>
      -- The new slot is the first one past those in use.
      have hnew : ∀ {key index}, (managed.index.insert (managementKey dep)
          (.merged managed.merged.length)).lookup key = some (.merged index) →
          key = managementKey dep ∧ index = managed.merged.length ∨
            managed.index.lookup key = some (.merged index) ∧ index < managed.merged.length := by
        intro key index hkey
        rw [Table.lookup_insert_eq] at hkey
        split at hkey
        · rename_i heq
          cases hkey
          exact .inl ⟨heq, rfl⟩
        · exact .inr ⟨hkey, h.bound key index hkey⟩
      rw [add_of_entry hslot]
      refine ⟨fun key index hkey => ?_, fun key key' index hkey hkey' => ?_⟩
      · rw [length_append, length_singleton]
        rcases hnew hkey with ⟨-, rfl⟩ | ⟨-, hbound⟩ <;> omega
      rcases hnew hkey with ⟨hk, hindex⟩ | ⟨hk, hbound⟩ <;>
        rcases hnew hkey' with ⟨hk', hindex'⟩ | ⟨hk', hbound'⟩
      · rw [hk, hk']
      · omega
      · omega
      · exact h.unshared key key' index hk hk'

theorem Ok.get?_add (h : managed.Ok) (dep : Dependency) (key : ManagedDepKey) :
    (managed.add dep).get? key = if key = managementKey dep then
        some (((managed.get? key).map (applyManagedDependency · dep)).getD dep)
      else managed.get? key := by
  cases hslot : managed.index.lookup (managementKey dep) with
  | none =>
    rw [add_of_none hslot, get?, Table.lookup_insert_eq]
    by_cases hkey : key = managementKey dep
    · subst hkey
      simp [get?, hslot]
    · simp [hkey, get?]
  | some slot =>
    cases slot with
    | merged index =>
      have hbound := h.bound _ index hslot
      rw [add_of_merged hslot]
      by_cases hkey : key = managementKey dep
      · subst hkey
        simp [get?, hslot, hbound]
      rw [if_neg hkey, get?, get?]
      cases hother : managed.index.lookup key with
      | none => rfl
      | some slot =>
        cases slot with
        | entry other => rfl
        | merged index' =>
          have hne : index ≠ index' := by
            rintro rfl
            exact hkey (h.unshared _ _ index hother hslot)
          simp [hne]
    | entry first =>
      rw [add_of_entry hslot, get?, Table.lookup_insert_eq]
      by_cases hkey : key = managementKey dep
      · subst hkey
        simp [get?, hslot]
      rw [if_neg hkey, if_neg hkey, get?]
      cases hother : managed.index.lookup key with
      | none => rfl
      | some slot =>
        cases slot with
        | entry other => rfl
        | merged index' =>
          exact getElem?_append_left (h.bound key index' hother)

end ManagedIndex

def mergedEntries (key : ManagedDepKey) (management : List Dependency) : Option Dependency :=
  match management.filter fun entry => managementKey entry = key with
  | [] => none
  | first :: rest => some (rest.foldl applyManagedDependency first)

theorem mergedEntries_append_singleton (key : ManagedDepKey) (management : List Dependency)
    (dep : Dependency) :
    mergedEntries key (management ++ [dep]) = if key = managementKey dep then
        some (((mergedEntries key management).map (applyManagedDependency · dep)).getD dep)
      else mergedEntries key management := by
  rw [mergedEntries, mergedEntries, filter_append]
  by_cases hkey : managementKey dep = key
  · have hlast : [dep].filter (fun entry => managementKey entry = key) = [dep] := by simp [hkey]
    rw [if_pos hkey.symm, hlast]
    cases management.filter fun entry => managementKey entry = key with
    | nil => rfl
    | cons first rest => simp
  · have hlast : [dep].filter (fun entry => managementKey entry = key) = [] := by simp [hkey]
    rw [if_neg (Ne.symm hkey), hlast, append_nil]

theorem buildManagedDepIndex_get? (management : List Dependency) :
    (buildManagedDepIndex management).Ok ∧
      ∀ key, (buildManagedDepIndex management).get? key = mergedEntries key management := by
  induction management using List.reverseRecOn with
  | nil => exact ⟨ManagedIndex.ok_empty, fun key => rfl⟩
  | append_singleton management dep ih =>
    obtain ⟨hok, hget⟩ := ih
    have hstep : buildManagedDepIndex (management ++ [dep]) =
        (buildManagedDepIndex management).add dep := by
      rw [buildManagedDepIndex, foldl_append]
      rfl
    rw [hstep]
    refine ⟨hok.add dep, fun key => ?_⟩
    rw [hok.get?_add, hget, mergedEntries_append_singleton]

/-- Looking a dependency up in the index and applying what is found gives what
applying the entries with its key in list order gives, each field from the first
entry that sets it. -/
theorem manageDependency_buildManagedDepIndex (management : List Dependency) (dep : Dependency) :
    manageDependency dep (buildManagedDepIndex management) =
        (management.filter fun entry => managementKey entry = managementKey dep).foldl
          applyManagedDependency dep ∧
      FilledFrom dep (management.filter fun entry => managementKey entry = managementKey dep)
        (manageDependency dep (buildManagedDepIndex management)) := by
  have hfold : manageDependency dep (buildManagedDepIndex management) =
      (management.filter fun entry => managementKey entry = managementKey dep).foldl
        applyManagedDependency dep := by
    rw [manageDependency, findManagedDependencyIndexed, (buildManagedDepIndex_get? management).2,
      mergedEntries]
    cases management.filter fun entry => managementKey entry = managementKey dep with
    | nil => rfl
    | cons first rest => exact (foldl_applyManagedDependency dep first rest).symm
  refine ⟨hfold, ?_⟩
  rw [hfold]
  exact filledFrom_foldl dep _

end Raeva.Model
