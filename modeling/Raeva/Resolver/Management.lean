import Raeva.Library.Forest
import Raeva.Resolver.Backend

/-!
# Dependency management

`Management` of `solver/management.rs`, with Maven's ClassicDependencyManager
rules, and what the solver applies of it to a declaration.
-/

namespace Raeva

/-- Group, artifact, effective type and effective classifier. -/
abbrev ManagementKey := Text × Text × Text × Option Text

def Dependency.managedAs (like : Dependency) (groupId artifactId : Text) : ManagementKey :=
  (groupId, artifactId, like.effectiveType, like.effectiveClassifier)

/-- The root project's effective dependencyManagement by key. -/
structure Management where
  entries : Table ManagementKey Dependency

namespace Management

def empty : Management :=
  ⟨∅⟩

/-- Each field comes from the first entry that sets it, and the exclusions of
all of them add up. -/
def merge (managed entry : Dependency) : Dependency :=
  { managed with
    version := managed.version.or entry.version
    scope := managed.scope.or entry.scope
    systemPath := managed.systemPath.or entry.systemPath
    exclusions := entry.exclusions.foldl
      (fun all exclusion => if exclusion ∈ all then all else all ++ [exclusion])
      managed.exclusions }

def insert (m : Management) (entry : Dependency) : Management :=
  if entry.version.isNone && entry.scope.isNone && entry.exclusions.isEmpty then m
  else
    let key := entry.managedAs entry.groupId entry.artifactId
    match m.entries.lookup key with
    | none => ⟨m.entries.insert key entry⟩
    | some managed => ⟨m.entries.insert key (merge managed entry)⟩

def new (entries : List Dependency) : Management :=
  entries.foldl insert empty

def entry (m : Management) (groupId artifactId : Text) (like : Dependency) : Option Dependency :=
  m.entries.lookup (like.managedAs groupId artifactId)

def managed (m : Management) (dependency : Dependency) : Option Dependency :=
  m.entry dependency.groupId dependency.artifactId dependency

end Management

/-- Management fills a missing version of the root's own dependencies and
overrides the declared one from depth 2. -/
def resolveVersionStr (management : Management) (dependency : Dependency) (depth : ℕ) :
    Except ResolveError Text :=
  let managed :=
    if 1 < depth || dependency.version.isNone then
      (management.managed dependency).bind Dependency.version
    else none
  match managed.or dependency.version with
  | some version => .ok version
  | none => .error (.missingVersion dependency.groupId dependency.artifactId)

def manage (managed dep : Dependency) (depth : ℕ) : Dependency × Bool :=
  let scope := managed.scope.filter fun _ => 1 < depth
  let dep :=
    match scope with
    | none => dep
    | some scope =>
      let dep : Dependency := { dep with scope := some scope }
      if dep.effectiveScope = Scope.system then
        { dep with systemPath := managed.systemPath.or dep.systemPath }
      else { dep with systemPath := none }
  let exclusions := managed.exclusions.foldl
    (fun all exclusion => if exclusion ∈ all then all else all ++ [exclusion]) dep.exclusions
  ({ dep with exclusions }, scope.isSome)

def applyManagedMetadata (management : Management) (item : QueueItem) : QueueItem :=
  match management.managed item.dependency with
  | none => item
  | some managed =>
    if (managed.scope.isNone || item.depth ≤ 1) && managed.exclusions.isEmpty then item
    else
      let (dependency, managedScope) := manage managed item.dependency item.depth
      { item with dependency, managedScope := item.managedScope || managedScope }

/-- The version an artifact's own management supplies for one of its
dependencies: the first matching entry that carries one. -/
def managedChildVersion (management : List Dependency) (dep : Dependency) : Option Text :=
  (management.filter fun managed =>
    managed.groupId = dep.groupId && managed.artifactId = dep.artifactId &&
      managed.effectiveType = dep.effectiveType &&
      managed.effectiveClassifier = dep.effectiveClassifier).findSome? Dependency.version

def follows (dependency : Dependency) : Bool :=
  !dependency.includesDependencies && dependency.effectiveScope ≠ .system

/-! ## What merging gives -/

section Merging

theorem foldl_addNew {α : Type*} [DecidableEq α] (l all : List α) :
    l.foldl (fun all a => if a ∈ all then all else all ++ [a]) all =
      all ++ (l.removeAll all).eraseDups := by
  induction l generalizing all with
  | nil => simp [List.removeAll]
  | cons a l ih =>
    rw [List.foldl_cons, ih]
    by_cases ha : a ∈ all
    · simp [List.removeAll, ha]
    have hrest : l.removeAll (all ++ [a]) = (l.removeAll all).filter fun b => !b == a := by
      rw [List.removeAll, List.removeAll, List.filter_filter]
      apply List.filter_congr
      intro b _
      simp [Bool.and_comm, Bool.not_or, beq_eq_decide]
    have hcons : (a :: l).removeAll all = a :: l.removeAll all := by
      simp [List.removeAll, ha]
    rw [if_neg ha, hrest, hcons, List.eraseDups_cons, List.append_assoc, List.singleton_append]

theorem eraseDups_of_nodup {α : Type*} [DecidableEq α] {l : List α} (h : l.Nodup) :
    l.eraseDups = l := by
  induction l with
  | nil => rfl
  | cons a l ih =>
    obtain ⟨ha, hl⟩ := List.nodup_cons.mp h
    have hfilter : (l.filter fun b => !b == a) = l := by
      apply List.filter_eq_self.mpr
      intro b hb
      have hne : b ≠ a := fun heq => ha (heq ▸ hb)
      simpa using hne
    rw [List.eraseDups_cons, hfilter, ih hl]

namespace Management

/-- An entry that manages neither a version nor a scope nor exclusions is dropped. -/
def keeps (entry : Dependency) : Bool :=
  !(entry.version.isNone && entry.scope.isNone && entry.exclusions.isEmpty)

def keptOf (key : ManagementKey) (entries : List Dependency) : List Dependency :=
  entries.filter fun entry => keeps entry && entry.managedAs entry.groupId entry.artifactId = key

/-- What the entries of one key say together: each field as the first of them that
sets it has it, and the exclusions of the first followed by what the others add. -/
def merged : List Dependency → Option Dependency
  | [] => none
  | first :: rest => some
      { first with
        version := (first :: rest).findSome? (·.version)
        scope := (first :: rest).findSome? (·.scope)
        systemPath := (first :: rest).findSome? (·.systemPath)
        exclusions := first.exclusions ++
          ((rest.flatMap (·.exclusions)).removeAll first.exclusions).eraseDups }

theorem foldl_merge (first : Dependency) (rest : List Dependency) :
    rest.foldl merge first = { first with
        version := first.version.or (rest.findSome? (·.version))
        scope := first.scope.or (rest.findSome? (·.scope))
        systemPath := first.systemPath.or (rest.findSome? (·.systemPath))
        exclusions := (rest.flatMap (·.exclusions)).foldl
          (fun all exclusion => if exclusion ∈ all then all else all ++ [exclusion])
          first.exclusions } := by
  induction rest generalizing first with
  | nil => simp
  | cons entry rest ih =>
    rw [List.foldl_cons, ih]
    simp only [merge, findSome?_cons_eq_or, Option.or_assoc, List.flatMap_cons, List.foldl_append]

theorem merged_cons (first : Dependency) (rest : List Dependency) :
    merged (first :: rest) = some (rest.foldl merge first) := by
  rw [merged, foldl_merge, foldl_addNew]
  simp only [findSome?_cons_eq_or]

theorem lookup_insert (m : Management) (entry : Dependency) (key : ManagementKey) :
    (m.insert entry).entries.lookup key =
      if keeps entry && entry.managedAs entry.groupId entry.artifactId = key then
        some (((m.entries.lookup key).map fun managed => merge managed entry).getD entry)
      else m.entries.lookup key := by
  rw [insert, keeps]
  split
  · rename_i hdropped
    simp [hdropped]
  rename_i hkept
  rw [Bool.not_eq_true] at hkept
  rw [hkept]
  cases hlookup : m.entries.lookup (entry.managedAs entry.groupId entry.artifactId) with
  | none | some managed =>
    by_cases hkey : entry.managedAs entry.groupId entry.artifactId = key
    · subst hkey
      simp [hlookup]
    · simp [hlookup, hkey, Ne.symm hkey]

theorem keptOf_cons (key : ManagementKey) (entry : Dependency) (entries : List Dependency) :
    keptOf key (entry :: entries) =
      if keeps entry && entry.managedAs entry.groupId entry.artifactId = key then
        entry :: keptOf key entries
      else keptOf key entries :=
  List.filter_cons

/-- What a key manages after the entries were inserted, by what it managed
before. -/
theorem lookup_foldl_insert (m : Management) (entries : List Dependency) (key : ManagementKey) :
    (entries.foldl insert m).entries.lookup key =
      (m.entries.lookup key).elim (merged (keptOf key entries))
        fun managed => some ((keptOf key entries).foldl merge managed) := by
  induction entries generalizing m with
  | nil =>
    cases h : m.entries.lookup key with
    | none => simpa [keptOf, merged] using h
    | some managed => simpa [keptOf] using h
  | cons entry entries ih =>
    rw [List.foldl_cons, ih, lookup_insert, keptOf_cons]
    split
    · cases h : m.entries.lookup key with
      | none => exact (merged_cons entry _).symm
      | some managed => rfl
    · rfl

/-- Merging is done key by key, and repeats no exclusion that the first entry of the
key does not repeat. -/
theorem entry_new (entries : List Dependency) (groupId artifactId : Text) (like : Dependency) :
    (new entries).entry groupId artifactId like =
        merged (keptOf (like.managedAs groupId artifactId) entries) ∧
      ∀ first rest, keptOf (like.managedAs groupId artifactId) entries = first :: rest →
        first.exclusions.Nodup → ((new entries).entry groupId artifactId like).map (·.exclusions) =
          some (((first :: rest).flatMap (·.exclusions)).eraseDups) := by
  have hentry : (new entries).entry groupId artifactId like =
      merged (keptOf (like.managedAs groupId artifactId) entries) := by
    rw [new, entry, lookup_foldl_insert]
    rfl
  refine ⟨hentry, ?_⟩
  intro first rest hkept hnodup
  rw [hentry, hkept, merged, Option.map_some, List.flatMap_cons, List.eraseDups_append,
    eraseDups_of_nodup hnodup]

/-- The exclusions of the only entry of a key are kept as they stand. -/
theorem entry_new_repeats : let entry : Dependency :=
      ⟨['g'], ['a'], some ['1'], none, none, none, none, [⟨['x'], ['y']⟩, ⟨['x'], ['y']⟩], none⟩
    ((new [entry]).entry ['g'] ['a'] entry).map (·.exclusions) =
        some [⟨['x'], ['y']⟩, ⟨['x'], ['y']⟩] ∧
      ¬(∃ managed ∈ (new [entry]).entry ['g'] ['a'] entry, managed.exclusions.Nodup) := by
  decide +kernel

end Management

end Merging

end Raeva
