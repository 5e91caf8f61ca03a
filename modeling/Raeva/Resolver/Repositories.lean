import Raeva.Library.Edits
import Raeva.Library.Forest
import Raeva.Repo.Credentials

/-!
# The shared list of repositories

The repositories of a resolution, which `ModelService` of
`rv-resolver/src/resolver/backend.rs` keeps in one list: first the project's, up
to a boundary, then those that the POMs of dependencies add.  Tables next to the
list say which keys are listed, which entries a parent lookup added and which of
those still hold an expression, and which ids the project uses or had refused.
All tables change together under their locks.
-/

namespace Raeva.Resolver

open Raeva.Repo

/-- One URL may be listed under several ids. -/
abbrev RepoKey := Text × Option Text

def repoKey (repo : Repository) : RepoKey :=
  (repo.url, repo.id)

/-- How a declaration joins the list. -/
inductive Declared where
  | lineage
  | provisional
  | effective
  | outside
  | fetched
  | reactor
  deriving DecidableEq

namespace Declared

def isDependency : Declared → Bool
  | .fetched | .reactor => true
  | _ => false

def merge (declared : Declared) (existing repo : Repository) : Repository :=
  if declared = .fetched then existing.mergeFetchedChecksumPolicies repo
  else existing.mergeChecksumPolicies repo

end Declared

structure RepoTables where
  entries : List Repository
  /-- Where the project's repositories end. -/
  projectEnd : ℕ
  generation : ℕ
  seen : Finset RepoKey
  /-- The provisional entries, with the declarations from outside the lineage that
  met them. -/
  provisional : Table RepoKey (List (Repository × Declared))
  /-- The entries that a parent lookup added. -/
  lineage : Finset RepoKey
  rootIds : Finset Text
  /-- The ids of refused declarations. -/
  held : Finset Text
  deriving DecidableEq

def usedId (repo : Repository) : Option Text :=
  repo.id.filter (!List.isEmpty ·)

namespace RepoTables

def empty : RepoTables where
  entries := []
  projectEnd := 0
  generation := 0
  seen := ∅
  provisional := ∅
  lineage := ∅
  rootIds := ∅
  held := ∅

def project (t : RepoTables) : List Repository :=
  t.entries.take t.projectEnd

def dependencies (t : RepoTables) : List Repository :=
  t.entries.drop t.projectEnd

def removeAt (t : RepoTables) (index : ℕ) : RepoTables :=
  match t.entries[index]? with
  | none => t
  | some removed =>
    { t with
      entries := t.entries.eraseIdx index
      projectEnd := t.projectEnd - 1
      seen := t.seen.erase (repoKey removed)
      provisional := t.provisional.erase (repoKey removed)
      lineage := t.lineage.erase (repoKey removed) }

/-! ## One declaration -/

def releaseId (t : RepoTables) (declared : Declared) (repo : Repository) : RepoTables :=
  match usedId repo with
  | some id => if declared = .effective then { t with held := t.held.erase id } else t
  | none => t

/-- The project uses the id of a dependency's declaration. -/
def shadows (t : RepoTables) (declared : Declared) (repo : Repository) : Bool :=
  (usedId repo).any fun id =>
    match declared with
    | .reactor => t.project.any (·.id = some id)
    | .fetched => id ∈ t.rootIds
    | _ => false

def useId (t : RepoTables) (declared : Declared) (repo : Repository) : RepoTables :=
  match usedId repo with
  | some id => if declared.isDependency then t else { t with rootIds := insert id t.rootIds }
  | none => t

/-- The entry that a declaration of the project replaces, if any.  The outer
`none` is for a declaration that gives way to the first one under its id. -/
def replaced (t : RepoTables) (defaultUrls : Finset Text) (declared : Declared)
    (repo : Repository) : Option (Option ℕ) :=
  match usedId repo with
  | none => some none
  | some id =>
    if declared.isDependency then some none
    else
      let listed (known : Repository) (default : Bool) : Bool :=
        known.id = some id && decide (known.url ∈ defaultUrls) = default
      match
        if repo.url ∉ defaultUrls ∧ declared ≠ .provisional then
          t.project.findIdx? (listed · true)
        else none with
      | some index => some (some index)
      | none =>
        match t.project.findIdx? fun known => listed known false && known.url ≠ repo.url with
        | none => some none
        | some index =>
          if declared ≠ .effective ∨ ¬ t.entries[index]?.any (repoKey · ∈ t.lineage) then none
          else some (some index)

/-- A repository that is not listed yet.  The project's go before the defaults, a
dependency's after everything. -/
def insertNew (t : RepoTables) (defaultUrls : Finset Text) (declared : Declared)
    (repo : Repository) : RepoTables :=
  let key := repoKey repo
  let t : RepoTables := { t with
    seen := insert key t.seen
    lineage :=
      if declared = .lineage ∨ declared = .provisional then insert key t.lineage else t.lineage
    provisional :=
      if declared = .provisional then t.provisional.insert key [] else t.provisional }
  if declared.isDependency then { t with entries := t.entries.insertIdx t.entries.length repo }
  else
    let index := (t.project.findIdx? fun known =>
      decide (repo.url ∉ defaultUrls) && decide (known.url ∈ defaultUrls)).getD t.projectEnd
    { t with entries := t.entries.insertIdx index repo, projectEnd := t.projectEnd + 1 }

/-- A repository that is listed.  An effective declaration replaces a provisional
entry; others make the checksum policies stricter. -/
def meetListed (t : RepoTables) (declared : Declared) (repo : Repository) : RepoTables :=
  let key := repoKey repo
  if declared = .provisional then t
  else
    match t.entries.findIdx? (repoKey · = key) with
    | none => t
    | some index =>
      match if declared = .effective then t.provisional.lookup key else none with
      | some outside =>
        { t with
          entries := t.entries.modify index fun _ =>
            outside.foldl (fun existing (other, declared) => declared.merge existing other) repo
          provisional := t.provisional.erase key }
      | none =>
        { t with
          entries :=
            if repo.hasStrictChecksumPolicy then
              t.entries.modify index (declared.merge · repo)
            else t.entries
          provisional :=
            match t.provisional.lookup key with
            | some outside =>
              if declared = .outside ∨ declared.isDependency then
                t.provisional.insert key (outside ++ [(repo, declared)])
              else t.provisional
            | none => t.provisional }

def appendRepo (defaultUrls : Finset Text) (declared : Declared) (t : RepoTables)
    (repo : Repository) : RepoTables :=
  if (usedId repo).any (· ∈ t.held) ∧ (declared = .lineage ∨ declared = .provisional) then t
  else
    let t := t.releaseId declared repo
    if t.shadows declared repo ∧ repoKey repo ∉ t.seen then t
    else
      let t := t.useId declared repo
      match t.replaced defaultUrls declared repo with
      | none => t
      | some index =>
        let t := index.elim t t.removeAt
        if repoKey repo ∈ t.seen then t.meetListed declared repo
        else t.insertNew defaultUrls declared repo

/-! ## The operations -/

def appendRepos (defaultUrls : Finset Text) (t : RepoTables) (repos : List Repository)
    (declared : Declared) : RepoTables :=
  if repos.isEmpty then t
  else repos.foldl (appendRepo defaultUrls declared) { t with generation := t.generation + 1 }

/-- Take out the project's entries under an id that a parent lookup added.  Each
round takes out one of them. -/
def retire (id : Text) : ℕ → RepoTables → RepoTables
  | 0, t => t
  | fuel + 1, t =>
    match t.project.findIdx? fun known => known.id = some id && repoKey known ∈ t.lineage with
    | none => t
    | some index => retire id fuel (t.removeAt index)

def holdRefusedId (declared : Declared) (t : RepoTables) (repo : Repository) : RepoTables :=
  match usedId repo with
  | none => t
  | some id =>
    let t := if declared = .effective then t.retire id t.projectEnd else t
    { t with rootIds := insert id t.rootIds, held := insert id t.held }

def holdRefusedIds (t : RepoTables) (refused : List Repository) (declared : Declared) :
    RepoTables :=
  refused.foldl (holdRefusedId declared) { t with generation := t.generation + 1 }

end RepoTables

section Admission

variable [UrlParser]

def admitRootLineage (config : Config) (extra : List Repository) :
    List Repository × List Repository :=
  let admissions := extra.map fun repo =>
    match repo.provenance with
    | .configured | .caller => ([repo], [])
    | .localPom => admitted repo .localPom
    | .fetchedPom => admitted repo .remoteParent
  (admissions.flatMap (·.1), admissions.flatMap (·.2))
where
  admitted (repo : Repository) (source : Declaration) :
    List Repository × List Repository :=
    let admission := screen config [repo] source
    (admission.admitted, admission.secretUrls ++ admission.blockedHttp ++ admission.dropped)

def appendRootRepos (config : Config) (defaultUrls : Finset Text) (t : RepoTables)
    (extra : List Repository) (declared : Declared) : RepoTables :=
  let (admitted, refused) := admitRootLineage config extra
  let t := if refused.isEmpty then t else t.holdRefusedIds refused declared
  t.appendRepos defaultUrls admitted declared

def extendRepos (config : Config) (defaultUrls : Finset Text) (t : RepoTables)
    (extra : List Repository) : RepoTables :=
  t.appendRepos defaultUrls (screen config extra .transitive).admitted .fetched

end Admission

/-- The repositories for the children of a dependency: those of its parent, then
each that neither they nor the project have by id. -/
def joinContext (defaultUrls : Finset Text) (t : RepoTables) (parent admitted : List Repository)
    (declared : Declared) : List Repository × RepoTables :=
  if admitted.isEmpty then (parent, t)
  else
    let t := t.appendRepos defaultUrls admitted declared
    let merged := admitted.foldl (fun merged repo =>
      let id := repo.id.getD []
      let shadowed :=
        if declared = .reactor then t.project.any (·.id = some id) else decide (id ∈ t.rootIds)
      if (!id.isEmpty && shadowed) || t.project.any (repoKey · = repoKey repo) then merged
      else
        match merged.findIdx? (·.id.getD [] = id) with
        | some index =>
          merged.modify index fun known =>
            if repoKey known = repoKey repo ∧ repo.hasStrictChecksumPolicy then
              declared.merge known repo
            else known
        | none => merged ++ [repo]) parent
    (merged, t)

end Raeva.Resolver
