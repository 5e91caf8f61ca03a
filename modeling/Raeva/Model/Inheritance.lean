import Raeva.Library.Keyed
import Raeva.Model.Pom

/-!
# Inheritance and profile injection

How the active profiles of a POM are injected into it, and how a parent chain
is merged into its first POM.
-/

namespace Raeva.Model

def managementKey (dep : Dependency) : Text × Text × Text × Option Text :=
  (dep.groupId, dep.artifactId, dep.type.getD "jar", dep.classifier.filter (!·.isEmpty))

namespace Build

def inherit (own parent : Build) : Build where
  directory := own.directory.or parent.directory
  finalName := own.finalName.or parent.finalName
  defaultGoal := own.defaultGoal.or parent.defaultGoal
  outputDirectory := own.outputDirectory.or parent.outputDirectory
  testOutputDirectory := own.testOutputDirectory.or parent.testOutputDirectory
  sourceDirectory := own.sourceDirectory.or parent.sourceDirectory
  testSourceDirectory := own.testSourceDirectory.or parent.testSourceDirectory
  scriptSourceDirectory := own.scriptSourceDirectory.or parent.scriptSourceDirectory

def injectProfile (own profile : Build) : Build :=
  { own with
    directory := profile.directory.or own.directory
    finalName := profile.finalName.or own.finalName
    defaultGoal := profile.defaultGoal.or own.defaultGoal }

end Build

section Merge

variable {α κ : Type} [DecidableEq κ]

/-- The list with the entries of each source, in order, replacing the entry with
their key or appended. -/
def mergeKeyed (key : α → κ) (target : List α) (sources : List (List α)) : List α :=
  if sources.all List.isEmpty then target
  else sources.flatten.foldl (fun merged x => Keyed.insert key x merged) (Keyed.ofList key target)

def mergeLevels (key : α → κ) (levels : List (List α)) : List α :=
  levels.foldl (fun merged level =>
    (Keyed.ofList key level).foldl (fun merged x => Keyed.insertNew key x merged) merged) []

end Merge

def mergeDependencyLevels (levels : List (List Dependency)) : List Dependency :=
  mergeLevels managementKey levels

/-- The child's managed entries first, then the parent's that it does not
override. -/
def mergeDependencyManagement (parent child : Option (List Dependency)) :
    Option (List Dependency) :=
  match child, parent with
  | none, parent => parent
  | child, none => child
  | some child, some parent => some (mergeDependencyLevels [child, parent])

def mergeRepositories (dominant recessive : List Repository) : List Repository :=
  recessive.foldl (fun merged repo => Keyed.insertNew Repository.id repo merged)
    (Keyed.ofList Repository.id dominant)

def injectRepositoriesStep (profile : Profile) (merged : List Repository) : List Repository :=
  merged ++ (Keyed.ofList Repository.id profile.repositories).filter fun repo =>
    !merged.any fun claimed => claimed.id = repo.id

def injectRepositories (own : List Repository) (active : List Profile) : List Repository :=
  if active.all (·.repositories.isEmpty) then own
  else
    own.foldl (fun merged repo => Keyed.insertNew Repository.id repo merged)
      (active.foldr injectRepositoriesStep [])

def injectModules (modules : List Text) (profile : Profile) : List Text :=
  modules ++ profile.modules.filter fun name => !modules.elem name

def injectProperty (pom : Pom) (key value : Text) : Pom :=
  if (pom.userProperties.lookup key).isNone then
    { pom with properties := pom.properties.insert key value }
  else { pom with shadowedProperties := pom.shadowedProperties.insert key value }

def injectProperties (pom : Pom) (profile : Profile) : Pom :=
  let pom := profile.properties.entries.foldl (fun pom entry => injectProperty pom entry.1 entry.2)
    pom
  { pom with build := pom.build.injectProfile profile.build }

def injectProfiles (pom : Pom) (active : List Profile) : Pom :=
  let pom := active.foldl injectProperties pom
  let managed := active.filterMap (·.dependencyManagement)
  { pom with
    dependencies := mergeKeyed managementKey pom.dependencies (active.map (·.dependencies))
    dependencyManagement :=
      if managed.isEmpty then pom.dependencyManagement
      else some (mergeKeyed managementKey (pom.dependencyManagement.getD []) managed)
    repositories := injectRepositories pom.repositories active
    modules := active.foldl injectModules pom.modules }

/-- The values that a parent gives the properties which the user hides. -/
def inheritShadowed (child parent : Pom) : Table Text Text :=
  child.userProperties.keys.foldl (fun shadowed key =>
    if (child.shadowedProperties.lookup key).isSome then shadowed
    else
      match if (parent.userProperties.lookup key).isSome then parent.shadowedProperties.lookup key
          else parent.properties.lookup key with
      | some value => shadowed.insert key value
      | none => shadowed) child.shadowedProperties

def inheritFrom (child parent : Pom) : Pom :=
  { child with
    groupId := child.groupId.or parent.groupId
    version := child.version.or parent.version
    shadowedProperties := inheritShadowed child parent
    properties := extendProperties parent.properties child.properties
    activeProfiles := child.activeProfiles ++ parent.activeProfiles
    selectedProfiles := child.selectedProfiles ++ parent.selectedProfiles
    dependencies := mergeDependencyLevels [child.dependencies, parent.dependencies]
    dependencyManagement :=
      mergeDependencyManagement parent.dependencyManagement child.dependencyManagement
    repositories := mergeRepositories child.repositories parent.repositories
    build := child.build.inherit parent.build }

/-- The effective model of a POM and its ancestors, nearest first. -/
def assemble : Pom → List Pom → Pom
  | pom, [] => { pom with repositories := mergeRepositories pom.repositories [] }
  | pom, parent :: ancestors => inheritFrom pom (assemble parent ancestors)

end Raeva.Model
