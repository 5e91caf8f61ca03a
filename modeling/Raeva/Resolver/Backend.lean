import Raeva.Maven.Range
import Raeva.Resolver.Queue

/-!
# What the solver asks of its backend

A deterministic `Backend`: its answers are functions of the questions.  The
hints that let a backend fetch ahead, and the notes it keeps for itself, change
nothing the solver reads and are left out.
-/

namespace Raeva

structure ResolvedVersion where
  version : Version
  repo : Option RepoRef
  deriving DecidableEq

structure ResolvedProject where
  project : Project
  repoUrl : Option Text
  workspaceModule : Option Text
  deriving DecidableEq

structure Backend where
  workspaceModule : Coord → Option Text
  isReactorModule : (group artifact version : Text) → Bool
  resolveVersion : (groupId artifactId : Text) → VersionReq → RepoContext →
    Except ResolveError ResolvedVersion
  /-- All matching versions, in ascending Maven order. -/
  resolveVersions : (groupId artifactId : Text) → VersionReq → RepoContext →
    Except ResolveError (List ResolvedVersion)
  resolveSnapshotVersion : Coord → RepoContext → Except ResolveError ResolvedVersion
  fetchProject : Coord → (resolveSnapshotPom : Bool) → RepoContext →
    Except ResolveError ResolvedProject
  extendRepoContext : RepoContext → Coord → Project → RepoContext
  droppedReposOnPath : (path : List Text) → (version : Text) → (searched : List Text) → List Text
  noteWinner : Coord → PathNode → Except ResolveError Unit

end Raeva
