import Raeva.Maven.Dependency
import Raeva.Maven.Component
import Raeva.Repo.Repository

/-!
# Repository contexts and errors

The repositories a declaration is searched in, and the failures of the
resolver.  What a not-found error lists of the repositories it searched is only
passed through, so it is kept as text.
-/

namespace Raeva

/-- A repository as contexts compare it: without where it was declared. -/
structure RepoContext.Repository where
  id : Option Text
  url : Text
  releasesEnabled : Bool
  snapshotsEnabled : Bool
  snapshotsUpdatePolicy : Repo.UpdatePolicy
  releasesUpdatePolicy : Repo.UpdatePolicy
  releasesChecksumPolicy : Repo.ChecksumPolicy
  snapshotsChecksumPolicy : Repo.ChecksumPolicy
  deriving DecidableEq

/-- Admitted transitive repositories; contexts compare by their contents. -/
structure RepoContext where
  repos : List RepoContext.Repository
  deriving DecidableEq

def RepoContext.default : RepoContext :=
  ⟨[]⟩

structure RepoRef where
  id : Option Text
  url : Text
  deriving DecidableEq

inductive ResolveError where
  | versionConflict (coord requested selected : Text)
  | relocationCycle (text : Text)
  | workspaceDependencyCycle (cycle : Text)
  | artifactNotFound (coord : Text) (searched droppedRepos : List Text)
      (classifierLike : Option Text)
  | missingVersion (groupId artifactId : Text)
  | invalidVersionRequirement (coord value : Text)
  | undefinedProperty (coord property declaredBy : Text)
  | versionNotFound (coord requirement : Text)
  | graphLimitExceeded (what : Text) (limit : ℕ) (coord : Text)
  | mediationDiverged (coord : Text) (changes : ℕ)
  | pom (text : Text)
  | version (error : VersionError)
  /-- Any other failure of the backend. -/
  | backend (text : Text)
  | declared (module : Text) (via : List Text) (error : ResolveError)
  deriving DecidableEq

namespace ResolveError

/-- The failure without the context around it. -/
def cause : ResolveError → ResolveError
  | declared _ _ error => error.cause
  | other => other

def declaredVia (error : ResolveError) (via : List Text) : ResolveError :=
  match error with
  | declared .. => error
  | error => declared [] via error

def inModelOf (error : ResolveError) (coord : Coord) : ResolveError :=
  match error with
  | declared module via inner =>
    if module.isEmpty then declared module (coord.gav :: via) inner else error
  | pom _ => error.declaredVia [coord.gav]
  | other => other

end ResolveError

/-- The first `${name}` left in `text`; of nested ones the innermost. -/
def undefinedProperty (text : Text) : Option Text := do
  let first ← Text.find "$\x7b" text
  let length ← Text.find "\x7d" (text.drop first)
  let before := text.take (first + length)
  let start ← Text.rfind "$\x7b" before
  some (before.drop (start + 2))

end Raeva
