import Raeva.Lock.Lockfile
import Raeva.Maven.Component

/-!
# Why a lockfile is refused

Each fault holds the values that its message quotes.
-/

namespace Raeva.Lock

inductive Row where
  | artifactTable (on : Platform)
  | artifact (coord : ArtifactCoord) (on : Platform)
  | supportPom (coord : Text) (on : Platform)
  | module (path : Text) (on : Platform)
  | package (path : Text) (on : Platform)
  | repoIds
  deriving DecidableEq

/-- The texts that are checked for characters that steer a terminal. -/
inductive TextField where
  | configHash
  | profileId (on : Platform)
  | pomPath (on : Platform)
  | systemPath (coord : ArtifactCoord) (path : Text) (on : Platform)
  deriving DecidableEq

inductive PathField where
  | module
  | workspaceModule
  deriving DecidableEq

inductive LockError where
  | unsafeText (field : TextField) (value : Text)
  | invalidJdk (jdk : Text) (osArch : Text)
  | invalidField (row : Row) (error : InvalidCoordinateComponent)
  | originText (row : Row)
  | snapshotOfRelease (coord : Text) (on : Platform)
  | supportPomShape (coord : Text)
  | supportPomField (coord : Text) (error : InvalidCoordinateComponent)
  | parentRange (path : Text) (on : Platform)
  | modulePath (field : PathField) (path : Text)
  | secretOrigin (row : Row) (part : Text)
  | repoId (origin id : Text)
  | malformedRepoIdLine (origin : Text)
  | duplicateRepoIdLine (origin : Text)
  | projectRelativeOrigin
  | duplicatePlatform (on : Platform)
  | mixedJdk
  | modelHash (on : Platform)
  | noModules (on : Platform)
  | duplicateModulePath (path : Text) (on : Platform)
  | duplicateModuleGav (gav : Gav) (on : Platform)
  | duplicateArtifact (coord : ArtifactCoord) (on : Platform)
  | noChecksum (coord : ArtifactCoord) (on : Platform)
  | pomSnapshot (coord : ArtifactCoord)
  | pomBase (coord : ArtifactCoord)
  | md5Checksum (coord : ArtifactCoord) (on : Platform)
  | duplicateChecksum (algorithm : HashAlgorithm) (coord : ArtifactCoord) (on : Platform)
  | ownPom (coord : ArtifactCoord) (on : Platform) (payload : List Digest) (pom : Option Sha256)
  | duplicatePackage (coord : ArtifactCoord) (path : Text) (on : Platform)
  | edgeOutOfBounds (source target packages : ℕ) (path : Text) (on : Platform)
  | workspaceAndSystem (coord : ArtifactCoord) (path : Text)
  | systemPath (coord : ArtifactCoord) (path systemPath reason : Text)
  | systemScope (coord : ArtifactCoord) (path : Text) (scope : Scope)
  | systemPathAlone (coord : ArtifactCoord) (path : Text)
  | systemSha256Alone (coord : ArtifactCoord) (path : Text)
  | noWorkspaceModule (workspace : Text) (coord : ArtifactCoord) (path : Text)
  | workspaceGav (workspace : Text) (gav : Gav) (coord : ArtifactCoord)
  | workspaceRow (coord : ArtifactCoord)
  | systemRow (coord : ArtifactCoord)
  | noArtifactRow (coord : ArtifactCoord) (path : Text)
  | noSupportPomRow (coord path : Text) (on : Platform)
  | orphanArtifact (coord : ArtifactCoord) (on : Platform)
  | targetRepoId (on : Platform) (id origin : Text)
  | targetHostInput (on : Platform) (input : AmbientInput)
  | unreadRepoId (id origin : Text)
  | unreadHostInput (input : AmbientInput)
  | conflictingFile (file : Text) (seen : ArtifactCoord) (first : Platform) (coord : ArtifactCoord)
      (other : Platform)
  | conflictingSupportPom (coord : Text) (first other : Platform)
  | conflictingSupportFile (seen coord : Text)
  | conflictingBuild (coord : ArtifactCoord) (first other : Platform)
  | conflictingPomBuild (gav seen pom : Gav)
  | conflictingPomSha256 (pom : Gav) (seen : Option Sha256) (first : Platform)
      (digest : Option Sha256) (other : Platform)
  | conflictingPomDigest (pom : Gav) (support : Text) (sha256 : Sha256) (coord : ArtifactCoord)
      (on : Platform) (digest : Option Sha256)
  | conflictingSnapshotPom (coord : Text)
  deriving DecidableEq

end Raeva.Lock
