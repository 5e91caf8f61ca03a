import Raeva.Lock.Ambient
import Raeva.Maven.Artifact
import Raeva.Maven.Digest
import Raeva.Maven.Snapshot

/-!
# Lockfiles

The values of `raeva.lock` in memory, `rv-lock/src/lock.rs`.
-/

namespace Raeva.Lock

inductive Scope where
  | compile
  | import
  | provided
  | runtime
  | system
  | test
  deriving DecidableEq

def Scope.asStr : Scope → Text
  | compile => "compile"
  | .import => "import"
  | provided => "provided"
  | runtime => "runtime"
  | system => "system"
  | test => "test"

def isPlatformToken (token : Text) : Bool :=
  !token.isEmpty && token.all fun c => c.isAlphanum || c == '_'

structure Platform where
  os : Text
  arch : Text
  jdk : Option Text
  valid : isPlatformToken os = true ∧ isPlatformToken arch = true
  deriving DecidableEq

def Platform.osArch (platform : Platform) : Text :=
  platform.os ++ '-' :: platform.arch

def Platform.display (platform : Platform) : Text :=
  platform.osArch ++ match platform.jdk with
    | none => []
    | some jdk => " (JDK " ++ jdk ++ [')']

abbrev RepoIds := OrderedMap Text (OrderedSet Text)

def repoIdLines (ids : RepoIds) : List (Text × Text) :=
  ids.entries.flatMap fun (origin, ids) => ids.entries.map fun id => (origin, id)

structure LockArtifact where
  coordinate : ArtifactCoord
  repoUrl : Text
  otherRepoUrls : List Text
  checksums : List Digest
  snapshot : Option SnapshotStamp
  pomSnapshot : Option SnapshotStamp
  pomBase : Bool
  pomSha256 : Option Sha256
  pomRepoUrls : List Text
  deriving DecidableEq

namespace LockArtifact

def fileOrigins (artifact : LockArtifact) : List Text :=
  artifact.repoUrl :: artifact.otherRepoUrls

/-- The origins of the file, then those of the companion POM that are not
among them. -/
def origins (artifact : LockArtifact) : List Text :=
  artifact.fileOrigins ++ artifact.pomRepoUrls.filter (· ∉ artifact.fileOrigins)

/-- The SHA-256 where the row records one, otherwise its first checksum. -/
def pin (artifact : LockArtifact) : Option Digest :=
  (artifact.checksums.find? fun checksum => checksum.algorithm = .sha256).or
    artifact.checksums.head?

def bytesDiffer (artifact other : LockArtifact) : Bool :=
  artifact.pin != other.pin || artifact.checksums.any fun mine => other.checksums.any fun theirs =>
      theirs.algorithm = mine.algorithm && theirs != mine

/-- Whether a row for the same coordinate names another file. -/
def conflictsWith (artifact other : LockArtifact) : Bool :=
  artifact.snapshot != other.snapshot || artifact.bytesDiffer other

def fileVersion (artifact : LockArtifact) : Text :=
  (artifact.snapshot.bind (·.resolvedVersion artifact.coordinate.version)).getD
    artifact.coordinate.version

def directoryVersion (artifact : LockArtifact) : Text :=
  (snapshotBaseVersion artifact.fileVersion).getD artifact.fileVersion

def coord (artifact : LockArtifact) : ArtifactCoord :=
  .of ⟨artifact.coordinate.groupId, artifact.coordinate.artifactId, artifact.fileVersion⟩
    artifact.coordinate.extension artifact.coordinate.classifier

def pomBuild (artifact : LockArtifact) : Option SnapshotStamp :=
  if artifact.pomBase then none else artifact.pomSnapshot.or artifact.snapshot

def isOwnPom (artifact : LockArtifact) : Bool :=
  artifact.coordinate.extension = "pom" && artifact.coordinate.classifier.isNone

def pomGav (artifact : LockArtifact) : Gav :=
  ⟨artifact.coordinate.groupId, artifact.coordinate.artifactId,
    (artifact.pomBuild.bind (·.resolvedVersion artifact.coordinate.version)).getD
      artifact.coordinate.version⟩

/-- The row's file below a Maven repository root. -/
def repositoryPath (artifact : LockArtifact) : Text :=
  artifactPath artifact.coord artifact.directoryVersion artifact.fileVersion

end LockArtifact

/-- The three parts of a text, if it has exactly three and none is empty. -/
def splitSupportPomCoord (coord : Text) : Option (Text × Text × Text) :=
  match Text.split coord ':' with
  | [group, artifact, version] =>
    if group.isEmpty || artifact.isEmpty || version.isEmpty then none
    else some (group, artifact, version)
  | _ => none

theorem eq_of_splitSupportPomCoord {coord group artifact version : Text}
    (h : splitSupportPomCoord coord = some (group, artifact, version)) :
    coord = group ++ ':' :: (artifact ++ ':' :: version) := by
  have hjoin : [':'].intercalate (Text.split coord ':') = coord := List.intercalate_splitOn ':'
  rw [splitSupportPomCoord] at h
  split at h
  · rename_i group' artifact' version' hsplit
    split at h
    · cases h
    · cases h
      rw [← hjoin, hsplit]
      simp [List.intercalate, List.intersperse]
  · cases h

structure SupportPom where
  repoUrl : Text
  sha256 : Sha256
  snapshot : Option SnapshotStamp
  deriving DecidableEq

namespace SupportPom

def fileGav (pin : SupportPom) (coord : Text) : Option Gav := do
  let (group, artifact, version) ← splitSupportPomCoord coord
  let fileVersion ←
    match pin.snapshot with
    | some stamp => stamp.resolvedVersion version
    | none => some version
  return ⟨group, artifact, fileVersion⟩

end SupportPom

structure LockModulePackage where
  coordinate : ArtifactCoord
  workspaceModule : Option Text
  systemPath : Option Text
  systemSha256 : Option Sha256
  directScope : Option Scope
  scope : Scope
  deriving DecidableEq

structure LockEdge where
  source : ℕ
  target : ℕ
  scope : Option Scope
  optional : Bool
  deriving DecidableEq

/-- One remote parent range selected while a model's lineage was built. -/
structure ParentRange where
  model : Text
  parent : Text
  selected : Text
  deriving DecidableEq

@[ext] structure LockModule where
  path : Text
  gav : Gav
  packaging : Text
  packages : List LockModulePackage
  edges : List LockEdge
  parentRanges : List ParentRange
  supportPoms : List Text
  deriving DecidableEq

/-- What a platform's model hash was computed from. -/
structure ModelInputs where
  profiles : List Text
  pomHashes : OrderedMap Text Sha256
  graphs : OrderedMap Text Sha256
  ambientInputs : AmbientSet
  moduleAmbientInputs : OrderedMap Text AmbientSet
  deriving DecidableEq

structure LockPlatform where
  platform : Platform
  modelHash : Text
  artifacts : List LockArtifact
  modules : List LockModule
  supportPoms : OrderedMap Text SupportPom
  modelInputs : Option ModelInputs
  repoIds : Option RepoIds
  hostInputs : Option AmbientSet
  deriving DecidableEq

structure TargetReads where
  repoIds : RepoIds
  hostInputs : AmbientSet
  deriving DecidableEq

def LockPlatform.reads (platform : LockPlatform) (repoIds : RepoIds) (ambient : AmbientSet) :
    TargetReads where
  repoIds := platform.repoIds.getD repoIds
  hostInputs := platform.hostInputs.getD (Lock.hostInputs ambient)

structure LockResolution where
  ambientInputs : AmbientSet
  commandLine : OrderedSet Text
  deriving DecidableEq

structure Lockfile where
  configHash : Option Text
  resolution : LockResolution
  platforms : List LockPlatform
  repoIds : RepoIds
  deriving DecidableEq

namespace Lockfile

def targetReads (lock : Lockfile) : List TargetReads :=
  lock.platforms.map (·.reads lock.repoIds lock.resolution.ambientInputs)

def supportPoms (lock : Lockfile) : OrderedMap Text SupportPom :=
  (lock.platforms.flatMap (·.supportPoms.entries)).foldl Ordered.insertNew Ordered.empty

end Lockfile

end Raeva.Lock
