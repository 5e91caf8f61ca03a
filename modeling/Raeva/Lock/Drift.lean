import Raeva.Lock.CanonicalLock

/-!
# Drift

Whether a recorded lockfile still describes what a fresh resolution gives, and
the versions that it adopts from one that differs in the reactor's own versions
only, `rv-lock/src/drift.rs`.
-/

namespace Raeva.Lock

/-- The first way in which a fresh resolution differs from a lockfile. -/
inductive ResolutionDrift where
  | invalid
  | platforms
  | inputs
  | profiles (platform : Platform)
  | repositoryIds
  | module (platform : Platform) (path : Text)
  | artifact (platform : Platform) (coord : Text)
  | supportPom (platform : Platform) (coord : Text)
  | systemFile (path : Text)
  deriving DecidableEq

/-! ## The versions of the reactor -/

def moduleVersions (modules : List LockModule) (path : Text) : Option Text :=
  (lookupLast LockModule.path modules path).map (·.gav.version)

def renameSelections (old new : Text) (ranges : List ParentRange) : List ParentRange :=
  ranges.map fun selection =>
    if selection.model = old then { selection with model := new } else selection

/-- The GAV that a workspace package gets, if it has the version that `own`
records for its module. -/
def adoptedGav (own versions : Text → Option Text) (package : LockModulePackage) : Option Gav := do
  let path ← package.workspaceModule
  guard (own path = some package.coordinate.version)
  return { package.coordinate.gav with version := (versions path).getD [] }

def adoptPackage (own versions : Text → Option Text) (package : LockModulePackage) :
    LockModulePackage :=
  match adoptedGav own versions package with
  | some gav =>
    { package with
      coordinate := .of gav package.coordinate.extension package.coordinate.classifier }
  | none => package

def adoptSelections (own versions : Text → Option Text) (ranges : List ParentRange)
    (package : LockModulePackage) : List ParentRange :=
  match adoptedGav own versions package with
  | some gav => renameSelections package.coordinate.gav.display gav.display ranges
  | none => ranges

/-- A module with the versions of the reactor replaced, its rows not yet
sorted. -/
def replaceVersions (module : LockModule) (own versions : Text → Option Text) : LockModule :=
  let gav := { module.gav with version := (versions module.path).getD [] }
  { module with
    gav
    packages := module.packages.map (adoptPackage own versions)
    parentRanges := module.packages.foldl (adoptSelections own versions)
      (renameSelections module.gav.display gav.display module.parentRanges) }

/-- A module with the reactor's own versions replaced; a module without a version
in `versions` gets the empty one. -/
def withModuleVersions (module : LockModule) (own versions : Text → Option Text) : LockModule :=
  canonicalizeModule (replaceVersions module own versions)

/-! ## Comparing -/

def systemFileDrift (left right : LockModule) : Option Text :=
  if left.packages.length = right.packages.length then
    (left.packages.zip right.packages).findSome? fun (l, r) =>
      if l.systemPath = r.systemPath ∧ l.systemSha256 ≠ r.systemSha256 then l.systemPath else none
  else none

def modulePairDrift (platform : Platform) (own fresh : Text → Option Text)
    (left right : LockModule) : Option ResolutionDrift :=
  if left.path ≠ right.path then some (.module platform left.path)
  else
    match systemFileDrift left right with
    | some path => some (.systemFile path)
    | none =>
      -- A bump of the reactor's own versions is no drift.
      if left ≠ right ∧ withModuleVersions left own (fun _ => none) ≠
          withModuleVersions right fresh (fun _ => none) then
        some (.module platform left.path)
      else none

def firstOtherPath (left right : List LockModule) : Option Text :=
  let paths (modules : List LockModule) : List Text := modules.map (·.path)
  (sortedValues
    ((paths left).filter (· ∉ paths right) ++ (paths right).filter (· ∉ paths left))).head?

def moduleDrift (lhs rhs : LockPlatform) : Option ResolutionDrift :=
  if lhs.modules.length ≠ rhs.modules.length then
    some (.module lhs.platform ((firstOtherPath lhs.modules rhs.modules).getD []))
  else
    (lhs.modules.zip rhs.modules).findSome? fun (left, right) =>
      modulePairDrift lhs.platform (moduleVersions lhs.modules) (moduleVersions rhs.modules)
        left right

/-- Whether two rows for one coordinate name different repositories and nothing
proves that they pin the same file from a repository that `declared`
accepts. -/
def originDrifted (l r : LockArtifact) (declared : Text → Bool) : Bool :=
  if l.otherRepoUrls ≠ r.otherRepoUrls ∨ l.pomRepoUrls ≠ r.pomRepoUrls then true
  else if l.repoUrl = r.repoUrl then false
  else if !declared l.repoUrl || isSnapshotVersion l.fileVersion || isSnapshotVersion r.fileVersion
  then true
  else
    match l.pin, r.pin with
    | some lhs, some rhs => lhs ≠ rhs
    | _, _ => true

def checksumDrifted (l r : LockArtifact) : Bool :=
  l.checksums ≠ r.checksums

def artifactsByCoordinate (platform : LockPlatform) :
    Ordered fun artifact : LockArtifact => artifact.coordinate.sortKey :=
  .ofList platform.artifacts

def artifactDrift (lhs rhs : LockPlatform) (declared : Text → Bool) : Option ResolutionDrift :=
  let drift (coordinate : ArtifactCoord) := ResolutionDrift.artifact lhs.platform coordinate.display
  let left := artifactsByCoordinate lhs
  let right := artifactsByCoordinate rhs
  let added := right.entries.find? fun artifact => !left.contains artifact.coordinate.sortKey
  match added with
  | some artifact => some (drift artifact.coordinate)
  | none =>
    left.entries.findSome? fun l =>
      match right.find? l.coordinate.sortKey with
      | none => some (drift l.coordinate)
      | some r =>
        if originDrifted l r declared || l.snapshot != r.snapshot || l.pomBuild != r.pomBuild ||
            l.pomSha256 != r.pomSha256 || checksumDrifted l r then
          some (drift l.coordinate)
        else none

def conditionOutcome : AmbientInput → Option (Text × Bool)
  | .condition tested holds => some (tested.display, holds)
  | _ => none

def outcomes (inputs : AmbientSet) : List (Text × Bool) :=
  inputs.entries.filterMap conditionOutcome

def outcome (inputs : AmbientSet) (condition : Text) : Option Bool :=
  (lookupLast Prod.fst (outcomes inputs) condition).map Prod.snd

/-- Whether the configuration differs, or a condition that both lockfiles
record. -/
def inputsDrifted (onDisk fresh : Lockfile) : Bool :=
  let lhs := onDisk.resolution.ambientInputs
  let rhs := fresh.resolution.ambientInputs
  (lhs = rhs && onDisk.configHash != fresh.configHash) ||
    ((outcomes lhs).map Prod.fst).any fun condition =>
      match outcome lhs condition, outcome rhs condition with
      | some holds, some now => now != holds
      | _, _ => false

def supportPomDiffers (declared : Text → Bool) (coord : Text) :
    Option SupportPom → Option SupportPom → Bool
  | some l, some r =>
    l.sha256 != r.sha256 || l.snapshot != r.snapshot ||
      (l.repoUrl != r.repoUrl && (!declared l.repoUrl || match splitSupportPomCoord coord with
        | none => true
        | some (_, _, version) => isSnapshotVersion version))
  | _, _ => true

def supportPomDrift (lhs rhs : LockPlatform) (declared : Text → Bool) : Option ResolutionDrift :=
  ((lhs.supportPoms.keys ++ rhs.supportPoms.keys).find? fun coord =>
    supportPomDiffers declared coord
    (lhs.supportPoms.lookup coord) (rhs.supportPoms.lookup coord)).map (.supportPom lhs.platform)

def profilesDrifted (lhs rhs : LockPlatform) : Bool :=
  lhs.modelInputs.any fun inputs =>
    !rhs.modelInputs.any fun fresh => inputs.profiles = fresh.profiles

def platformDrift (declared : Platform → Text → Bool) (lhs rhs : LockPlatform) :
    Option ResolutionDrift :=
  if lhs.platform ≠ rhs.platform then some .platforms
  else if profilesDrifted lhs rhs then some (.profiles lhs.platform)
  else
    (moduleDrift lhs rhs).or <| (artifactDrift lhs rhs (declared lhs.platform)).or <|
      supportPomDrift lhs rhs (declared lhs.platform)

def resolutionDrift [Lowercase] [UrlParser] [ContentHash] (lock fresh : Lockfile)
    (declared : Platform → Text → Bool) : Option ResolutionDrift :=
  match canonical lock, canonical fresh with
  | .ok a, .ok b =>
    if inputsDrifted a b then some .inputs
    else if a.repoIds ≠ b.repoIds then some .repositoryIds
    else if a.platforms.length ≠ b.platforms.length then some .platforms
    else (a.platforms.zip b.platforms).findSome? fun (lhs, rhs) => platformDrift declared lhs rhs
  | _, _ => some .invalid

/-! ## Adopting -/

/-- The versions that a platform adopts: the fresh ones, and its own for modules
that the fresh platform does not have. -/
def adoptedVersions (platform found : LockPlatform) (path : Text) : Option Text :=
  (moduleVersions found.modules path).or (moduleVersions platform.modules path)

def adoptFrom (found platform : LockPlatform) : LockPlatform :=
  { platform with
    modules := platform.modules.map fun module =>
      withModuleVersions module (moduleVersions platform.modules) (adoptedVersions platform found) }

def adoptPlatform (fresh : Lockfile) (platform : LockPlatform) : LockPlatform :=
  match fresh.platforms.find? fun entry => entry.platform = platform.platform with
  | none => platform
  | some found => adoptFrom found platform

def adoptModuleVersions (lock fresh : Lockfile) : Lockfile :=
  { lock with platforms := lock.platforms.map (adoptPlatform fresh) }

end Raeva.Lock
