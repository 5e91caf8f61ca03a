import Mathlib.Data.Finset.Basic
import Mathlib.Data.Finset.Dedup
import Raeva.Library.Checks
import Raeva.Library.Forest
import Raeva.Library.Ordered
import Raeva.Maven.Layout

/-!
# Export destinations

`planned_destinations` of `rv-export/src/export.rs`: every file that an export
writes into a local repository claims its path and the directories above it under
all the names they may take on the volume, before anything is written.

The Unicode tables are parameters.  A path is a text; two paths are equal when
their components are, as in the standard library on Unix.
-/

namespace Raeva.Export

/-! ## Paths -/

abbrev Path := List Text

def segments (text : Text) : Path :=
  (Text.split text '/').filter fun segment => segment ≠ [] ∧ segment ≠ ['.']

def components (text : Text) : Path :=
  if Text.startsWith text ['/'] then ['/'] :: segments text
  else if (Text.split text '/').head? = some ['.'] then ['.'] :: segments text
  else segments text

def join (base part : Text) : Text :=
  if Text.startsWith part ['/'] then part
  else if base.isEmpty || Text.endsWith base ['/'] then base ++ part
  else base ++ '/' :: part

/-- Rust's `Path::parent` where no segment is empty or a dot. -/
def parent (text : Text) : Text :=
  (Text.rsplitOnce text '/').elim [] Prod.fst

def fileName (path : Path) : Option Text :=
  path.getLast?.filter fun name => name ∉ ["/".toList, ".".toList, "..".toList]

/-! ## Names -/

/-- `AUX`, `NUL`, `PRN`, `CON`, and `COM` or `LPT` with a number. -/
def isDeviceName (stem : Text) : Bool :=
  stem ∈ ["AUX".toList, "NUL".toList, "PRN".toList, "CON".toList] ||
    ((Text.stripPrefix stem "COM").or (Text.stripPrefix stem "LPT")).any fun number =>
      match number with
      | [c] => ('1' ≤ c && c ≤ '9') || c ∈ ['¹', '²', '³']
      | _ => false

def utf16Len (text : Text) : ℕ :=
  (text.map fun c => if 0x10000 ≤ c.toNat then 2 else 1).sum

def plainNameIsSafe (name : Text) : Bool :=
  !(name.isEmpty || 255 < utf16Len name || Text.endsWith name ['.'] || Text.endsWith name [' '] ||
      name.any fun c => c.toNat ≤ 31 || c ∈ ['<', '>', ':', '"', '/', '\\', '|', '?', '*']) &&
    !isDeviceName (((name.takeWhile (· ≠ '.')).rdropWhile (· == ' ')).map Char.toUpper)

def isShortNameAlias (name : Text) : Bool :=
  let (stem, extension) :=
    match Text.rsplitOnce name '.' with
    | some (stem, extension) => (stem, some extension)
    | none => (name, none)
  if '.' ∈ stem || extension.any fun extension => extension.isEmpty || 3 < extension.length then
    false
  else
    match Text.rsplitOnce stem '~' with
    | none => false
    | some (before, number) =>
      !before.isEmpty && !number.isEmpty && number.all Text.isAsciiDigit &&
        before.length + 1 + number.length ≤ 8

def isMetadataRepoId (id : Text) : Bool :=
  !id.isEmpty && !(id.any fun c => c.toNat < 0x20 || (0x7F ≤ c.toNat && c.toNat ≤ 0x9F) ||
      c ∈ ['\\', '/', ':', '"', '<', '>', '|', '?', '*']) &&
    plainNameIsSafe ("maven-metadata-" ++ id ++ ".xml")

/-- The Unicode tables for names, the volume's normalisation on macOS, and how a
text is shown in quotes. -/
class Folding where
  toUppercase : Text → Text
  foldString : Text → Text
  nfd : Text → Text
  nfc : Text → Text
  macos : Bool
  debug : Text → Text

section Names

variable [Lowercase] [Folding]

def names (foldsCase : Bool) (path : Path) : List Text :=
  let name := Text.join ['/'] path
  let names :=
    if foldsCase then
      [name, Folding.nfd name].flatMap fun name =>
        [Lowercase.toLowercase name, Lowercase.toLowercase (Folding.toUppercase name),
          Folding.foldString name]
    else [name]
  let names := if foldsCase || Folding.macos then names.map Folding.nfc else names
  (sortBy id names).dedup

theorem names_ne_nil (foldsCase : Bool) (path : Path) : names foldsCase path ≠ [] := by
  have hmem : ∀ {l : List Text}, l ≠ [] → (sortBy id l).dedup ≠ [] := by
    intro l hl
    obtain ⟨name, hname⟩ := List.exists_mem_of_ne_nil l hl
    exact List.ne_nil_of_mem (List.mem_dedup.mpr ((mem_sortBy id).mpr hname))
  apply hmem
  cases foldsCase <;> cases Folding.macos <;> simp

end Names

/-! ## Claims -/

inductive ExportError where
  | destinationCollision (first second : Text) (path : Path)
  | caseCollision (first second : Text) (path : Path)
  | invalidCoordinate (coordinate : Option Gav) (error : InvalidCoordinateComponent)
  | windowsUnsafeName (coordinate name : Text)
  | shortNameAlias (coordinate name : Text)
  /-- The `expect` on a path without a file name. -/
  | noFileName (path : Path)
  deriving DecidableEq

structure DestinationClaim where
  path : Path
  owner : Text
  directory : Bool
  /-- Directories of groups may share different spellings. -/
  group : Bool
  deriving DecidableEq

structure DestinationPaths where
  claims : List DestinationClaim
  /-- The claim of each name. -/
  index : Table Text ℕ
  metadataNames : Finset Text
  cleanupNames : Finset Text
  foldsCase : Bool

namespace DestinationPaths

def meetClaim (path : Path) (owner : Text) (directory group : Bool)
    (claims : List DestinationClaim) (index : ℕ) : Except ExportError (List DestinationClaim) :=
  match claims[index]? with
  | none => .ok claims
  | some first =>
    let refused : ExportError :=
      if first.path ≠ path then .caseCollision first.owner owner path
      else .destinationCollision first.owner owner path
    if first.directory && directory then
      if first.path = path || first.group || group then
        .ok (if group then claims else claims.set index { first with path, owner, group := false })
      else .error refused
    else if !first.directory && !directory && first.owner = owner then .ok claims
    else .error refused

variable [Lowercase] [Folding]

def matched (paths : DestinationPaths) (path : Path) : List ℕ :=
  (sortBy id ((names paths.foldsCase path).filterMap paths.index.lookup)).dedup

def claim (paths : DestinationPaths) (path : Path) (owner : Text) (directory group : Bool) :
    Except ExportError DestinationPaths := do
  let matched := paths.matched path
  let claims ← matched.foldlM (meetClaim path owner directory group) paths.claims
  let index := matched.headD claims.length
  .ok { paths with
    claims := if matched = [] then claims ++ [⟨path, owner, directory, group⟩] else claims
    index := (names paths.foldsCase path).foldl (fun table name => table.orInsert name index)
      paths.index }

def file (paths : DestinationPaths) (path owner : Text) (groupDepth : ℕ) :
    Except ExportError DestinationPaths :=
  let parts := components path
  (List.range parts.length).foldlM (fun paths index =>
    paths.claim (parts.take (index + 1)) owner (index + 1 < parts.length) (index < groupDepth))
      paths

end DestinationPaths

def checksumOwner (owner extension : Text) : Text :=
  owner ++ " ." ++ extension ++ " checksum"

def groupDepth (group : Text) : ℕ :=
  (Text.split group '.').length

def metadataPath (dir id : Text) : Text :=
  join dir ("maven-metadata-" ++ id ++ ".xml")

def metadataChecksums : List Text :=
  ["md5", "sha1", "sha256", "sha512"]

def artifactChecksums : List Text :=
  ["sha1", "sha256"]

/-- The ids of empty lists that are written: one for each name, and none that a
populated list has. -/
def emptyListIds (name : Text → Text) : List Text → List Text → List Text
  | _, [] => []
  | written, id :: ids =>
    if name id ∈ written then emptyListIds name written ids
    else id :: emptyListIds name (name id :: written) ids

namespace DestinationPaths

variable [Lowercase] [Folding]

/-- The names of a metadata file, which no cleanup removes. -/
def keep (paths : DestinationPaths) (path : Text) : DestinationPaths :=
  { paths with
    metadataNames := paths.metadataNames ∪ (names paths.foldsCase (components path)).toFinset }

def metadata (paths : DestinationPaths) (dir group owner id : Text) :
    Except ExportError DestinationPaths := do
  let path := metadataPath dir id
  let paths ← paths.file path owner (groupDepth group)
  metadataChecksums.foldlM (fun paths extension =>
    paths.file (path ++ '.' :: extension) (checksumOwner owner extension) (groupDepth group))
      (paths.keep path)

def idName (foldsCase : Bool) (id : Text) : Text :=
  if foldsCase then Lowercase.toLowercase id else id

def listOwner (coordinate id : Text) : Text :=
  "metadata for " ++ coordinate ++ " from repository " ++ Folding.debug id

def emptyListOwner (coordinate id : Text) : Text :=
  "empty metadata for " ++ coordinate ++ " from repository " ++ Folding.debug id

def metadataLists (paths : DestinationPaths) (dir group coordinate : Text)
    (listed empty : List Text) : Except ExportError DestinationPaths := do
  let listed := listed.filter isMetadataRepoId
  let name := idName paths.foldsCase
  let paths ← listed.foldlM (fun paths id =>
    paths.metadata dir group (listOwner coordinate id) id) paths
  (emptyListIds name (listed.map name) empty).foldlM (fun paths id =>
    paths.metadata dir group (emptyListOwner coordinate id) id) paths

end DestinationPaths

/-! ## The plan -/

/-- The directory is that of the base version. -/
def directoryVersion (key : ArtifactCoord) : Text :=
  (snapshotBaseVersion key.version).getD key.version

def artifactDestination (key : ArtifactCoord) : Text :=
  artifactPath key (directoryVersion key) key.version

def artifactRelativePath (key : ArtifactCoord) : Except ExportError Text := do
  let fields := [(CoordinateField.group, key.groupId), (.artifact, key.artifactId),
    (.version, key.version), (.extension, key.extension)] ++
      (key.classifier.map fun classifier => (CoordinateField.classifier, classifier)).toList
  fields.forM fun (field, value) =>
    (validateCoordinateComponent field value).mapError (.invalidCoordinate (some key.gav))
  (validateCoordinateComponent .version (directoryVersion key)).mapError (.invalidCoordinate none)
  let relative := artifactDestination key
  let named := (components relative).filter (· ∉ ["/".toList, ".".toList, "..".toList])
  named.forM fun name => do
    refuseIf (!plainNameIsSafe name) (.windowsUnsafeName key.display name)
    refuseIf (isShortNameAlias name) (.shortNameAlias key.display name)
  .ok relative

def groupPath (group : Text) : Text :=
  group.map fun c => if c = '.' then '/' else c

def validateGroupPath (group : Text) : Except ExportError Text := do
  (validateCoordinateComponent .group group).mapError (.invalidCoordinate none)
  .ok (groupPath group)

structure ExportUnit where
  key : ArtifactCoord
  repoIds : List Text

structure SnapshotMetaKey where
  groupId : Text
  artifactId : Text
  baseVersion : Text
  repoId : Text
  deriving DecidableEq

structure ArtifactMetaKey where
  groupId : Text
  artifactId : Text
  deriving DecidableEq

/-- What the metadata of an export lists, in the order of the keys. -/
structure MetadataAccumulator where
  /-- The timestamp of each snapshot. -/
  snapshots : List (SnapshotMetaKey × Option Text)
  /-- The versions of each artifact by repository. -/
  artifacts : List (ArtifactMetaKey × List (Text × List Text))
  plainSnapshots : List (Text × Text × Text)
  replacesListings : Bool
  emptyListIds : List Text
  shared : Bool

/-- The directory of one version and the repositories that list its files. -/
structure VersionDir where
  group : Text
  artifact : Text
  version : Text
  ids : OrderedSet Text

def VersionDir.key (dir : VersionDir) : List Text :=
  [dir.group, dir.artifact, dir.version]

def addVersion (versions : Ordered VersionDir.key) (group artifact version : Text)
    (id : Option Text) : Ordered VersionDir.key :=
  let ids := (versions.find? [group, artifact, version]).elim .empty VersionDir.ids
  versions.insert { group, artifact, version, ids := id.elim ids ids.insert }

def MetadataAccumulator.versions (accumulator : MetadataAccumulator) : Ordered VersionDir.key :=
  let stamped := accumulator.snapshots.filter fun (key, timestamp) =>
    timestamp.isSome && isMetadataRepoId key.repoId
  let versions := stamped.foldl (fun versions (key, _) =>
    addVersion versions key.groupId key.artifactId key.baseVersion (some key.repoId)) .empty
  if accumulator.shared then versions
  else
    accumulator.plainSnapshots.foldl (fun versions (group, artifact, version) =>
      addVersion versions group artifact version none) versions

def VersionDir.coordinate (dir : VersionDir) : Text :=
  dir.group ++ ':' :: dir.artifact ++ ':' :: dir.version

def ArtifactMetaKey.coordinate (key : ArtifactMetaKey) : Text :=
  key.groupId ++ ':' :: key.artifactId

def listedIds (byRepo : List (Text × List Text)) : List Text :=
  (byRepo.filter fun (_, versions) => !versions.isEmpty).map Prod.fst

def VersionDir.emptyIds (accumulator : MetadataAccumulator) : List Text :=
  if accumulator.replacesListings && !accumulator.shared then accumulator.emptyListIds else []

def markerOwner (dir : Text) : Text :=
  "repository markers for " ++ dir

namespace DestinationPaths

variable [Lowercase] [Folding]

def cleanup (paths : DestinationPaths) (dir : Text) : DestinationPaths :=
  { paths with
    cleanupNames := paths.cleanupNames ∪ (names paths.foldsCase (components dir)).toFinset }

def planUnit (paths : DestinationPaths) (unit : ExportUnit) :
    Except ExportError DestinationPaths := do
  let relative ← artifactRelativePath unit.key
  let depth := groupDepth unit.key.groupId
  let paths ← paths.file relative unit.key.display depth
  let paths ← artifactChecksums.foldlM (fun paths extension =>
    paths.file (relative ++ '.' :: extension) (checksumOwner unit.key.display extension) depth)
      paths
  if unit.repoIds.any (!List.isEmpty ·) then
    paths.file (join (parent relative) "_remote.repositories") (markerOwner (parent relative))
      depth
  else .ok paths

def planArtifact (accumulator : MetadataAccumulator) (paths : DestinationPaths)
    (artifact : ArtifactMetaKey × List (Text × List Text)) :
    Except ExportError DestinationPaths := do
  let (key, byRepo) := artifact
  let group ← validateGroupPath key.groupId
  let dir := join group key.artifactId
  let paths := if accumulator.shared then paths else paths.cleanup dir
  paths.metadataLists dir key.groupId key.coordinate (listedIds byRepo) accumulator.emptyListIds

def planVersion (accumulator : MetadataAccumulator) (paths : DestinationPaths)
    (version : VersionDir) : Except ExportError DestinationPaths := do
  let group ← validateGroupPath version.group
  let dir := join (join group version.artifact) version.version
  let paths :=
    if !accumulator.shared && (accumulator.replacesListings || version.ids.isEmpty) then
      paths.cleanup dir
    else paths
  paths.metadataLists dir version.group version.coordinate version.ids.entries
    (VersionDir.emptyIds accumulator)

def checkCleanup (paths : DestinationPaths) (claim : DestinationClaim) : Except ExportError Unit :=
  let dir := claim.path.dropLast
  -- The root directory has no parent.
  if claim.path ∈ [[], [['/']]] ||
      !(names paths.foldsCase dir).any (· ∈ paths.cleanupNames) then .ok ()
  else
    match fileName claim.path with
    | none => .error (.noFileName claim.path)
    | some name =>
      let base := ((metadataChecksums.map ('.' :: ·)).findSome? fun suffix =>
        if Text.endsWith name suffix then some (name.take (name.length - suffix.length))
        else none).getD name
      refuseIf (Text.startsWith base "maven-metadata-" && Text.endsWith base ".xml" &&
          !(names paths.foldsCase (dir ++ [base])).any (· ∈ paths.metadataNames))
        (.destinationCollision claim.owner
          ("metadata cleanup for " ++ Text.join ['/'] dir) claim.path)

end DestinationPaths

section Plan

variable [Lowercase] [Folding]

open DestinationPaths

def plannedDestinations (units : List ExportUnit) (optional : List (ArtifactCoord × List Text))
    (accumulator : MetadataAccumulator) (foldsCase : Bool) :
    Except ExportError DestinationPaths := do
  let paths : DestinationPaths := ⟨[], ∅, ∅, ∅, foldsCase⟩
  let units := units ++ optional.map fun (key, repoIds) => ⟨key, repoIds⟩
  let paths ← units.foldlM planUnit paths
  let paths ← accumulator.artifacts.foldlM (planArtifact accumulator) paths
  let paths ← accumulator.versions.entries.foldlM (planVersion accumulator) paths
  paths.claims.forM (checkCleanup paths)
  .ok paths

end Plan

end Raeva.Export
