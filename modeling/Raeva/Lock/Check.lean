import Raeva.Lock.Origins
import Raeva.Lock.Pins
import Raeva.Maven.Range

/-!
# The checks of a lockfile

`Lockfile::check`, which every lockfile passes when it is read and before it
is written.
-/

namespace Raeva.Lock

open List

/-! ## Fields -/

def checkText (value : Text) (field : TextField) : Except LockError Unit :=
  refuseIf (!isTerminalSafe value) (.unsafeText field value)

def checkOriginText (origin : Text) (row : Row) : Except LockError Unit :=
  refuseIf (!isTerminalSafe origin || origin.any Text.isWhitespace) (.originText row)

def checkModelInputs (inputs : ModelInputs) (on : Platform) : Except LockError Unit := do
  inputs.profiles.forM (checkText · (.profileId on))
  inputs.pomHashes.keys.forM (checkText · (.pomPath on))

def checkField (row : Row) (result : Except InvalidCoordinateComponent Unit) :
    Except LockError Unit :=
  result.mapError (.invalidField row)

def validateCoordinate (coordinate : ArtifactCoord) (row : Row) (reactor : Bool) :
    Except LockError Unit := do
  checkField row <|
    if reactor then validateReactorVersion coordinate.version
    else validateCoordinateComponent .version coordinate.version
  checkField row (validateCoordinateComponent .group coordinate.groupId)
  checkField row (validateCoordinateComponent .artifact coordinate.artifactId)
  checkField row (validateCoordinateComponent .extension coordinate.extension)
  match coordinate.classifier with
  | some classifier => checkField row (validateCoordinateComponent .classifier classifier)
  | none => .ok ()

def validateModulePath (path : Text) (field : PathField) : Except LockError Unit :=
  let parts := Text.split path '/'
  refuseIf (path.isEmpty || !isTerminalSafe path || Text.startsWith path ['/'] ||
    Text.startsWith path ['\\'] || path.elem '\\' || path.elem ':' ||
    parts.any (fun part => part.isEmpty || part == "." || part == "..") ||
    parts.getLast? != some "pom.xml".toList) (.modulePath field path)

def validateSupportPomCoord (coord : Text) : Except LockError Unit :=
  match splitSupportPomCoord coord with
  | none => .error (.supportPomShape coord)
  | some (group, artifact, version) =>
    [(CoordinateField.group, group), (.artifact, artifact), (.version, version)].forM
      fun (field, value) =>
        (validateCoordinateComponent field value).mapError (.supportPomField coord)

def splitReactorGav (gav : Text) : Option (Text × Text × Text) := do
  let (group, rest) ← Text.splitOnce gav ':'
  let (artifact, version) ← Text.splitOnce rest ':'
  if group.isEmpty || artifact.isEmpty || version.isEmpty then none
  else some (group, artifact, version)

def orFault {α : Type} (fault : LockError) : Option α → Except LockError α
  | some a => .ok a
  | none => .error fault

def startsLikeRange (range : Text) : Bool :=
  (range.dropWhile Text.isWhitespace).head?.any fun c => c == '[' || c == '('

/-- A selection names a model, a range of parents and one of them, and a model
selects once from each range. -/
def checkParentRange [Lowercase] (invalid : LockError) (seen : List ParentRange)
    (selection : ParentRange) : Except LockError Unit := do
  let valid (result : Except InvalidCoordinateComponent Unit) : Except LockError Unit :=
    result.mapError fun _ => invalid
  let (group, artifact, version) ← orFault invalid (splitReactorGav selection.model)
  valid (validateCoordinateComponent .group group)
  valid (validateCoordinateComponent .artifact artifact)
  valid (validateReactorVersion version)
  let (group, artifact, range) ← orFault invalid (splitSupportPomCoord selection.parent)
  valid (validateCoordinateComponent .group group)
  valid (validateCoordinateComponent .artifact artifact)
  valid (validateReactorVersion range)
  refuseIf (!startsLikeRange range) invalid
  let range ← (VersionReq.parse range).mapError fun _ => invalid
  validateSupportPomCoord selection.selected
  let (selectedGroup, selectedArtifact, version) ←
    orFault invalid (splitSupportPomCoord selection.selected)
  refuseIf (group != selectedGroup || artifact != selectedArtifact ||
    !((Version.parse version).toOption.any range.holds) ||
    seen.any (fun other => other.model = selection.model && other.parent = selection.parent))
      invalid

def checkPackageFields (row : Row) (on : Platform) (path : Text) (package : LockModulePackage) :
    Except LockError Unit := do
  validateCoordinate package.coordinate row package.workspaceModule.isSome
  package.workspaceModule.forM (validateModulePath · .workspaceModule)
  package.systemPath.forM (checkText · (.systemPath package.coordinate path on))

def checkModuleFields [Lowercase] (on : Platform) (module : LockModule) :
    Except LockError Unit := do
  validateModulePath module.path .module
  checkEach (checkParentRange (.parentRange module.path on)) [] module.parentRanges
  let row := Row.module module.path on
  checkField row (validateCoordinateComponent .group module.gav.group)
  checkField row (validateCoordinateComponent .artifact module.gav.artifact)
  checkField row (validateReactorVersion module.gav.version)
  checkField row (validateCoordinateComponent .extension module.packaging)
  module.packages.forM (checkPackageFields (.package module.path on) on module.path)

def isValidJdk (jdk : Text) : Bool :=
  !jdk.isEmpty && jdk.length ≤ 32 &&
    jdk.all fun c => c.isAlphanum || c == '.' || c == '_' || c == '-' || c == '+'

def checkSupportPomFields (on : Platform) (entry : Text × SupportPom) : Except LockError Unit := do
  let (coord, pin) := entry
  validateSupportPomCoord coord
  checkOriginText pin.repoUrl (.supportPom coord on)
  refuseIf (pin.snapshot.isSome && (pin.fileGav coord).isNone) (.snapshotOfRelease coord on)

def checkArtifactFields (on : Platform) (artifact : LockArtifact) : Except LockError Unit := do
  validateCoordinate artifact.coordinate (.artifactTable on) false
  artifact.origins.forM (checkOriginText · (.artifact artifact.coordinate on))

def checkPlatformFields [Lowercase] (entry : LockPlatform) : Except LockError Unit := do
  let on := entry.platform
  on.jdk.forM fun jdk => refuseIf (!isValidJdk jdk) (.invalidJdk jdk on.osArch)
  entry.modelInputs.forM (checkModelInputs · on)
  entry.artifacts.forM (checkArtifactFields on)
  entry.supportPoms.entries.forM (checkSupportPomFields on)
  entry.modules.forM (checkModuleFields on)

def checkLockFields [Lowercase] (lock : Lockfile) : Except LockError Unit := do
  lock.configHash.forM (checkText · .configHash)
  lock.platforms.forM checkPlatformFields

def originRows (lock : Lockfile) : List (Text × Row) :=
  (lock.platforms.flatMap fun entry => entry.artifacts.flatMap fun artifact =>
      artifact.origins.map fun origin => (origin, .artifact artifact.coordinate entry.platform)) ++
    (lock.platforms.flatMap fun entry => entry.supportPoms.entries.map fun (coord, pin) =>
      (pin.repoUrl, .supportPom coord entry.platform)) ++
    lock.repoIds.keys.map fun origin => (origin, .repoIds)

def checkNoSecretOrigins [UrlParser] (lock : Lockfile) : Except LockError Unit :=
  (originRows lock).forM fun (origin, row) =>
    if isProjectRelativeOrigin origin then .ok ()
    else
      match UrlParser.secretUrlPart origin with
      | some part => .error (.secretOrigin row part)
      | none => .ok ()

/-! ## Rows -/

def maxSystemPathLen : ℕ := 4096

def checkSystemPath (path : Text) : Except Text Unit := do
  refuseIf path.isEmpty "the path is empty"
  refuseIf (maxSystemPathLen < Text.byteLen path) "the path is longer than 4096 bytes"
  refuseIf (!isTerminalSafe path) "the path contains control or invisible characters"
  refuseIf (path.elem '\\' || path.elem ':') "the path contains '\\' or ':'"
  refuseIf (Text.startsWith path ['/']) "the path is absolute"
  refuseIf ((Text.split path '/').any fun part =>
      part.isEmpty || part == "." || part == "..")
    "the path has an empty, '.' or '..' part"

def checkSystemPackage (package : LockModulePackage) (path : Text) : Except LockError Unit :=
  match package.systemPath, package.systemSha256 with
  | some systemPath, some _ => do
      (checkSystemPath systemPath).mapError (.systemPath package.coordinate path systemPath)
      refuseIf (package.scope != .system) (.systemScope package.coordinate path package.scope)
  | some _, none => .error (.systemPathAlone package.coordinate path)
  | none, some _ => .error (.systemSha256Alone package.coordinate path)
  | none, none => .ok ()

def artifactIndex (entry : LockPlatform) (coordinate : ArtifactCoord) : Option ℕ :=
  entry.artifacts.findIdx? fun artifact => artifact.coordinate = coordinate

/-- The index of the artifact row that a package uses, if it needs one. -/
def validatePackage (entry : LockPlatform) (path : Text) (package : LockModulePackage) :
    Except LockError (Option ℕ) := do
  refuseIf (package.workspaceModule.isSome && package.systemPath.isSome)
    (.workspaceAndSystem package.coordinate path)
  checkSystemPackage package path
  match package.workspaceModule with
  | some workspace =>
    let module ← orFault (.noWorkspaceModule workspace package.coordinate path)
      (entry.modules.find? fun module => module.path = workspace)
    refuseIf (package.coordinate.gav != module.gav)
      (.workspaceGav workspace module.gav package.coordinate)
    refuseIf (artifactIndex entry package.coordinate).isSome (.workspaceRow package.coordinate)
    return none
  | none =>
    match package.systemPath with
    | some _ => do
        refuseIf (artifactIndex entry package.coordinate).isSome (.systemRow package.coordinate)
        return none
    | none => do
        let index ← orFault (.noArtifactRow package.coordinate path)
          (artifactIndex entry package.coordinate)
        return some index

/-- The indices of the artifact rows that a module's packages use. -/
def validateModule (entry : LockPlatform) (module : LockModule) : Except LockError (List ℕ) := do
  checkEach (fun seen package => refuseIf
      (seen.any fun other => other.coordinate = package.coordinate)
      (.duplicatePackage package.coordinate module.path entry.platform)) [] module.packages
  module.edges.forM fun edge =>
    refuseIf (module.packages.length ≤ edge.source || module.packages.length ≤ edge.target)
      (.edgeOutOfBounds edge.source edge.target module.packages.length module.path entry.platform)
  let used ← module.packages.mapM (validatePackage entry module.path)
  module.supportPoms.forM fun coord =>
    refuseIf (!entry.supportPoms.contains coord) (.noSupportPomRow coord module.path entry.platform)
  return used.reduceOption

def checkModuleRow (on : Platform) (seen : List LockModule) (module : LockModule) :
    Except LockError Unit := do
  refuseIf (seen.any fun other => other.path = module.path) (.duplicateModulePath module.path on)
  refuseIf (seen.any fun other => other.gav = module.gav) (.duplicateModuleGav module.gav on)

def checkChecksum (on : Platform) (coordinate : ArtifactCoord) (seen : List Digest)
    (checksum : Digest) : Except LockError Unit := do
  refuseIf (checksum.algorithm = .md5) (.md5Checksum coordinate on)
  refuseIf (seen.any fun other => other.algorithm = checksum.algorithm)
    (.duplicateChecksum checksum.algorithm coordinate on)

def checkArtifactRow (on : Platform) (seen : List LockArtifact) (artifact : LockArtifact) :
    Except LockError Unit := do
  let coordinate := artifact.coordinate
  refuseIf (seen.any fun other => other.coordinate = coordinate) (.duplicateArtifact coordinate on)
  refuseIf artifact.checksums.isEmpty (.noChecksum coordinate on)
  artifact.pomSnapshot.forM fun stamp => refuseIf
    (!Text.endsWith coordinate.version snapshotSuffix || some stamp = artifact.snapshot ||
      artifact.isOwnPom) (.pomSnapshot coordinate)
  refuseIf (artifact.pomBase &&
    (artifact.snapshot.isNone || artifact.pomSnapshot.isSome || artifact.isOwnPom))
    (.pomBase coordinate)
  checkEach (checkChecksum on coordinate) [] artifact.checksums
  -- The payload of a POM is its own companion POM: one file, one digest.
  refuseIf (artifact.isOwnPom &&
    !artifact.pomSha256.any fun pom => artifact.checksums = [Digest.sha256 pom])
    (.ownPom coordinate on artifact.checksums artifact.pomSha256)

def validatePlatform (entry : LockPlatform) : Except LockError Unit := do
  refuseIf (!(entry.modelHash.length == 64 && entry.modelHash.all isLowerHexDigit))
    (.modelHash entry.platform)
  refuseIf entry.modules.isEmpty (.noModules entry.platform)
  checkEach (checkModuleRow entry.platform) [] entry.modules
  checkEach (checkArtifactRow entry.platform) [] entry.artifacts
  let used ← entry.modules.mapM (validateModule entry)
  entry.artifacts.zipIdx.forM fun (artifact, index) =>
    refuseIf (!used.any (·.elem index)) (.orphanArtifact artifact.coordinate entry.platform)

/-! ## The lockfile as a whole -/

def checkTargetReads (lock : Lockfile) (entry : LockPlatform) : Except LockError Unit := do
  ((entry.repoIds.map repoIdLines).getD []).forM fun (origin, id) =>
    refuseIf (!(lock.repoIds.lookup origin).any fun ids => ids.contains id)
      (.targetRepoId entry.platform id origin)
  ((entry.hostInputs.map (·.entries)).getD []).forM fun input =>
    refuseIf (input.isPropertyName || !lock.resolution.ambientInputs.contains input.display)
      (.targetHostInput entry.platform input)

def checkReadUnions (lock : Lockfile) : Except LockError Unit :=
  if lock.platforms.isEmpty then .ok ()
  else do
    let reads := lock.targetReads
    (repoIdLines lock.repoIds).forM fun (origin, id) =>
      refuseIf (!reads.any fun read => (repoIdLines read.repoIds).elem (origin, id))
        (.unreadRepoId id origin)
    (hostInputs lock.resolution.ambientInputs).entries.forM fun input =>
      refuseIf (!reads.any fun read => read.hostInputs.entries.elem input) (.unreadHostInput input)

def validate (lock : Lockfile) : Except LockError Unit := do
  checkRepoIds lock.repoIds
  checkEach (fun seen entry => refuseIf (seen.any fun other => other.platform = entry.platform)
    (.duplicatePlatform entry.platform)) [] lock.platforms
  refuseIf ((lock.platforms.any fun entry => entry.platform.jdk.isSome) &&
    lock.platforms.any fun entry => entry.platform.jdk.isNone) .mixedJdk
  ((lock.platforms.flatMap fun entry => entry.artifacts.flatMap (·.origins)) ++
    lock.platforms.flatMap fun entry => entry.supportPoms.values.map (·.repoUrl)).forM fun origin =>
      if isProjectRelativeOrigin origin then validateProjectRelativeOrigin origin else .ok ()
  lock.platforms.forM fun entry => do
    validatePlatform entry
    checkTargetReads lock entry
  checkReadUnions lock
  checkCrossPlatformPins lock.platforms
  checkPomPins lock.platforms

def check [Lowercase] [UrlParser] (lock : Lockfile) : Except LockError Unit := do
  checkLockFields lock
  checkNoSecretOrigins lock
  validate lock

/-! ## A small lockfile -/

section Sample

def hexOf (n : ℕ) (c : Char) (h : (List.replicate n c).all isLowerHexDigit = true) : Hex n :=
  ⟨List.replicate n c, length_replicate, h⟩

theorem isLowerHexDigit_replicate : (List.replicate 64 'a').all isLowerHexDigit = true :=
  rfl

def sampleGav (artifact version : String) : Gav :=
  ⟨"com.example", artifact.toList, version.toList⟩

def sampleArtifact (gav : Gav) : LockArtifact where
  coordinate := .of gav "jar" none
  repoUrl := "https://repo.example/"
  otherRepoUrls := []
  checksums := [.sha256 (hexOf 64 'a' rfl)]
  snapshot := none
  pomSnapshot := none
  pomBase := false
  pomSha256 := some (hexOf 64 'b' rfl)
  pomRepoUrls := []

def samplePackage (gav : Gav) : LockModulePackage where
  coordinate := .of gav "jar" none
  workspaceModule := none
  systemPath := none
  systemSha256 := none
  directScope := some .compile
  scope := .compile

def sampleModule (path : String) (gav : Gav) (packages : List LockModulePackage) : LockModule where
  path := path.toList
  gav
  packaging := "jar"
  packages
  edges := []
  parentRanges := []
  supportPoms := []

def linux : Platform :=
  ⟨"linux", "x86_64", none, rfl, rfl⟩

def macos : Platform :=
  ⟨"macos", "aarch64", none, rfl, rfl⟩

def samplePlatform (platform : Platform) (artifacts : List LockArtifact)
    (modules : List LockModule) : LockPlatform where
  platform
  modelHash := List.replicate 64 '0'
  artifacts
  modules
  supportPoms := .empty
  modelInputs := none
  repoIds := none
  hostInputs := none

def sampleLock (platforms : List LockPlatform) : Lockfile where
  configHash := some "c"
  resolution := ⟨.empty, .empty⟩
  platforms
  repoIds := .empty

def demoLock (platform : Platform) : Lockfile :=
  sampleLock [samplePlatform platform [sampleArtifact (sampleGav "demo" "1.0")]
    [sampleModule "pom.xml" (sampleGav "app" "1.0") [samplePackage (sampleGav "demo" "1.0")]]]

end Sample

/-! ## What passing the checks means -/

variable {artifact : LockArtifact} {entry : LockPlatform} {lock : Lockfile}

theorem bytesDiffer_self (h : (artifact.checksums.map Digest.algorithm).Nodup) :
    artifact.bytesDiffer artifact = false := by
  have hinj := inj_on_of_nodup_map h
  simp only [LockArtifact.bytesDiffer, bne_self_eq_false, Bool.false_or, any_eq_false]
  intro mine hmine
  simpa using fun theirs htheirs halgorithm => hinj htheirs hmine halgorithm

theorem checkArtifactRow_checksums {on : Platform} {seen : List LockArtifact}
    (h : checkArtifactRow on seen artifact = .ok ()) :
    (artifact.checksums.map Digest.algorithm).Nodup := by
  have hstep : checkChecksum on artifact.coordinate = fun seen checksum => (do
      refuseIf (checksum.algorithm = .md5) (.md5Checksum artifact.coordinate on)
      refuseIf (seen.any fun other => other.algorithm = checksum.algorithm)
        (.duplicateChecksum checksum.algorithm artifact.coordinate on)) := rfl
  simp only [checkArtifactRow, bind_unit_eq_ok_iff] at h
  obtain ⟨-, -, -, -, hchecksums, -⟩ := h
  rw [hstep, checkEach_bind_eq_ok_iff, checkEach_refuseIf_eq_ok_iff] at hchecksums
  exact hchecksums.2

theorem validatePlatform_artifact (h : validatePlatform entry = .ok ())
    (hartifact : artifact ∈ entry.artifacts) :
    ∃ seen, checkArtifactRow entry.platform seen artifact = .ok () := by
  simp only [validatePlatform, bind_unit_eq_ok_iff] at h
  obtain ⟨-, -, -, hrows, -⟩ := h
  obtain ⟨before, after, hl⟩ := append_of_mem hartifact
  exact ⟨before, checkEach_eq_ok_iff.mp hrows before artifact after hl⟩

structure Validated (lock : Lockfile) : Prop where
  repoIds : checkRepoIds lock.repoIds = .ok ()
  platforms : (lock.platforms.map (·.platform)).Nodup
  entries : ∀ entry ∈ lock.platforms, validatePlatform entry = .ok ()
  reads : ∀ entry ∈ lock.platforms, checkTargetReads lock entry = .ok ()
  cross : checkCrossPlatformPins lock.platforms = .ok ()
  poms : checkPomPins lock.platforms = .ok ()

theorem validated_of_validate (h : validate lock = .ok ()) : Validated lock := by
  simp only [validate, bind_unit_eq_ok_iff, forM_eq_ok_iff, checkEach_refuseIf_eq_ok_iff] at h
  obtain ⟨hids, hplatforms, -, -, hentries, -, hcross, hpoms⟩ := h
  exact ⟨hids, hplatforms, fun entry hentry => (hentries entry hentry).1,
    fun entry hentry => (hentries entry hentry).2, hcross, hpoms⟩

theorem check_eq_ok [Lowercase] [UrlParser] (h : check lock = .ok ()) :
    checkLockFields lock = .ok () ∧ Validated lock := by
  simp only [check, bind_unit_eq_ok_iff] at h
  exact ⟨h.1, validated_of_validate h.2.2⟩

theorem check_bytesDiffer [Lowercase] [UrlParser] (h : check lock = .ok ()) :
    ∀ p ∈ lock.platforms, ∀ a ∈ p.artifacts, a.bytesDiffer a = false := by
  intro p hp a ha
  obtain ⟨seen, hrow⟩ := validatePlatform_artifact ((check_eq_ok h).2.entries p hp) ha
  exact bytesDiffer_self (checkArtifactRow_checksums hrow)

theorem check_consistent [Lowercase] [UrlParser] (h : check lock = .ok ()) :
    Consistent lock.platforms := by
  have hvalid := (check_eq_ok h).2
  exact (pins_eq_ok_iff (check_bytesDiffer h)).mp ⟨hvalid.cross, hvalid.poms⟩

theorem check_moduleFields [Lowercase] [UrlParser] (h : check lock = .ok ()) {p : LockPlatform}
    (hp : p ∈ lock.platforms) {m : LockModule} (hm : m ∈ p.modules) :
    checkModuleFields p.platform m = .ok () := by
  have hfields := (check_eq_ok h).1
  simp only [checkLockFields, bind_unit_eq_ok_iff, forM_eq_ok_iff] at hfields
  have hplatform := hfields.2 p hp
  simp only [checkPlatformFields, bind_unit_eq_ok_iff, forM_eq_ok_iff] at hplatform
  exact hplatform.2.2.2.2 m hm

theorem orFault_eq_ok {α : Type} {fault : LockError} {o : Option α} {a : α}
    (h : orFault fault o = .ok a) : o = some a := by
  cases o <;> cases h
  rfl

theorem checkParentRange_eq_ok [Lowercase] {invalid : LockError} {seen : List ParentRange}
    {selection : ParentRange} (h : checkParentRange invalid seen selection = .ok ()) :
    (∃ parts, splitReactorGav selection.model = some parts) ∧
      (∃ parts, splitSupportPomCoord selection.parent = some parts) ∧
      ∀ other ∈ seen, (other.model, other.parent) ≠ (selection.model, selection.parent) := by
  rw [checkParentRange] at h
  obtain ⟨_, hmodel, h⟩ := bind_eq_ok h
  simp only [bind_unit_eq_ok_iff] at h
  obtain ⟨_, hparent, h⟩ := bind_eq_ok h.2.2.2
  simp only [bind_unit_eq_ok_iff] at h
  obtain ⟨_, -, h⟩ := bind_eq_ok h.2.2.2.2
  simp only [bind_unit_eq_ok_iff] at h
  obtain ⟨_, -, h⟩ := bind_eq_ok h.2
  rw [refuseIf_eq_ok_iff, Bool.or_eq_false_iff, any_eq_false] at h
  refine ⟨⟨_, orFault_eq_ok hmodel⟩, ⟨_, orFault_eq_ok hparent⟩, fun other hother heq => ?_⟩
  exact h.2 other hother (by simpa using heq)

theorem validatePlatform_modules (h : validatePlatform entry = .ok ()) :
    (entry.modules.map (·.path)).Nodup ∧ (entry.modules.map (·.gav)).Nodup ∧
      ∀ m ∈ entry.modules, ∃ used, validateModule entry m = .ok used := by
  have hstep : checkModuleRow entry.platform = fun seen module => (do
      refuseIf (seen.any fun other => other.path = module.path)
        (.duplicateModulePath module.path entry.platform)
      refuseIf (seen.any fun other => other.gav = module.gav)
        (.duplicateModuleGav module.gav entry.platform)) := rfl
  simp only [validatePlatform, bind_unit_eq_ok_iff] at h
  obtain ⟨-, -, hrows, -, hused⟩ := h
  rw [hstep, checkEach_bind_eq_ok_iff, checkEach_refuseIf_eq_ok_iff,
    checkEach_refuseIf_eq_ok_iff] at hrows
  obtain ⟨used, hmodules, -⟩ := bind_eq_ok hused
  exact ⟨hrows.1, hrows.2, exists_mapM_eq_ok_iff.mp ⟨used, hmodules⟩⟩

theorem validateModule_eq_ok {module : LockModule} {used : List ℕ}
    (h : validateModule entry module = .ok used) :
    (module.packages.map (·.coordinate)).Nodup ∧ (∀ edge ∈ module.edges,
        edge.source < module.packages.length ∧ edge.target < module.packages.length) ∧
      (∀ package ∈ module.packages, ∃ used, validatePackage entry module.path package = .ok used) ∧
      ∀ coord ∈ module.supportPoms, entry.supportPoms.contains coord = true := by
  simp only [validateModule, bind_unit_eq_ok_iff, checkEach_refuseIf_eq_ok_iff, forM_eq_ok_iff] at h
  obtain ⟨hpackages, hedges, h⟩ := h
  obtain ⟨rows, hrows, h⟩ := bind_eq_ok h
  rw [bind_unit_eq_ok_iff, forM_eq_ok_iff] at h
  refine ⟨hpackages, fun edge hedge => ?_, exists_mapM_eq_ok_iff.mp ⟨rows, hrows⟩,
    fun coord hcoord => ?_⟩
  · simpa using hedges edge hedge
  · simpa using h.1 coord hcoord

theorem mem_repoIdLines {ids : RepoIds} {line : Text × Text} :
    line ∈ repoIdLines ids ↔ ∃ set, (line.1, set) ∈ ids.entries ∧ line.2 ∈ set.entries := by
  simp only [repoIdLines, mem_flatMap, mem_map, Prod.exists]
  constructor
  · rintro ⟨origin, set, hentry, id, hid, rfl⟩
    exact ⟨set, hentry, hid⟩
  · rintro ⟨set, hentry, hid⟩
    exact ⟨line.1, set, hentry, line.2, hid, rfl⟩

theorem Validated.reads_subset (h : Validated lock) {read : TargetReads}
    (hread : read ∈ lock.targetReads) {line : Text × Text}
    (hline : line ∈ repoIdLines read.repoIds) : line ∈ repoIdLines lock.repoIds := by
  obtain ⟨entry, hentry, rfl⟩ := mem_map.mp hread
  have hreads := h.reads entry hentry
  rw [checkTargetReads, bind_unit_eq_ok_iff, forM_eq_ok_iff] at hreads
  rw [LockPlatform.reads] at hline
  cases hids : entry.repoIds with
  | none => simpa [hids] using hline
  | some ids =>
    rw [hids, Option.getD_some] at hline
    have := hreads.1 line (by simpa [hids] using hline)
    simp only [refuseIf_eq_ok_iff, Bool.not_eq_false', Option.any_eq_true] at this
    obtain ⟨set, hset, hid⟩ := this
    obtain ⟨id, hmem, rfl⟩ := Ordered.contains_iff.mp hid
    exact mem_repoIdLines.mpr ⟨set, OrderedMap.lookup_eq_some_iff.mp hset, hmem⟩

end Raeva.Lock
