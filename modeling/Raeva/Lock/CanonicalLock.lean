import Raeva.Lock.GraphDigests

/-!
# The canonical form of a lockfile

The lockfile exactly as it would be written: sorted, with the hashes and graph
digests of its own records, and checked.
-/

namespace Raeva.Lock

def sortedChecksums (checksums : List Digest) : List Digest :=
  (sortBy Digest.sortKey checksums).destutter (· ≠ ·)

def canonicalizeArtifact (artifact : LockArtifact) : LockArtifact :=
  let otherRepoUrls := sortedValues (artifact.otherRepoUrls.filter (· ≠ artifact.repoUrl))
  let pomRepoUrls := sortedValues artifact.pomRepoUrls
  { artifact with
    checksums := sortedChecksums artifact.checksums
    otherRepoUrls
    -- Where the POM came from the origins of the file, none are listed.
    pomRepoUrls :=
      if pomRepoUrls = sortedValues (artifact.repoUrl :: otherRepoUrls) then [] else pomRepoUrls }

def canonicalizePlatform (platform : LockPlatform) : LockPlatform :=
  { platform with
    modules := (sortBy LockModule.path platform.modules).map canonicalizeModule
    artifacts := (sortBy (fun artifact => artifact.coordinate.sortKey) platform.artifacts).map
      canonicalizeArtifact }

/-! ## Hashes -/

def modelRecordsHash [ContentHash] (profiles : List Text) (poms : OrderedMap Text Sha256) : Text :=
  (ContentHash.sha256 (hashStr "rv-model-hash-v3" ++ hashSortedStrings "profiles" profiles ++
    poms.entries.flatMap fun (path, digest) => hashStr path ++ hashStr digest.hex)).hex

def placeholderModelHash : Text :=
  List.replicate 64 '0'

def withModelHash [ContentHash] (platform : LockPlatform) : LockPlatform :=
  match platform.modelInputs with
  | some inputs => { platform with modelHash := modelRecordsHash inputs.profiles inputs.pomHashes }
  | none =>
    if platform.modelHash.isEmpty then { platform with modelHash := placeholderModelHash }
    else platform

/-- Records of modules that read no names are left out. -/
def withGraphs [ContentHash] (configHash : Option Text) (repoIds : RepoIds) (ambient : AmbientSet)
    (platform : LockPlatform) : LockPlatform :=
  match platform.modelInputs with
  | none => platform
  | some inputs =>
    let inputs := { inputs with
      moduleAmbientInputs := inputs.moduleAmbientInputs.filter fun entry => !entry.2.isEmpty }
    let platform := { platform with modelInputs := some inputs }
    let graphs := graphDigests platform inputs configHash (platform.reads repoIds ambient)
    { platform with modelInputs := some { inputs with graphs } }

def canonicalPlatform [ContentHash] (lock : Lockfile) (platform : LockPlatform) : LockPlatform :=
  withGraphs lock.configHash lock.repoIds lock.resolution.ambientInputs
    (canonicalizePlatform (withModelHash platform))

def canonical [Lowercase] [UrlParser] [ContentHash] (lock : Lockfile) :
    Except LockError Lockfile := do
  let canonical := { lock with
    platforms := (sortBy (fun entry => entry.platform.display) lock.platforms).map
      (canonicalPlatform lock) }
  check canonical
  return canonical

/-! ## What the canonical form keeps -/

section Keeps

variable [ContentHash] (lock : Lockfile) (platform : LockPlatform)

theorem canonicalPlatform_eq : ∃ modelHash modelInputs, canonicalPlatform lock platform =
      { canonicalizePlatform platform with modelHash, modelInputs } ∧
    modelInputs.map (·.profiles) = platform.modelInputs.map (·.profiles) := by
  obtain ⟨hash, hhash⟩ : ∃ modelHash, withModelHash platform = { platform with modelHash } := by
    rw [withModelHash]
    split
    · exact ⟨_, rfl⟩
    · split <;> exact ⟨_, rfl⟩
  rw [canonicalPlatform, hhash, withGraphs]
  split
  · exact ⟨hash, _, rfl, rfl⟩
  · rename_i inputs hinputs
    exact ⟨hash, _, rfl, (congrArg (Option.map ModelInputs.profiles) hinputs).symm⟩

@[simp] theorem canonicalPlatform_platform :
    (canonicalPlatform lock platform).platform = platform.platform := by
  obtain ⟨_, _, heq, -⟩ := canonicalPlatform_eq lock platform
  rw [heq]
  rfl

theorem canonicalPlatform_modules :
    (canonicalPlatform lock platform).modules = canonicalModules platform := by
  obtain ⟨_, _, heq, -⟩ := canonicalPlatform_eq lock platform
  rw [heq]
  rfl

end Keeps

theorem canonical_eq_ok [Lowercase] [UrlParser] [ContentHash] {lock form : Lockfile}
    (h : canonical lock = .ok form) :
    form.platforms = (sortBy (fun entry => entry.platform.display) lock.platforms).map
      (canonicalPlatform lock) := by
  rw [canonical] at h
  obtain ⟨-, h⟩ := bind_unit_eq_ok_iff.mp h
  cases h
  rfl

end Raeva.Lock
