import Mathlib.Data.List.Pairwise
import Raeva.Library.Checks
import Raeva.Lock.Error

/-!
# One file for each path

The checks that all pins of one file agree, across the rows and platforms of a
lockfile: `check_cross_platform_pins` and `check_pom_pins`.  They are loops
over maps of what was seen; passing them means that every two pins agree,
whatever their order.
-/

namespace Raeva.Lock

open List

abbrev ArtifactRow := LockArtifact × Platform

abbrev SupportRow := (Text × SupportPom) × Platform

def rowsOf {β : Type} (items : LockPlatform → List β) (platforms : List LockPlatform) :
    List (β × Platform) :=
  platforms.flatMap fun platform => (items platform).map (·, platform.platform)

abbrev artifactRows (platforms : List LockPlatform) : List ArtifactRow :=
  rowsOf (·.artifacts) platforms

abbrev supportRows (platforms : List LockPlatform) : List SupportRow :=
  rowsOf (·.supportPoms.entries) platforms

def fileClash (seen row : ArtifactRow) : Option LockError :=
  if seen.1.repositoryPath = row.1.repositoryPath && seen.1.bytesDiffer row.1 then
    some (.conflictingFile row.1.repositoryPath seen.1.coordinate seen.2 row.1.coordinate row.2)
  else none

def supportClash (seen row : SupportRow) : Option LockError :=
  if seen.1.2.snapshot != row.1.2.snapshot || seen.1.2.sha256 != row.1.2.sha256 then
    some (.conflictingSupportPom row.1.1 seen.2 row.2)
  else none

def SupportRow.fileGav (row : SupportRow) : Option Gav :=
  row.1.2.fileGav row.1.1

def supportFileClash (seen row : SupportRow) : Option LockError :=
  if row.fileGav.isSome && seen.1.2.sha256 != row.1.2.sha256 then
    some (.conflictingSupportFile seen.1.1 row.1.1)
  else none

def buildClash (seen row : ArtifactRow) : Option LockError :=
  if seen.1.snapshot != row.1.snapshot then
    some (.conflictingBuild row.1.coordinate seen.2 row.2)
  else none

def pomBuildClash (seen row : ArtifactRow) : Option LockError :=
  if seen.1.pomGav != row.1.pomGav then
    some (.conflictingPomBuild row.1.coordinate.gav seen.1.pomGav row.1.pomGav)
  else none

def pomSha256Clash (seen row : ArtifactRow) : Option LockError :=
  if seen.1.pomSha256 != row.1.pomSha256 then
    some (.conflictingPomSha256 row.1.pomGav seen.1.pomSha256 seen.2 row.1.pomSha256 row.2)
  else none

def checkSupportRow (seen : List SupportRow) (row : SupportRow) : Except LockError Unit := do
  againstFirst (fun row : SupportRow => row.1.1) supportClash seen row
  againstFirst SupportRow.fileGav supportFileClash seen row

/-- Every platform's row for one coordinate pins the same file, and every row
that names one local-repository file pins the same bytes. -/
def checkCrossPlatformPins (platforms : List LockPlatform) : Except LockError Unit := do
  checkEach (againstAll fileClash) [] (artifactRows platforms)
  checkEach checkSupportRow [] (supportRows platforms)
  checkEach (againstFirst (fun row : ArtifactRow => row.1.coordinate) buildClash) []
    (artifactRows platforms)

def supportByFile (platforms : List LockPlatform) (file : Gav) : Option SupportRow :=
  lookupLast SupportRow.fileGav (supportRows platforms) (some file)

def snapshotSupportGav (coord : Text) : Option Gav := do
  let (group, artifact, version) ← splitSupportPomCoord coord
  if Text.endsWith version snapshotSuffix then some ⟨group, artifact, version⟩ else none

/-- The first `-SNAPSHOT` support POM whose bytes differ from the POM that an
artifact row pins for the same coordinate. -/
def conflictingSnapshotPom (supportPoms : OrderedMap Text SupportPom)
    (platforms : List LockPlatform) : Option Text :=
  (platforms.flatMap (·.artifacts)).findSome? fun artifact => do
    let (coord, pin) ← lookupLast (fun entry => snapshotSupportGav entry.1) supportPoms.entries
      (some artifact.coordinate.gav)
    if artifact.pomSha256 != some pin.sha256 then some coord else none

def checkCompanion (platforms : List LockPlatform) (row : ArtifactRow) : Except LockError Unit :=
  match supportByFile platforms row.1.pomGav with
  | some ((coord, support), _) =>
    if some support.sha256 != row.1.pomSha256 then
      .error (.conflictingPomDigest row.1.pomGav coord support.sha256 row.1.coordinate row.2
        row.1.pomSha256)
    else .ok ()
  | none => .ok ()

def checkPomRow (platforms : List LockPlatform) (seen : List ArtifactRow) (row : ArtifactRow) :
    Except LockError Unit := do
  againstFirst (fun row : ArtifactRow => row.1.coordinate.gav) pomBuildClash seen row
  againstFirst (fun row : ArtifactRow => row.1.pomGav) pomSha256Clash seen row
  checkCompanion platforms row

/-- Every artifact row that names one GAV pins the same companion POM, or none,
and a support POM that names that file pins it too. -/
def checkPomPins (platforms : List LockPlatform) : Except LockError Unit := do
  checkEach (checkPomRow platforms) [] (artifactRows platforms)
  match platforms.findSome? fun platform =>
    conflictingSnapshotPom platform.supportPoms platforms with
  | some coord => .error (.conflictingSnapshotPom coord)
  | none => .ok ()

/-- The pins of two platforms describe one local repository. -/
structure LockPlatform.Agrees (p q : LockPlatform) : Prop where
  file : ∀ a ∈ p.artifacts, ∀ b ∈ q.artifacts, a.repositoryPath = b.repositoryPath →
    a.bytesDiffer b = false
  build : ∀ a ∈ p.artifacts, ∀ b ∈ q.artifacts, a.coordinate = b.coordinate →
    a.snapshot = b.snapshot
  pomBuild : ∀ a ∈ p.artifacts, ∀ b ∈ q.artifacts, a.coordinate.gav = b.coordinate.gav →
    a.pomGav = b.pomGav
  pomSha256 : ∀ a ∈ p.artifacts, ∀ b ∈ q.artifacts, a.pomGav = b.pomGav → a.pomSha256 = b.pomSha256
  support : ∀ s ∈ p.supportPoms.entries, ∀ t ∈ q.supportPoms.entries, s.1 = t.1 →
    s.2.snapshot = t.2.snapshot ∧ s.2.sha256 = t.2.sha256
  supportFile : ∀ s ∈ p.supportPoms.entries, ∀ t ∈ q.supportPoms.entries, ∀ file,
    s.2.fileGav s.1 = some file → t.2.fileGav t.1 = some file → s.2.sha256 = t.2.sha256
  companion : ∀ a ∈ p.artifacts, ∀ t ∈ q.supportPoms.entries, t.2.fileGav t.1 = some a.pomGav →
    a.pomSha256 = some t.2.sha256
  snapshotPom : ∀ a ∈ p.artifacts, ∀ t ∈ q.supportPoms.entries,
    snapshotSupportGav t.1 = some a.coordinate.gav → a.pomSha256 = some t.2.sha256

def Consistent (platforms : List LockPlatform) : Prop :=
  ∀ p ∈ platforms, ∀ q ∈ platforms, p.Agrees q

/-! ### Each pass of the checks -/

/-- `R` holds between what any two platforms list under `items`. -/
def Across {β : Type} (platforms : List LockPlatform) (items : LockPlatform → List β)
    (R : β → β → Prop) : Prop :=
  ∀ p ∈ platforms, ∀ q ∈ platforms, ∀ a ∈ items p, ∀ b ∈ items q, R a b

variable {platforms : List LockPlatform}

theorem mem_rows {β : Type} {items : LockPlatform → List β} {row : β × Platform} :
    row ∈ rowsOf items platforms ↔ ∃ p ∈ platforms, row.1 ∈ items p ∧ p.platform = row.2 := by
  simp [rowsOf, Prod.ext_iff]

theorem forall_rows {β : Type} {items : LockPlatform → List β} {R : β → β → Prop} :
    (∀ row ∈ rowsOf items platforms, ∀ row' ∈ rowsOf items platforms, R row.1 row'.1) ↔
      Across platforms items R := by
  constructor
  · intro h p hp q hq a ha b hb
    exact h (a, p.platform) (mem_rows.mpr ⟨p, hp, ha, rfl⟩) (b, q.platform)
      (mem_rows.mpr ⟨q, hq, hb, rfl⟩)
  · intro h row hrow row' hrow'
    obtain ⟨p, hp, ha, -⟩ := mem_rows.mp hrow
    obtain ⟨q, hq, hb, -⟩ := mem_rows.mp hrow'
    exact h p hp q hq row.1 ha row'.1 hb

/-- The support POMs that name one file pin the same bytes. -/
def OneFile (s t : Text × SupportPom) : Prop :=
  ∀ file, s.2.fileGav s.1 = some file → t.2.fileGav t.1 = some file → s.2.sha256 = t.2.sha256

theorem LockArtifact.bytesDiffer_comm (a b : LockArtifact) : a.bytesDiffer b = b.bytesDiffer a := by
  have hany : ∀ a b : LockArtifact, (a.checksums.any fun mine => b.checksums.any fun theirs =>
        theirs.algorithm = mine.algorithm && theirs != mine) = true →
      (b.checksums.any fun mine => a.checksums.any fun theirs =>
        theirs.algorithm = mine.algorithm && theirs != mine) = true := by
    intro a b h
    simp only [any_eq_true, Bool.and_eq_true, decide_eq_true_eq, bne_iff_ne] at h ⊢
    obtain ⟨mine, hmine, theirs, htheirs, halgorithm, hne⟩ := h
    exact ⟨theirs, htheirs, mine, hmine, halgorithm.symm, hne.symm⟩
  have hpin : (a.pin != b.pin) = (b.pin != a.pin) := bne_comm
  rw [bytesDiffer, bytesDiffer, hpin, Bool.eq_iff_iff.mpr ⟨hany a b, hany b a⟩]

theorem fileClash_eq_none_iff {seen row : ArtifactRow} : fileClash seen row = none ↔
    (seen.1.repositoryPath = row.1.repositoryPath → seen.1.bytesDiffer row.1 = false) := by
  simp [fileClash]

theorem files_eq_ok_iff (hself : ∀ p ∈ platforms, ∀ a ∈ p.artifacts, a.bytesDiffer a = false) :
    checkEach (againstAll fileClash) [] (artifactRows platforms) = .ok () ↔
      Across platforms (·.artifacts) fun a b =>
        a.repositoryPath = b.repositoryPath → a.bytesDiffer b = false := by
  rw [checkEach_againstAll_eq_ok_iff, ← forall_rows]
  simp only [fileClash_eq_none_iff]
  constructor
  · intro h
    have : Std.Symm fun a b : ArtifactRow =>
        a.1.repositoryPath = b.1.repositoryPath → a.1.bytesDiffer b.1 = false :=
      ⟨fun a b hab hpath => LockArtifact.bytesDiffer_comm a.1 b.1 ▸ hab hpath.symm⟩
    refine fun a ha b hb => List.Pairwise.forall_of_forall (fun row hrow _ => ?_) h ha hb
    obtain ⟨p, hp, hrow, -⟩ := mem_rows.mp hrow
    exact hself p hp row.1 hrow
  · intro h
    exact pairwise_of_forall_mem_list h

theorem builds_eq_ok_iff :
    checkEach (againstFirst (fun row : ArtifactRow => row.1.coordinate) buildClash) []
        (artifactRows platforms) = .ok () ↔
      Across platforms (·.artifacts) fun a b =>
        a.coordinate = b.coordinate → a.snapshot = b.snapshot := by
  rw [checkEach_againstFirst_eq_ok_iff (fun row => row.1.snapshot), ← forall_rows]
  intro a b _
  simp [buildClash]

theorem supports_eq_ok_iff :
    checkEach checkSupportRow [] (supportRows platforms) = .ok () ↔
      (Across platforms (·.supportPoms.entries) fun s t =>
        s.1 = t.1 → s.2.snapshot = t.2.snapshot ∧ s.2.sha256 = t.2.sha256) ∧
      Across platforms (·.supportPoms.entries) OneFile := by
  have hpin : ∀ a b : SupportRow, a.1.1 = b.1.1 → (supportClash a b = none ↔
      (a.1.2.snapshot, a.1.2.sha256) = (b.1.2.snapshot, b.1.2.sha256)) := by
    intro a b _
    simp [supportClash]
  have hfile : ∀ a b : SupportRow, a.fileGav = b.fileGav → (supportFileClash a b = none ↔
      (a.fileGav.map fun _ => a.1.2.sha256) = b.fileGav.map fun _ => b.1.2.sha256) := by
    intro a b hab
    rw [hab]
    cases hb : b.fileGav <;> simp [supportFileClash, hb]
  have hstep : checkSupportRow = fun seen row => (do
      againstFirst (fun row : SupportRow => row.1.1) supportClash seen row
      againstFirst SupportRow.fileGav supportFileClash seen row) := rfl
  simp only [hstep, checkEach_bind_eq_ok_iff,
    checkEach_againstFirst_eq_ok_iff
      (fun row : SupportRow => (row.1.2.snapshot, row.1.2.sha256)) hpin,
    checkEach_againstFirst_eq_ok_iff
      (fun row : SupportRow => row.fileGav.map fun _ => row.1.2.sha256)
      hfile, Prod.mk.injEq]
  rw [← forall_rows, ← forall_rows]
  refine and_congr Iff.rfl (forall₄_congr fun row _ row' _ => ?_)
  simp only [SupportRow.fileGav, OneFile]
  cases row.1.2.fileGav row.1.1 <;> cases row'.1.2.fileGav row'.1.1 <;> simp [eq_comm]

/-! ### Companion POMs -/

theorem checkCompanion_eq_ok_iff
    (hfile : Across platforms (·.supportPoms.entries) OneFile) {row : ArtifactRow} :
    checkCompanion platforms row = .ok () ↔ ∀ q ∈ platforms, ∀ t ∈ q.supportPoms.entries,
      t.2.fileGav t.1 = some row.1.pomGav → row.1.pomSha256 = some t.2.sha256 := by
  rw [checkCompanion]
  cases hfind : supportByFile platforms row.1.pomGav with
  | none =>
    simp only [true_iff]
    intro q hq t ht hgav
    exact absurd hgav
      (lookupLast_eq_none hfind (t, q.platform) (mem_rows.mpr ⟨q, hq, ht, rfl⟩))
  | some found =>
    obtain ⟨hmem, hgav⟩ := lookupLast_mem hfind
    obtain ⟨p, hp, hs, -⟩ := mem_rows.mp hmem
    have hok : (if some found.1.2.sha256 != row.1.pomSha256 then
        (.error (.conflictingPomDigest row.1.pomGav found.1.1 found.1.2.sha256 row.1.coordinate
          row.2 row.1.pomSha256) : Except LockError Unit) else .ok ()) = .ok () ↔
        row.1.pomSha256 = some found.1.2.sha256 := by
      by_cases h : row.1.pomSha256 = some found.1.2.sha256
      · simp [h]
      · simp [h, Ne.symm h]
    refine hok.trans ⟨fun h q hq t ht htgav => ?_, fun h => h p hp found.1 hs hgav⟩
    rw [h, hfile p hp q hq found.1 hs t ht _ hgav htgav]

theorem snapshotSupportGav_inj {coord coord' : Text} {gav : Gav}
    (h : snapshotSupportGav coord = some gav) (h' : snapshotSupportGav coord' = some gav) :
    coord = coord' := by
  have key : ∀ {c : Text}, snapshotSupportGav c = some gav → c = gav.display := by
    intro c hc
    rw [snapshotSupportGav, Option.bind_eq_bind, Option.bind_eq_some_iff] at hc
    obtain ⟨⟨group, artifact, version⟩, hsplit, hc⟩ := hc
    simp only [Option.ite_none_right_eq_some, Option.some.injEq] at hc
    obtain ⟨-, rfl⟩ := hc
    exact eq_of_splitSupportPomCoord hsplit
  rw [key h, key h']

theorem conflictingSnapshotPom_eq_none_iff {poms : OrderedMap Text SupportPom} :
    conflictingSnapshotPom poms platforms = none ↔
      ∀ p ∈ platforms, ∀ a ∈ p.artifacts, ∀ t ∈ poms.entries,
        snapshotSupportGav t.1 = some a.coordinate.gav → a.pomSha256 = some t.2.sha256 := by
  have hrow : ∀ a : LockArtifact, ((do
        let (coord, pin) ← lookupLast (fun entry => snapshotSupportGav entry.1) poms.entries
          (some a.coordinate.gav)
        if a.pomSha256 != some pin.sha256 then some coord else none) : Option Text) = none ↔
      ∀ t ∈ poms.entries, snapshotSupportGav t.1 = some a.coordinate.gav →
        a.pomSha256 = some t.2.sha256 := by
    intro a
    cases hfind : lookupLast (fun entry => snapshotSupportGav entry.1) poms.entries
        (some a.coordinate.gav) with
    | none =>
      simp only [Option.bind_eq_bind, Option.bind_none, true_iff]
      intro t ht hgav
      exact absurd hgav (lookupLast_eq_none hfind t ht)
    | some found =>
      obtain ⟨hmem, hgav⟩ := lookupLast_mem hfind
      have hok : ((some found >>= fun x =>
          if a.pomSha256 != some x.2.sha256 then some x.1 else none) : Option Text) = none ↔
          a.pomSha256 = some found.2.sha256 := by
        simp
      refine hok.trans ⟨fun h t ht htgav => ?_, fun h => h found hmem hgav⟩
      rw [h, Ordered.eq_of_key_eq hmem ht (snapshotSupportGav_inj hgav htgav)]
  simp only [conflictingSnapshotPom, findSome?_eq_none_iff, hrow, mem_flatMap]
  constructor
  · intro h p hp a ha
    exact h a ⟨p, hp, ha⟩
  · rintro h a ⟨p, hp, ha⟩
    exact h p hp a ha

theorem checkPomRows_eq_ok_iff :
    checkEach (checkPomRow platforms) [] (artifactRows platforms) = .ok () ↔
      (Across platforms (·.artifacts) fun a b =>
        a.coordinate.gav = b.coordinate.gav → a.pomGav = b.pomGav) ∧
      (Across platforms (·.artifacts) fun a b =>
        a.pomGav = b.pomGav → a.pomSha256 = b.pomSha256) ∧
      ∀ row ∈ artifactRows platforms, checkCompanion platforms row = .ok () := by
  have hbuild : ∀ a b : ArtifactRow, a.1.coordinate.gav = b.1.coordinate.gav →
      (pomBuildClash a b = none ↔ a.1.pomGav = b.1.pomGav) := by
    intro a b _
    simp [pomBuildClash]
  have hsha : ∀ a b : ArtifactRow, a.1.pomGav = b.1.pomGav →
      (pomSha256Clash a b = none ↔ a.1.pomSha256 = b.1.pomSha256) := by
    intro a b _
    simp [pomSha256Clash]
  have hstep : checkPomRow platforms = fun seen row => (do
      againstFirst (fun row : ArtifactRow => row.1.coordinate.gav) pomBuildClash seen row
      againstFirst (fun row : ArtifactRow => row.1.pomGav) pomSha256Clash seen row
      checkCompanion platforms row) := rfl
  simp only [hstep, checkEach_bind_eq_ok_iff, checkEach_const_eq_ok_iff,
    checkEach_againstFirst_eq_ok_iff (fun row : ArtifactRow => row.1.pomGav) hbuild,
    checkEach_againstFirst_eq_ok_iff (fun row : ArtifactRow => row.1.pomSha256) hsha]
  rw [← forall_rows, ← forall_rows]

theorem checkPomPins_eq_ok_iff :
    checkPomPins platforms = .ok () ↔
      checkEach (checkPomRow platforms) [] (artifactRows platforms) = .ok () ∧
        ∀ q ∈ platforms, conflictingSnapshotPom q.supportPoms platforms = none := by
  rw [checkPomPins, bind_unit_eq_ok_iff, ← findSome?_eq_none_iff]
  cases platforms.findSome? fun platform =>
    conflictingSnapshotPom platform.supportPoms platforms <;>
    simp

/-- The checks pass exactly where all platforms describe one local
repository, if no row contradicts itself. -/
theorem pins_eq_ok_iff (hself : ∀ p ∈ platforms, ∀ a ∈ p.artifacts, a.bytesDiffer a = false) :
    checkCrossPlatformPins platforms = .ok () ∧ checkPomPins platforms = .ok () ↔
      Consistent platforms := by
  simp only [checkCrossPlatformPins, bind_unit_eq_ok_iff, files_eq_ok_iff hself, supports_eq_ok_iff,
    builds_eq_ok_iff, checkPomPins_eq_ok_iff, checkPomRows_eq_ok_iff,
    conflictingSnapshotPom_eq_none_iff]
  constructor
  · rintro ⟨⟨hfile, ⟨hsupport, hsupportFile⟩, hbuild⟩, ⟨hpomBuild, hpomSha, hcompanion⟩, hsnapshot⟩
    intro p hp q hq
    refine ⟨hfile p hp q hq, hbuild p hp q hq, hpomBuild p hp q hq, hpomSha p hp q hq,
      hsupport p hp q hq, hsupportFile p hp q hq, fun a ha => ?_, hsnapshot q hq p hp⟩
    have := hcompanion (a, p.platform) (mem_rows.mpr ⟨p, hp, ha, rfl⟩)
    exact (checkCompanion_eq_ok_iff hsupportFile).mp this q hq
  · intro h
    have hsupportFile := fun p hp q hq => (h p hp q hq).supportFile
    refine ⟨⟨fun p hp q hq => (h p hp q hq).file, ⟨fun p hp q hq => (h p hp q hq).support,
      hsupportFile⟩, fun p hp q hq => (h p hp q hq).build⟩,
      ⟨fun p hp q hq => (h p hp q hq).pomBuild,
      fun p hp q hq => (h p hp q hq).pomSha256, fun row hrow => ?_⟩,
      fun q hq p hp => (h p hp q hq).snapshotPom⟩
    obtain ⟨p, hp, ha, -⟩ := mem_rows.mp hrow
    exact (checkCompanion_eq_ok_iff hsupportFile).mpr fun q hq =>
      (h p hp q hq).companion row.1 ha

end Raeva.Lock
