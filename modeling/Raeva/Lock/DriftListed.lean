import Raeva.Lock.SameForm

/-!
# Drift and the lines that list it

What drift compares on canonical platforms, and the lines that the two
lockfiles have.
-/

namespace Raeva.Lock

open List

/-- Whether the drift is a changed module, artifact, support POM or system
file. -/
def ResolutionDrift.isRow : ResolutionDrift → Bool
  | .module _ _ | .artifact _ _ | .supportPom _ _ | .systemFile _ => true
  | _ => false

/-- Modules that no line tells apart: they differ at most in the support POMs
that they list and in how often they list an edge. -/
structure ShownAlike (m n : LockModule) : Prop where
  path : m.path = n.path
  gav : m.gav = n.gav
  packaging : m.packaging = n.packaging
  packages : m.packages.Perm n.packages
  edges : ∀ edge, edge ∈ namedEdges m ↔ edge ∈ namedEdges n
  parentRanges : m.parentRanges.Perm n.parentRanges

/-! ## Comparing equal rows -/

theorem systemFileDrift_eq_none {left right : LockModule} (h : left.packages = right.packages) :
    systemFileDrift left right = none := by
  rw [systemFileDrift, h, if_pos rfl, findSome?_eq_none_iff]
  rintro ⟨l, r⟩ hmem
  have hids : right.packages.map id = right.packages.map id := rfl
  obtain rfl : l = r := (map_eq_map_iff_zip.mp hids).2 hmem
  exact if_neg fun hdiffer => hdiffer.2 rfl

theorem modulePairDrift_self (platform : Platform) (own fresh : Text → Option Text)
    (module : LockModule) : modulePairDrift platform own fresh module module = none := by
  simp [modulePairDrift, systemFileDrift_eq_none rfl]

theorem supportPomDiffers_self (declared : Text → Bool) (coord : Text) (pin : SupportPom) :
    supportPomDiffers declared coord (some pin) (some pin) = false := by
  simp [supportPomDiffers]

theorem supportPomDrift_eq_none {lhs rhs : LockPlatform} (h : lhs.supportPoms = rhs.supportPoms)
    (declared : Text → Bool) : supportPomDrift lhs rhs declared = none := by
  rw [supportPomDrift, Option.map_eq_none_iff, find?_eq_none]
  intro coord hcoord
  rw [h] at hcoord ⊢
  rw [mem_append, or_self, OrderedMap.keys, mem_map] at hcoord
  obtain ⟨entry, hentry, rfl⟩ := hcoord
  rw [OrderedMap.lookup_eq_some_iff.mpr hentry, supportPomDiffers_self]
  simp

/-- Rows that are the same to the comparison, coordinate by coordinate, are no drift. -/
theorem artifactDrift_eq_none {lhs rhs : LockPlatform} {declared : Text → Bool}
    (hleft : (lhs.artifacts.map (·.coordinate.sortKey)).Nodup)
    (hright : (rhs.artifacts.map (·.coordinate.sortKey)).Nodup)
    (hold : ∀ r ∈ rhs.artifacts, ∃ l ∈ lhs.artifacts, l.coordinate = r.coordinate)
    (hnew : ∀ l ∈ lhs.artifacts, ∃ r ∈ rhs.artifacts, SameRow l r) :
    artifactDrift lhs rhs declared = none := by
  have hadded : ((artifactsByCoordinate rhs).entries.find? fun artifact =>
      !(artifactsByCoordinate lhs).contains artifact.coordinate.sortKey) = none := by
    rw [find?_eq_none]
    intro r hr
    obtain ⟨l, hl, hcoordinate⟩ := hold r ((Ordered.mem_ofList hright).mp hr)
    have hcontains : (artifactsByCoordinate lhs).contains r.coordinate.sortKey = true :=
      Ordered.contains_iff.mpr ⟨l, (Ordered.mem_ofList hleft).mpr hl, by rw [hcoordinate]⟩
    rw [hcontains]
    simp
  rw [artifactDrift]
  simp only [hadded, findSome?_eq_none_iff]
  intro l hl
  obtain ⟨r, hr, hrow⟩ := hnew l ((Ordered.mem_ofList hleft).mp hl)
  have hfind : (artifactsByCoordinate rhs).find? l.coordinate.sortKey = some r :=
    Ordered.find?_eq_some_iff.mpr ⟨(Ordered.mem_ofList hright).mpr hr, by rw [hrow.coordinate]⟩
  rw [hfind]
  have horigin : originDrifted l r declared = false := by
    simp [originDrifted, hrow.otherRepoUrls, hrow.pomRepoUrls, hrow.repoUrl]
  simp [horigin, hrow.snapshot, hrow.pomBuild, hrow.pomSha256, checksumDrifted, hrow.checksums]

/-! ## Drift without a line -/

section Drift

variable {lock fresh : Lockfile} {p q : LockPlatform}

variable {drift : ResolutionDrift} {declared : Platform → Text → Bool} {m n : LockModule}

theorem Facing.shownAlike [UrlParser] (h : Facing lock fresh p q) (hm : m ∈ p.modules)
    (hn : n ∈ q.modules) (hpath : m.path = n.path) : ShownAlike m n :=
  ⟨hpath, h.sameCoordinates.gav m hm n hn hpath, h.sameCoordinates.packaging m hm n hn hpath,
    h.packages_perm hm hn hpath, h.mem_namedEdges_iff hm hn hpath, h.parentRanges_perm hm hn hpath⟩

theorem SameCoordinates.map_path_eq (h : SameCoordinates p q) (hp : Distinct p) (hq : Distinct q) :
    (canonicalModules p).map (·.path) = (canonicalModules q).map (·.path) := by
  have hmem : ∀ path, path ∈ p.modules.map (·.path) ↔ path ∈ q.modules.map (·.path) := by
    intro path
    simp only [mem_map]
    constructor
    · rintro ⟨m, hm, rfl⟩
      exact h.left m hm
    · rintro ⟨n, hn, rfl⟩
      exact h.right n hn
  have hperm := (path_canonicalModules_perm p).trans
    (((perm_ext_iff_of_nodup hp.paths hq.paths).mpr hmem).trans (path_canonicalModules_perm q).symm)
  have hsorted :
      ∀ r : LockPlatform, ((canonicalModules r).map (·.path)).Pairwise (id · ≤ id ·) := by
    intro r
    rw [canonicalModules, map_map]
    exact pairwise_map.mpr (sortBy_sorted LockModule.path r.modules)
  exact eq_of_perm_of_sorted hperm (fun _ _ _ _ hab => hab) (hsorted p) (hsorted q)

theorem modulePairDrift_of_shownAlike {platform : Platform} {own other : Text → Option Text}
    (h : ShownAlike m n)
    (hdrift : modulePairDrift platform own other (canonicalizeModule m) (canonicalizeModule n) =
      some drift) : drift = .module platform m.path := by
  have hpackages := canonicalizeModule_packages_eq h.packages
  have hpath : (canonicalizeModule m).path = (canonicalizeModule n).path := h.path
  rw [modulePairDrift, if_neg (not_not.mpr hpath), systemFileDrift_eq_none hpackages] at hdrift
  simp only at hdrift
  split at hdrift
  · exact (Option.some.inj hdrift).symm
  · cases hdrift

theorem Facing.moduleDrift_cases [ContentHash] [UrlParser] (h : Facing lock fresh p q)
    (hdrift : moduleDrift (canonicalPlatform lock p) (canonicalPlatform fresh q) = some drift) :
    ∃ m ∈ p.modules, ∃ n ∈ q.modules, drift = .module p.platform m.path ∧ ShownAlike m n := by
  have hpaths := h.sameCoordinates.map_path_eq h.distinct_left h.distinct_right
  have hlength := congrArg List.length hpaths
  rw [length_map, length_map] at hlength
  rw [moduleDrift, canonicalPlatform_modules, canonicalPlatform_modules,
    if_neg (not_not.mpr hlength), canonicalPlatform_platform] at hdrift
  obtain ⟨⟨left, right⟩, hpair, hdrift⟩ := exists_of_findSome?_eq_some hdrift
  obtain ⟨hleft, hright⟩ := of_mem_zip hpair
  have hpath : left.path = right.path := (map_eq_map_iff_zip.mp hpaths).2 hpair
  obtain ⟨m, hm, rfl⟩ := mem_map.mp hleft
  obtain ⟨n, hn, rfl⟩ := mem_map.mp hright
  rw [mem_sortBy] at hm hn
  have hshown := h.shownAlike hm hn hpath
  exact ⟨m, hm, n, hn, modulePairDrift_of_shownAlike hshown hdrift, hshown⟩

theorem nodup_canonicalPlatform_artifacts [ContentHash] (hp : Distinct p) :
    ((canonicalPlatform lock p).artifacts.map (·.coordinate.sortKey)).Nodup := by
  rw [canonicalPlatform_artifacts, map_map]
  have hperm : ((sortBy (fun a : LockArtifact => a.coordinate.sortKey) p.artifacts).map
      fun a => a.coordinate.sortKey).Perm (p.artifacts.map fun a => a.coordinate.sortKey) :=
    (sortBy_perm _ _).map _
  have hnodup := hp.artifacts.map ArtifactCoord.sortKey_injective
  rw [map_map] at hnodup
  exact hperm.nodup_iff.mpr hnodup

theorem SameRow.canonicalizeArtifact {a b : LockArtifact} (h : SameRow a b) :
    SameRow (canonicalizeArtifact a) (canonicalizeArtifact b) := by
  refine ⟨h.coordinate, h.snapshot, ?_, h.repoUrl, ?_, ?_, h.pomBuild, h.pomSha256⟩
  · simp only [Lock.canonicalizeArtifact, h.checksums]
  · simp only [Lock.canonicalizeArtifact, h.otherRepoUrls, h.repoUrl]
  · simp only [Lock.canonicalizeArtifact, h.otherRepoUrls, h.repoUrl, h.pomRepoUrls]

theorem Facing.artifactDrift_eq_none [ContentHash] [UrlParser] (h : Facing lock fresh p q)
    (declared : Text → Bool) :
    artifactDrift (canonicalPlatform lock p) (canonicalPlatform fresh q) declared = none := by
  refine Lock.artifactDrift_eq_none (nodup_canonicalPlatform_artifacts h.distinct_left)
    (nodup_canonicalPlatform_artifacts h.distinct_right) (fun r hr => ?_) fun l hl => ?_
  · obtain ⟨b, hb, rfl⟩ := mem_canonicalPlatform_artifacts.mp hr
    obtain ⟨a, ha, hcoordinate⟩ := h.artifact_mem_old hb
    exact ⟨_, mem_canonicalPlatform_artifacts.mpr ⟨a, ha, rfl⟩, hcoordinate⟩
  · obtain ⟨a, ha, rfl⟩ := mem_canonicalPlatform_artifacts.mp hl
    obtain ⟨b, hb, hrow⟩ := h.artifact_mem_new ha
    exact ⟨_, mem_canonicalPlatform_artifacts.mpr ⟨b, hb, rfl⟩, hrow.canonicalizeArtifact⟩

/-- Drift between two platforms is named before the rows are compared, or
comes from one of the three kinds of rows. -/
theorem platformDrift_cases {lhs rhs : LockPlatform}
    (h : platformDrift declared lhs rhs = some drift) (hrow : drift.isRow = true) :
    lhs.platform = rhs.platform ∧ (moduleDrift lhs rhs = some drift ∨
        artifactDrift lhs rhs (declared lhs.platform) = some drift ∨
        supportPomDrift lhs rhs (declared lhs.platform) = some drift) := by
  rw [platformDrift] at h
  split at h
  · cases h
    cases hrow
  rename_i hplatform
  refine ⟨not_not.mp hplatform, ?_⟩
  split at h
  · cases h
    cases hrow
  · rcases Option.or_eq_some_iff.mp h with h | ⟨-, h⟩
    · exact .inl h
    · exact .inr ((Option.or_eq_some_iff.mp h).imp id fun h => h.2)

theorem resolutionDrift_cases [Lowercase] [UrlParser] [ContentHash]
    (h : resolutionDrift lock fresh declared = some drift) (hrow : drift.isRow = true) :
    ∃ p ∈ lock.platforms, ∃ q ∈ fresh.platforms,
      platformDrift declared (canonicalPlatform lock p) (canonicalPlatform fresh q) =
        some drift := by
  rw [resolutionDrift] at h
  split at h
  · rename_i a b ha hb
    split at h
    · cases h
      cases hrow
    split at h
    · cases h
      cases hrow
    split at h
    · cases h
      cases hrow
    obtain ⟨⟨lhs, rhs⟩, hpair, hdrift⟩ := exists_of_findSome?_eq_some h
    obtain ⟨hleft, hright⟩ := of_mem_zip hpair
    rw [canonical_eq_ok ha] at hleft
    rw [canonical_eq_ok hb] at hright
    obtain ⟨p, hp, rfl⟩ := mem_map.mp hleft
    obtain ⟨q, hq, rfl⟩ := mem_map.mp hright
    exact ⟨p, (mem_sortBy _).mp hp, q, (mem_sortBy _).mp hq, hdrift⟩
  · cases h
    cases hrow

theorem Unlisted.resolutionDrift_cases [Lowercase] [ContentHash] [UrlParser]
    (h : Unlisted lock fresh) (hlock : Comparable lock) (hfresh : Comparable fresh)
    (hdrift : resolutionDrift lock fresh declared = some drift) (hrow : drift.isRow = true) :
    ∃ p ∈ lock.platforms, ∃ q ∈ fresh.platforms, p.platform = q.platform ∧
      ∃ m ∈ p.modules, ∃ n ∈ q.modules, drift = .module p.platform m.path ∧ ShownAlike m n := by
  obtain ⟨p, hp, q, hq, hplatform⟩ := Lock.resolutionDrift_cases hdrift hrow
  obtain ⟨hpq, hcases⟩ := platformDrift_cases hplatform hrow
  rw [canonicalPlatform_platform, canonicalPlatform_platform] at hpq
  refine ⟨p, hp, q, hq, hpq, ?_⟩
  have h : Facing lock fresh p q := ⟨h, hlock, hfresh, hp, hq, hpq⟩
  rcases hcases with hmodule | hartifact | hpom
  · exact h.moduleDrift_cases hmodule
  · rw [h.artifactDrift_eq_none] at hartifact
    cases hartifact
  have hpoms :
      (canonicalPlatform lock p).supportPoms = (canonicalPlatform fresh q).supportPoms := by
    rw [canonicalPlatform_supportPoms, canonicalPlatform_supportPoms]
    exact h.supportPoms_eq
  rw [supportPomDrift_eq_none hpoms] at hpom
  cases hpom

/-! ## One canonical form -/

theorem inputsDrifted_self (lock : Lockfile) : inputsDrifted lock lock = false := by
  simp only [inputsDrifted, bne_self_eq_false, Bool.and_false, Bool.false_or, any_eq_false]
  intro condition _
  split
  · rename_i holds now hholds hnow
    cases hholds.symm.trans hnow
    simp
  · simp

theorem profilesDrifted_self (p : LockPlatform) : profilesDrifted p p = false := by
  cases h : p.modelInputs <;> simp [profilesDrifted, h]

theorem platformDrift_self (hp : Distinct p) : platformDrift declared p p = none := by
  have hids : p.modules.map id = p.modules.map id := rfl
  have hmodules : moduleDrift p p = none := by
    rw [moduleDrift, if_neg (not_not.mpr rfl), findSome?_eq_none_iff]
    rintro ⟨left, right⟩ hpair
    obtain rfl : left = right := (map_eq_map_iff_zip.mp hids).2 hpair
    exact modulePairDrift_self _ _ _ _
  have hnodup : (p.artifacts.map (·.coordinate.sortKey)).Nodup := by
    have := hp.artifacts.map ArtifactCoord.sortKey_injective
    rwa [map_map] at this
  have hartifacts : artifactDrift p p (declared p.platform) = none :=
    artifactDrift_eq_none hnodup hnodup (fun r hr => ⟨r, hr, rfl⟩)
      fun l hl => ⟨l, hl, rfl, rfl, rfl, rfl, rfl, rfl, rfl, rfl⟩
  rw [platformDrift, if_neg (not_not.mpr rfl), profilesDrifted_self, hmodules, hartifacts,
    supportPomDrift_eq_none rfl]
  rfl

theorem resolutionDrift_of_canonical_eq [Lowercase] [UrlParser] [ContentHash] {form : Lockfile}
    (h : canonical lock = .ok form) (h' : canonical fresh = .ok form)
    (declared : Platform → Text → Bool) : resolutionDrift lock fresh declared = none := by
  have hentries := (check_distinct (check_of_canonical h)).entries
  have hids : form.platforms.map id = form.platforms.map id := rfl
  simp only [resolutionDrift, h, h', inputsDrifted_self, ne_eq, not_true_eq_false, if_false,
    Bool.false_eq_true, findSome?_eq_none_iff]
  rintro ⟨lhs, rhs⟩ hpair
  obtain rfl : lhs = rhs := (map_eq_map_iff_zip.mp hids).2 hpair
  exact platformDrift_self (hentries lhs (of_mem_zip hpair).1)

def Reordered (p q : LockPlatform) : Prop :=
  ∃ modules artifacts, q = { p with modules, artifacts } ∧ p.modules.Perm modules ∧
    p.artifacts.Perm artifacts

theorem Reordered.canonicalPlatform_eq [ContentHash] (h : Reordered p q) (hp : Distinct p) :
    canonicalPlatform lock q = canonicalPlatform lock p := by
  obtain ⟨modules, artifacts, rfl, hmodules, hartifacts⟩ := h
  obtain ⟨hash, hhash⟩ : ∃ hash, ∀ modules artifacts, withModelHash { p with modules, artifacts } =
      { p with modules, artifacts, modelHash := hash } := by
    simp only [withModelHash]
    split
    · exact ⟨_, fun _ _ => rfl⟩
    · split <;> exact ⟨_, fun _ _ => rfl⟩
  simp only [canonicalPlatform, hhash, canonicalizePlatform]
  rw [sortBy_eq_of_perm hmodules (inj_on_of_nodup_map hp.paths),
    sortBy_eq_of_perm hartifacts fun a ha b hb hab => inj_on_of_nodup_map hp.artifacts ha hb
      (ArtifactCoord.sortKey_injective hab)]

/-- The lockfile that is written does not depend on the order in which the
platforms and their rows were resolved. -/
theorem canonical_reordered [Lowercase] [UrlParser] [ContentHash] {form : Lockfile}
    {l : List LockPlatform}
    {f : LockPlatform → LockPlatform} (h : canonical lock = .ok form)
    (hl : lock.platforms.Perm l) (hf : ∀ p ∈ lock.platforms, Reordered p (f p)) :
    canonical { lock with platforms := l.map f } = .ok form ∧
      ∀ declared, resolutionDrift lock { lock with platforms := l.map f } declared = none := by
  have hdistinct := canonical_distinct h
  have hmap :
      ∀ l : List LockPlatform, (sortBy (·.platform.display) l).map (canonicalPlatform lock) =
      sortBy (·.platform.display) (l.map (canonicalPlatform lock)) := fun l =>
    map_insertionSort _ _ _ l fun a _ b _ => by simp
  have hrows : (l.map f).map (canonicalPlatform lock) = l.map (canonicalPlatform lock) := by
    rw [map_map]
    refine map_congr_left fun p hp => ?_
    have hp := hl.mem_iff.mpr hp
    exact (hf p hp).canonicalPlatform_eq (hdistinct.entries p hp)
  have hsorted : (sortBy (·.platform.display) (l.map f)).map (canonicalPlatform lock) =
      (sortBy (·.platform.display) lock.platforms).map (canonicalPlatform lock) := by
    rw [hmap, hrows, ← hmap, sortBy_eq_of_perm hl fun a ha b hb hab => inj_on_of_nodup_map
      hdistinct.platforms ha hb (Platform.display_injective hab)]
  have hform : canonical { lock with platforms := l.map f } = .ok form := by
    rw [← h]
    exact congrArg (fun platforms => do
      check { lock with platforms }
      return { lock with platforms }) hsorted
  exact ⟨hform, resolutionDrift_of_canonical_eq h hform⟩

end Drift

/-- A drift in the rows of two checked lockfiles is listed, unless it is that of
a module in what no line shows; lockfiles with one canonical form have no drift
and, with the lists of their rows in one order, no lines. -/
theorem resolutionDrift_listed [Lowercase] [ContentHash] [UrlParser]
    (declared : Platform → Text → Bool) :
    (∀ lock fresh : Lockfile, check lock = .ok () → check fresh = .ok () →
      (∀ p ∈ lock.platforms, SnapshotRows p) → (∀ q ∈ fresh.platforms, SnapshotRows q) →
      ∀ drift, resolutionDrift lock fresh declared = some drift → drift.isRow = true →
        lockChangeLines lock fresh none ≠ [] ∨
        ∃ p ∈ lock.platforms, ∃ q ∈ fresh.platforms, p.platform = q.platform ∧
          ∃ m ∈ p.modules, ∃ n ∈ q.modules, drift = .module p.platform m.path ∧ ShownAlike m n) ∧
    ∀ lock fresh form : Lockfile, canonical lock = .ok form → canonical fresh = .ok form →
      resolutionDrift lock fresh declared = none ∧
      ((∀ p ∈ lock.platforms, ∀ q ∈ fresh.platforms, p.platform = q.platform → RowsInOrder p q) →
        lockChangeLines lock fresh none = []) := by
  refine ⟨fun lock fresh h h' hstamps hstamps' drift hdrift hrow => ?_,
    fun lock fresh form h h' => ⟨resolutionDrift_of_canonical_eq h h' declared, fun horder => ?_⟩⟩
  · rw [or_iff_not_imp_left, not_not, lockChangeLines_eq_nil_iff]
    intro hlines
    exact hlines.resolutionDrift_cases (check_comparable h hstamps) (check_comparable h' hstamps')
      hdrift hrow
  · exact lockChangeLines_eq_nil_iff.mpr ((sameForms_of_canonical_eq h h' horder).unlisted
      (canonical_distinct h) (canonical_distinct h'))

section Witness

local instance listedLowercase : Lowercase := asciiLowercase
local instance listedUrls : UrlParser := httpsParser
local instance listedHash : ContentHash := sampleHash
/-- One module of which everything that the cases below change is given. -/
def listedLock (artifact : LockArtifact) (edges : List LockEdge) (poms : List Text) : Lockfile :=
  sampleLock [{ samplePlatform linux [artifact]
    [{ sampleModule "pom.xml" (sampleGav "app" "1.0")
        [{ samplePackage artifact.coordinate.gav with coordinate := artifact.coordinate }] with
        edges, supportPoms := poms }] with
    supportPoms := .ofList [("com.example:base:1",
      ⟨"https://repo.example/", hexOf 64 'a' isLowerHexDigit_replicate, none⟩)] }]

def demoRow (version : String) : LockArtifact :=
  sampleArtifact (sampleGav "demo" version)

theorem sampleStamp_valid : isSnapshotTimestamp "20240101.000000" = true ∧ 1 < 2 ^ 32 := by
  decide +kernel

def sampleStamp : SnapshotStamp :=
  ⟨"20240101.000000", 1, sampleStamp_valid⟩

theorem snapshotRows_listedLock (version : String) :
    ∀ p ∈ (listedLock (demoRow version) [] []).platforms, SnapshotRows p := by
  intro p hp a ha hsome
  simp only [listedLock, sampleLock, mem_singleton] at hp
  subst hp
  simp only [samplePlatform, mem_singleton] at ha
  subst ha
  cases hsome

def twoModules (platform : Platform) : LockPlatform :=
  samplePlatform platform [demoRow "1", sampleArtifact (sampleGav "lib" "1")]
    [sampleModule "pom.xml" (sampleGav "app" "1.0") [samplePackage (sampleGav "demo" "1")],
      sampleModule "core/pom.xml" (sampleGav "core" "1.0") [samplePackage (sampleGav "lib" "1")]]

def turned (p : LockPlatform) : LockPlatform :=
  { p with modules := p.modules.reverse, artifacts := p.artifacts.reverse }

def linuxFirst : Lockfile :=
  sampleLock [twoModules linux, twoModules macos]

def macosFirst : Lockfile :=
  sampleLock [turned (twoModules macos), turned (twoModules linux)]

/-- A version that changed is drift with a line; the same platforms, modules and
artifacts in another order are neither. -/
theorem resolutionDrift_listed_demo :
    (lockChangeLines (listedLock (demoRow "1") [] []) (listedLock (demoRow "2") [] []) none ≠ [] ∨
      ∃ p ∈ (listedLock (demoRow "1") [] []).platforms,
        ∃ q ∈ (listedLock (demoRow "2") [] []).platforms, p.platform = q.platform ∧
          ∃ m ∈ p.modules, ∃ n ∈ q.modules,
            ResolutionDrift.module linux "pom.xml" = .module p.platform m.path ∧
              ShownAlike m n) ∧
      linuxFirst ≠ macosFirst ∧ resolutionDrift linuxFirst macosFirst (fun _ _ => false) = none ∧
      lockChangeLines linuxFirst macosFirst none = [] := by
  have hchecks : check (listedLock (demoRow "1") [] []) = .ok () ∧
      check (listedLock (demoRow "2") [] []) = .ok () ∧
      resolutionDrift (listedLock (demoRow "1") [] []) (listedLock (demoRow "2") [] [])
        (fun _ _ => false) = some (.module linux "pom.xml") ∧
      (canonical linuxFirst).isOk = true ∧ canonical macosFirst = canonical linuxFirst := by
    decide +kernel
  obtain ⟨hone, htwo, hdrift, hform, hsameForm⟩ := hchecks
  obtain ⟨hlisted, hsame⟩ := resolutionDrift_listed fun _ _ => false
  refine ⟨hlisted _ _ hone htwo (snapshotRows_listedLock "1") (snapshotRows_listedLock "2") _ hdrift
    rfl, ?_⟩
  obtain ⟨form, hcanonical⟩ := exists_of_isOk hform
  obtain ⟨hnone, hlines⟩ := hsame _ _ form hcanonical (hsameForm.trans hcanonical)
  have horder : ∀ p ∈ linuxFirst.platforms, ∀ q ∈ macosFirst.platforms, ∀ a ∈ p.artifacts,
      ∀ b ∈ q.artifacts, a.checksums = b.checksums ∧ a.otherRepoUrls = b.otherRepoUrls ∧
        a.pomRepoUrls = b.pomRepoUrls := by
    decide +kernel
  exact ⟨by decide +kernel, hnone, hlines fun p hp q hq _ a ha b hb _ => horder p hp q hq a ha b hb⟩

abbrev DriftsUnlisted (lock fresh : Lockfile) : Prop :=
  check lock = .ok () ∧ check fresh = .ok () ∧
    resolutionDrift lock fresh (fun _ _ => false) = some (.module linux "pom.xml") ∧
    lockChangeLines lock fresh none = []

/-- Drift without a line: a module that lists one more support POM, an edge that
is listed twice, and a build recorded for the version that it resolves to; and a
line between two lockfiles with one canonical form: two origins in another
order. -/
theorem resolutionDrift_unlisted :
    DriftsUnlisted (listedLock (demoRow "1") [] [])
        (listedLock (demoRow "1") [] ["com.example:base:1"]) ∧
      DriftsUnlisted (listedLock (demoRow "1") [⟨0, 0, none, false⟩] [])
        (listedLock (demoRow "1") [⟨0, 0, none, false⟩, ⟨0, 0, none, false⟩] []) ∧
      DriftsUnlisted (listedLock { demoRow "1-SNAPSHOT" with snapshot := some sampleStamp } [] [])
        (listedLock { demoRow "1-20240101.000000-1" with snapshot := some sampleStamp } [] []) ∧
      canonical (listedLock { demoRow "1" with
          otherRepoUrls := ["https://a/", "https://b/"] } [] []) =
        canonical (listedLock { demoRow "1" with
          otherRepoUrls := ["https://b/", "https://a/"] } [] []) ∧
      check (listedLock { demoRow "1" with
          otherRepoUrls := ["https://a/", "https://b/"] } [] []) = .ok () ∧
      lockChangeLines
        (listedLock { demoRow "1" with
          otherRepoUrls := ["https://a/", "https://b/"] } [] [])
        (listedLock { demoRow "1" with
          otherRepoUrls := ["https://b/", "https://a/"] } [] []) none ≠ [] := by
  decide +kernel

theorem canonical_reordered_reverse :
    ∃ form, canonical linuxFirst = .ok form ∧ canonical macosFirst = .ok form := by
  have hok : (canonical linuxFirst).isOk = true := by decide +kernel
  obtain ⟨form, hform⟩ := exists_of_isOk hok
  have hturned : ∀ p, Reordered p (turned p) := fun _ =>
    ⟨_, _, rfl, (reverse_perm _).symm, (reverse_perm _).symm⟩
  exact ⟨form, hform, (canonical_reordered hform (.swap _ _ _) fun p _ => hturned p).1⟩

end Witness

end Raeva.Lock
