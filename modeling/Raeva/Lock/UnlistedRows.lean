import Mathlib.Data.List.ReduceOption
import Raeva.Lock.ChangesListed

/-!
# The rows of lockfiles without a line between them

On each platform the modules, their packages and edges, the artifact rows, the
parent ranges and the support POMs of one side are those of the other.
-/

namespace Raeva.Lock

open List

/-! ## What the checks say about a package -/

inductive PackageRow (p : LockPlatform) (package : LockModulePackage) : Prop where
  | workspace {m : LockModule} (hworkspace : package.workspaceModule = some m.path)
      (hsystem : package.systemPath = none) (hsha : package.systemSha256 = none)
      (hm : m ∈ p.modules) (hgav : package.coordinate.gav = m.gav)
  | system {path : Text} {digest : Sha256} (hworkspace : package.workspaceModule = none)
      (hsystem : package.systemPath = some path) (hsha : package.systemSha256 = some digest)
  | external {a : LockArtifact} (hworkspace : package.workspaceModule = none)
      (hsystem : package.systemPath = none) (hsha : package.systemSha256 = none)
      (ha : a ∈ p.artifacts) (hcoordinate : a.coordinate = package.coordinate)

variable {package : LockModulePackage} {path : Text} {p : LockPlatform} {index : ℕ}
  {lock : Lockfile}

theorem artifactIndex_eq_some {coordinate : ArtifactCoord}
    (h : artifactIndex p coordinate = some index) :
    ∃ a, p.artifacts[index]? = some a ∧ a.coordinate = coordinate := by
  obtain ⟨hlt, hcoordinate, -⟩ := findIdx?_eq_some_iff_getElem.mp h
  exact ⟨_, getElem?_eq_getElem hlt, of_decide_eq_true hcoordinate⟩

theorem checkSystemPackage_eq_ok (h : checkSystemPackage package path = .ok ()) :
    package.systemPath.isSome = package.systemSha256.isSome := by
  rw [checkSystemPackage] at h
  split at h
  · simp_all
  · cases h
  · cases h
  · simp_all

theorem validatePackage_row {used : Option ℕ} (h : validatePackage p path package = .ok used) :
    PackageRow p package ∧ ∀ index, used = some index → package.workspaceModule = none ∧
      package.systemPath = none ∧ artifactIndex p package.coordinate = some index := by
  have hgav : ∀ workspace, package.workspaceModule = some workspace →
      ∃ m ∈ p.modules, m.path = workspace ∧ package.coordinate.gav = m.gav :=
    fun _ hworkspace => validatePackage_workspace h hworkspace
  simp only [validatePackage, bind_unit_eq_ok_iff, refuseIf_eq_ok_iff] at h
  obtain ⟨hboth, hsystem, h⟩ := h
  have hsome := checkSystemPackage_eq_ok hsystem
  cases hworkspace : package.workspaceModule with
  | some workspace =>
    obtain ⟨m, hm, rfl, hgav⟩ := hgav workspace hworkspace
    rw [hworkspace, Option.isSome_some, Bool.true_and] at hboth
    rw [hboth] at hsome
    rw [hworkspace] at h
    obtain ⟨m, -, h⟩ := bind_eq_ok h
    simp only [bind_unit_eq_ok_iff] at h
    cases h.2.2
    exact ⟨.workspace hworkspace (by simpa using hboth) (by simpa using hsome) hm hgav, by simp⟩
  | none =>
    rw [hworkspace] at h
    cases hpath : package.systemPath with
    | some path =>
      rw [hpath] at h hsome
      obtain ⟨digest, hdigest⟩ := Option.isSome_iff_exists.mp hsome.symm
      cases (bind_unit_eq_ok_iff.mp h).2
      exact ⟨.system hworkspace hpath hdigest, by simp⟩
    | none =>
      rw [hpath] at h hsome
      obtain ⟨index, hindex, h⟩ := bind_eq_ok h
      cases h
      have hfound := orFault_eq_ok hindex
      obtain ⟨a, hget, hcoordinate⟩ := artifactIndex_eq_some hfound
      exact ⟨.external hworkspace hpath (by simpa using hsome) (mem_of_getElem? hget) hcoordinate,
        by simp [hfound]⟩

theorem check_packageRow [Lowercase] [UrlParser] (h : check lock = .ok ()) (hp : p ∈ lock.platforms)
    {m : LockModule} (hm : m ∈ p.modules) (hpackage : package ∈ m.packages) :
    PackageRow p package := by
  obtain ⟨-, -, hmodules⟩ := validatePlatform_modules ((check_eq_ok h).2.entries p hp)
  obtain ⟨used, hused⟩ := hmodules m hm
  obtain ⟨used, hrow⟩ := (validateModule_eq_ok hused).2.2.1 package hpackage
  exact (validatePackage_row hrow).1

theorem check_artifact_used [Lowercase] [UrlParser] (h : check lock = .ok ())
    (hp : p ∈ lock.platforms)
    {a : LockArtifact} (ha : a ∈ p.artifacts) :
    ∃ m ∈ p.modules, ∃ package ∈ m.packages, package.workspaceModule = none ∧
      package.systemPath = none ∧ package.coordinate = a.coordinate := by
  have hentry := (check_eq_ok h).2.entries p hp
  simp only [validatePlatform, bind_unit_eq_ok_iff] at hentry
  obtain ⟨used, hused, horphans⟩ := bind_eq_ok hentry.2.2.2.2
  rw [forM_eq_ok_iff] at horphans
  obtain ⟨index, hget⟩ := mem_iff_getElem?.mp ha
  have hindex := horphans (a, index) (mem_zipIdx_iff_getElem?.mpr hget)
  rw [refuseIf_eq_ok_iff, Bool.not_eq_false', any_eq_true] at hindex
  obtain ⟨rows, hrows, hindex⟩ := hindex
  obtain ⟨m, hm, hmodule⟩ := mem_of_mapM_eq_ok hused rows hrows
  simp only [validateModule, bind_unit_eq_ok_iff] at hmodule
  obtain ⟨indices, hindices, hmodule⟩ := bind_eq_ok hmodule.2.2
  cases (bind_unit_eq_ok_iff.mp hmodule).2
  have hsome : some index ∈ indices := by
    exact (reduceOption_mem_iff).mp (contains_iff_mem.mp hindex)
  obtain ⟨package, hpackage, hrow⟩ := mem_of_mapM_eq_ok hindices _ hsome
  obtain ⟨hworkspace, hsystem, hfound⟩ := (validatePackage_row hrow).2 index rfl
  obtain ⟨b, hb, hcoordinate⟩ := artifactIndex_eq_some hfound
  cases hget.symm.trans hb
  exact ⟨m, hm, package, hpackage, hworkspace, hsystem, hcoordinate.symm⟩

/-! ## Modules -/

section Unlisted

variable {old new : Lockfile} {p q : LockPlatform}

variable {package : LockModulePackage} {path : Text} {m n : LockModule}
  {package' : LockModulePackage} {lock : Lockfile}

/-- The modules of two platforms by path, with one coordinate on both sides. -/
structure SameCoordinates (p q : LockPlatform) : Prop where
  left : ∀ m ∈ p.modules, ∃ n ∈ q.modules, n.path = m.path
  right : ∀ n ∈ q.modules, ∃ m ∈ p.modules, m.path = n.path
  gav : ∀ m ∈ p.modules, ∀ n ∈ q.modules, m.path = n.path → m.gav = n.gav
  packaging : ∀ m ∈ p.modules, ∀ n ∈ q.modules, m.path = n.path → m.packaging = n.packaging

theorem SameCoordinates.symm (h : SameCoordinates p q) : SameCoordinates q p :=
  ⟨h.right, h.left, fun n hn m hm hpath => (h.gav m hm n hn hpath.symm).symm,
    fun n hn m hm hpath => (h.packaging m hm n hn hpath.symm).symm⟩

/-- Without a module change, modules of one path have one coordinate. -/
theorem sameCoordinates_of_moduleChanges (hp : Distinct p) (hq : Distinct q)
    (h : moduleChanges p q = []) : SameCoordinates p q := by
  have hkind : ∀ path ∈ (p.modules ++ q.modules).map (·.path),
      moduleChangeKind (lookupLast LockModule.path p.modules path)
        (lookupLast LockModule.path q.modules path) = none := by
    intro path hpath
    have := filterMap_eq_nil_iff.mp h path (mem_sortedValues.mpr hpath)
    rwa [moduleChange, Option.map_eq_none_iff] at this
  have hlookup : ∀ {r : LockPlatform}, Distinct r → ∀ {m : LockModule}, m ∈ r.modules →
      lookupLast LockModule.path r.modules m.path = some m := by
    intro r hr m hm
    exact (lookupLast_eq_some_iff (inj_on_of_nodup_map hr.paths)).mpr ⟨hm, rfl⟩
  have hsame : ∀ m ∈ p.modules, ∀ n ∈ q.modules, m.path = n.path →
      m.gav = n.gav ∧ m.packaging = n.packaging := by
    intro m hm n hn hpath
    have := hkind m.path (mem_map_of_mem (mem_append_left _ hm))
    rw [hlookup hp hm, hpath, hlookup hq hn, moduleChangeKind] at this
    simpa [not_or] using this
  refine ⟨fun m hm => ?_, fun n hn => ?_, fun m hm n hn hpath => (hsame m hm n hn hpath).1,
    fun m hm n hn hpath => (hsame m hm n hn hpath).2⟩
  · have hnone := hkind m.path (mem_map_of_mem (mem_append_left _ hm))
    cases hfound : lookupLast LockModule.path q.modules m.path with
    | none => simp [hlookup hp hm, hfound, moduleChangeKind] at hnone
    | some n => exact ⟨n, lookupLast_mem hfound⟩
  · have hnone := hkind n.path (mem_map_of_mem (mem_append_right _ hn))
    cases hfound : lookupLast LockModule.path p.modules n.path with
    | none => simp [hlookup hq hn, hfound, moduleChangeKind] at hnone
    | some m => exact ⟨m, lookupLast_mem hfound⟩

/-! ## Packages -/

theorem resolvedVersion_inj {stamp : SnapshotStamp} {v w x : Text}
    (hv : stamp.resolvedVersion v = some x) (hw : stamp.resolvedVersion w = some x) : v = w := by
  obtain ⟨base, rfl, hx⟩ := SnapshotStamp.resolvedVersion_eq_some.mp hv
  obtain ⟨base', rfl, hx'⟩ := SnapshotStamp.resolvedVersion_eq_some.mp hw
  rw [append_cancel_right (hx.symm.trans hx')]

def SnapshotRows (p : LockPlatform) : Prop :=
  ∀ a ∈ p.artifacts, a.snapshot.isSome = true →
    Text.endsWith a.coordinate.version snapshotSuffix = true

theorem version_eq_of_fileVersion {a b : LockArtifact}
    (ha : a.snapshot.isSome = true → Text.endsWith a.coordinate.version snapshotSuffix = true)
    (hb : b.snapshot.isSome = true → Text.endsWith b.coordinate.version snapshotSuffix = true)
    (hversion : a.fileVersion = b.fileVersion) (hsnapshot : a.snapshot = b.snapshot) :
    a.coordinate.version = b.coordinate.version := by
  rw [LockArtifact.fileVersion, LockArtifact.fileVersion, ← hsnapshot] at hversion
  cases hstamp : a.snapshot with
  | none =>
    rw [hstamp] at hversion
    exact hversion
  | some stamp =>
    have hresolved : ∀ {v : Text}, Text.endsWith v snapshotSuffix = true →
        ∃ x, stamp.resolvedVersion v = some x := by
      intro v hv
      obtain ⟨base, rfl⟩ := isSuffixOf_iff_suffix.mp hv
      exact ⟨_, SnapshotStamp.resolvedVersion_eq_some.mpr ⟨base, rfl, rfl⟩⟩
    obtain ⟨x, hx⟩ := hresolved (ha (by rw [hstamp]; rfl))
    obtain ⟨y, hy⟩ := hresolved (hb (by rw [← hsnapshot, hstamp]; rfl))
    rw [hstamp, Option.bind_some, Option.bind_some, hx, hy] at hversion
    have hxy : x = y := hversion
    exact resolvedVersion_inj hx (hxy ▸ hy)

theorem artifactOf_external (hp : Distinct p) (hworkspace : package.workspaceModule = none)
    (hsystem : package.systemPath = none) {a : LockArtifact} (ha : a ∈ p.artifacts)
    (hcoordinate : a.coordinate = package.coordinate) : DepEntry.artifactOf p package = a := by
  have hfound : lookupLast LockArtifact.coordinate p.artifacts package.coordinate = some a :=
    (lookupLast_eq_some_iff (inj_on_of_nodup_map hp.artifacts)).mpr ⟨ha, hcoordinate⟩
  rw [DepEntry.artifactOf, hworkspace, hsystem]
  simp only [hfound, Option.getD_some]

theorem artifactOf_workspace (hworkspace : package.workspaceModule = some path) :
    DepEntry.artifactOf p package = .new package.coordinate path := by
  rw [DepEntry.artifactOf, hworkspace]

theorem artifactOf_system (hworkspace : package.workspaceModule = none)
    (hsystem : package.systemPath = some path) :
    DepEntry.artifactOf p package = { LockArtifact.new package.coordinate path with
      checksums := package.systemSha256.toList.map Digest.sha256 } := by
  rw [DepEntry.artifactOf, hworkspace, hsystem]

/-- Packages of one key are equal if their entries are the same: these tell the version too. -/
theorem package_eq_of_sameEntry (hpq : SameCoordinates p q) (hp : Distinct p) (hq : Distinct q)
    (hps : SnapshotRows p) (hqs : SnapshotRows q) (hrow : PackageRow p package)
    (hrow' : PackageRow q package') (hkey : PackageKey.of package = PackageKey.of package')
    (hsame : SameEntry (PackageKey.of package).kind (.of p package) (.of q package')) :
    package = package' := by
  have hkind : (PackageKey.of package).kind = (PackageKey.of package').kind := by rw [hkey]
  have hdirect : package.directScope = package'.directScope := hsame.directScope
  have hscope : package.scope = package'.scope := hsame.scope
  obtain ⟨hversion, hsnapshot, hchecksums, horigins, -, -⟩ := hsame
  simp only [DepEntry.of] at hversion hsnapshot hchecksums horigins
  have hfields : package.coordinate = package'.coordinate →
      package.workspaceModule = package'.workspaceModule →
      package.systemPath = package'.systemPath → package.systemSha256 = package'.systemSha256 →
      package = package' := by
    intro hcoordinate hworkspace hsystem hsha
    cases package
    cases package'
    simp_all
  simp only [PackageKey.of] at hkind horigins
  cases hrow with
  | @workspace m hw hs hd hm hgav =>
    cases hrow' with
    | @workspace n hw' hs' hd' hn hgav' =>
      rw [artifactOf_workspace hw, artifactOf_workspace hw'] at hversion
      have hcoordinate := PackageKey.coordinate_eq hkey hversion
      -- The module of that path has the same GAV on the other side, and no other has it.
      obtain ⟨k, hk, hkpath⟩ := hpq.left m hm
      have hkgav : k.gav = n.gav := by
        rw [← hpq.gav m hm k hk hkpath.symm, ← hgav, hcoordinate, hgav']
      obtain rfl := inj_on_of_nodup_map hq.gavs hk hn hkgav
      exact hfields hcoordinate (by rw [hw, hw', hkpath]) (by rw [hs, hs']) (by rw [hd, hd'])
    | system hw' hs' hd' | external hw' hs' hd' ha' hc' => simp [hw, hw', hs'] at hkind
  | system hw hs hd =>
    cases hrow' with
    | workspace hw' hs' hd' hn hgav' => simp [hw, hw', hs] at hkind
    | system hw' hs' hd' =>
      rw [artifactOf_system hw hs, artifactOf_system hw' hs'] at hversion hchecksums horigins
      have hpath := (horigins (by simp [hw, hs])).1
      simp only [LockArtifact.new] at hpath hchecksums
      rw [hd, hd'] at hchecksums
      simp only [Option.toList_some, map_cons, map_nil, List.cons.injEq,
        Digest.sha256.injEq, and_true] at hchecksums
      exact hfields (PackageKey.coordinate_eq hkey hversion) (by rw [hw, hw'])
        (by rw [hs, hs', hpath]) (by rw [hd, hd', hchecksums])
    | external hw' hs' hd' ha' hc' => simp [hw, hw', hs, hs'] at hkind
  | external hw hs hd ha hc =>
    cases hrow' with
    | workspace hw' hs' hd' hn hgav' => simp [hw, hw', hs] at hkind
    | system hw' hs' hd' => simp [hw, hw', hs, hs'] at hkind
    | external hw' hs' hd' ha' hc' =>
      rw [artifactOf_external hp hw hs ha hc, artifactOf_external hq hw' hs' ha' hc']
        at hversion hsnapshot
      have hequal := version_eq_of_fileVersion (hps _ ha) (hqs _ ha') hversion hsnapshot
      rw [hc, hc'] at hequal
      exact hfields (PackageKey.coordinate_eq hkey hequal) (by rw [hw, hw']) (by rw [hs, hs'])
        (by rw [hd, hd'])

/-! ## Comparing checked lockfiles -/

structure Comparable (lock : Lockfile) : Prop where
  distinct : DistinctLock lock
  packages : ∀ p ∈ lock.platforms, ∀ m ∈ p.modules, ∀ package ∈ m.packages, PackageRow p package
  used : ∀ p ∈ lock.platforms, ∀ a ∈ p.artifacts, ∃ m ∈ p.modules, ∃ package ∈ m.packages,
    package.workspaceModule = none ∧ package.systemPath = none ∧ package.coordinate = a.coordinate
  indexed : ∀ p ∈ lock.platforms, ∀ m ∈ p.modules, m.Indexed
  snapshots : ∀ p ∈ lock.platforms, SnapshotRows p

theorem check_comparable [Lowercase] [UrlParser] (h : check lock = .ok ())
    (hsnapshots : ∀ p ∈ lock.platforms, SnapshotRows p) : Comparable lock :=
  ⟨check_distinct h, fun _ hp _ hm _ hpackage => check_packageRow h hp hm hpackage,
    fun _ hp _ ha => check_artifact_used h hp ha, fun _ hp _ hm => (check_module h hp hm).indexed,
    hsnapshots⟩

/-- Two entries for one platform in lockfiles without a line between them. -/
structure Facing [UrlParser] (lock fresh : Lockfile) (p q : LockPlatform) : Prop where
  unlisted : Unlisted lock fresh
  old : Comparable lock
  new : Comparable fresh
  left : p ∈ lock.platforms
  right : q ∈ fresh.platforms
  platform : p.platform = q.platform

theorem depKey_of_eq (hpq : p.platform = q.platform) (hpath : m.path = n.path)
    (package : LockModulePackage) : DepKey.of p m package = DepKey.of q n package := by
  rw [DepKey.of, DepKey.of, hpq, hpath]

theorem keyBetween_inj (hlock : lock = old ∨ lock = new) (hdistinct : DistinctLock lock)
    {p' : LockPlatform} {m' : LockModule} {package' : LockModulePackage} (hp : p ∈ lock.platforms)
    (hm : m ∈ p.modules) (hpackage : package ∈ m.packages) (hp' : p' ∈ lock.platforms)
    (hm' : m' ∈ p'.modules) (hpackage' : package' ∈ m'.packages)
    (h : keyBetween old new (.of p m package) = keyBetween old new (.of p' m' package')) :
    p = p' ∧ m = m' ∧ package = package' := by
  refine hdistinct.depKey_inj hp hp' hm hm' hpackage hpackage' ?_
  have hmem : ∀ {p m package}, p ∈ lock.platforms → m ∈ p.modules → package ∈ m.packages →
      DepKey.of p m package ∈ (depMap lock none).map Prod.fst := fun hp hm hpackage =>
    mem_map.mpr ⟨_, mem_depMap.mpr ⟨_, hp, _, hm, _, hpackage, rfl⟩, rfl⟩
  refine DepMap.pairKey_inj (hlock.imp ?_ ?_) (hmem hp hm hpackage) (hmem hp' hm' hpackage') h
  · rintro rfl
    rfl
  · rintro rfl
    rfl

theorem eq_of_keyBetween_eq (hlock : DistinctLock lock) {p' : LockPlatform} {m' : LockModule}
    (hp' : p' ∈ lock.platforms) (hm' : m' ∈ p'.modules) (hq : q ∈ lock.platforms)
    (hn : n ∈ q.modules) (hpq : p.platform = q.platform) (hpath : m.path = n.path)
    (hkey : keyBetween old new (.of p' m' package') = keyBetween old new (.of p m package)) :
    p' = q ∧ m' = n ∧ PackageKey.of package' = PackageKey.of package := by
  have hunversioned :
      (DepKey.of p' m' package').unversioned = (DepKey.of p m package).unversioned := by
    rw [← unversioned_keyBetween old new, hkey, unversioned_keyBetween]
  obtain ⟨hplatform, hmodule, hpackage, -⟩ := DepKey.mk.inj hunversioned
  obtain rfl := inj_on_of_nodup_map hlock.platforms hp' hq
    ((Platform.display_injective hplatform).trans hpq)
  exact ⟨rfl, inj_on_of_nodup_map (hlock.entries _ hp').paths hm' hn (hmodule.trans hpath),
    hpackage⟩

section Facing

variable [UrlParser] (h : Facing old new p q)
include h

theorem Facing.distinct_left : Distinct p :=
  h.old.distinct.entries p h.left

theorem Facing.distinct_right : Distinct q :=
  h.new.distinct.entries q h.right

theorem Facing.mem_comparedPlatforms : (p, q) ∈ comparedPlatforms old new none :=
  Lock.mem_comparedPlatforms.mpr ⟨h.right,
    find?_key_eq_some (inj_on_of_nodup_map h.old.distinct.platforms) h.left h.platform⟩

theorem Facing.sameCoordinates : SameCoordinates p q :=
  sameCoordinates_of_moduleChanges h.distinct_left h.distinct_right
    (flatMap_eq_nil_iff.mp h.unlisted.modules (p, q) h.mem_comparedPlatforms)

section Modules

variable (hm : m ∈ p.modules) (hn : n ∈ q.modules) (hpath : m.path = n.path)
include hm hn hpath

/-- Without a line, a package of either side is one of both. -/
theorem Facing.package_pair (hpackage : package ∈ m.packages ∨ package ∈ n.packages) :
    package ∈ m.packages ∧ package ∈ n.packages ∧
      SameEntry (PackageKey.of package).kind (.of p package) (.of q package) := by
  have hkey := depKey_of_eq h.platform hpath package
  obtain ⟨c, hc, hcmem⟩ : ∃ c, c.1 = DepKey.of p m package ∧
      (c ∈ depMap old none ∨ c ∈ depMap new none) := by
    rcases hpackage with hpackage | hpackage
    · exact ⟨_, rfl, .inl (mem_depMap.mpr ⟨p, h.left, m, hm, package, hpackage, rfl⟩)⟩
    · exact ⟨_, hkey.symm, .inr (mem_depMap.mpr ⟨q, h.right, n, hn, package, hpackage, rfl⟩)⟩
  obtain ⟨a, ha, b, hb, hkeya, hkeyb, hsame⟩ :=
    h.unlisted.exists_pair h.old.distinct h.new.distinct hcmem
  rw [hc] at hkeya hkeyb hsame
  obtain ⟨p', hp', m', hm', x, hx, rfl⟩ := mem_depMap.mp ha
  obtain ⟨q', hq', n', hn', y, hy, rfl⟩ := mem_depMap.mp hb
  obtain ⟨rfl, rfl, hkeys⟩ := eq_of_keyBetween_eq h.old.distinct hp' hm' h.left hm rfl rfl hkeya
  obtain ⟨rfl, rfl, hkeys'⟩ :=
    eq_of_keyBetween_eq h.new.distinct hq' hn' h.right hn h.platform hpath hkeyb
  obtain rfl := package_eq_of_sameEntry h.sameCoordinates h.distinct_left h.distinct_right
    (h.old.snapshots _ h.left) (h.new.snapshots _ h.right) (h.old.packages _ h.left _ hm _ hx)
    (h.new.packages _ h.right _ hn _ hy) (hkeys.trans hkeys'.symm) (hkeys ▸ hsame)
  have hequal : x = package := by
    rcases hpackage with hpackage | hpackage
    · exact (keyBetween_inj (.inl rfl) h.old.distinct h.left hm hx h.left hm hpackage hkeya).2.2
    · rw [hkey] at hkeyb
      exact (keyBetween_inj (.inr rfl) h.new.distinct h.right hn hy h.right hn hpackage hkeyb).2.2
  subst hequal
  exact ⟨hx, hy, hsame⟩

theorem Facing.packages_perm : m.packages.Perm n.packages :=
  (perm_ext_iff_of_nodup (h.old.indexed p h.left m hm).packages
    (h.new.indexed q h.right n hn).packages).mpr fun _ =>
      ⟨fun hpackage => (h.package_pair hm hn hpath (.inl hpackage)).2.1,
        fun hpackage => (h.package_pair hm hn hpath (.inr hpackage)).1⟩

end Modules

end Facing

/-! ## Artifact rows -/

/-- Rows of one coordinate that drift compares as equal. -/
structure SameRow (a b : LockArtifact) : Prop where
  coordinate : a.coordinate = b.coordinate
  snapshot : a.snapshot = b.snapshot
  checksums : a.checksums = b.checksums
  repoUrl : a.repoUrl = b.repoUrl
  otherRepoUrls : a.otherRepoUrls = b.otherRepoUrls
  pomRepoUrls : a.pomRepoUrls = b.pomRepoUrls
  pomBuild : a.pomBuild = b.pomBuild
  pomSha256 : a.pomSha256 = b.pomSha256

theorem companionChange_eq_none (hp : Distinct p) {a b : LockArtifact} (ha : a ∈ p.artifacts)
    (hcoordinate : a.coordinate = b.coordinate) (hsnapshot : a.snapshot = b.snapshot)
    (h : companionChange p q b = none) : a.pomSha256 = b.pomSha256 ∧ a.pomBuild = b.pomBuild := by
  have hfound : lookupLast LockArtifact.coordinate p.artifacts b.coordinate = some a :=
    (lookupLast_eq_some_iff (inj_on_of_nodup_map hp.artifacts)).mpr ⟨ha, hcoordinate⟩
  rw [companionChange, hfound] at h
  by_contra hdiffer
  have hguard : a.pomSha256 ≠ b.pomSha256 ∨ a.pomBuild ≠ b.pomBuild ∧ a.snapshot = b.snapshot := by
    rw [not_and_or] at hdiffer
    exact hdiffer.imp id fun hbuild => ⟨hbuild, hsnapshot⟩
  simp [hguard] at h

section Facing

variable [UrlParser] (h : Facing old new p q)
include h

theorem Facing.platformPomChanges_eq_nil : platformPomChanges p q = [] := by
  have hnil := h.unlisted.poms
  rw [pomPinChanges, ← length_eq_zero_iff, length_sortBy, length_eq_zero_iff,
    flatMap_eq_nil_iff] at hnil
  exact hnil (p, q) h.mem_comparedPlatforms

theorem Facing.artifact_mem_new {a : LockArtifact} (ha : a ∈ p.artifacts) :
    ∃ b ∈ q.artifacts, SameRow a b := by
  obtain ⟨m, hm, package, hpackage, hworkspace, hsystem, hcoordinate⟩ := h.old.used p h.left a ha
  obtain ⟨n, hn, hpath⟩ := h.sameCoordinates.left m hm
  obtain ⟨-, hmem, hsame⟩ := h.package_pair hm hn hpath.symm (.inl hpackage)
  cases h.new.packages q h.right n hn package hmem with
  | workspace hworkspace' => simp [hworkspace] at hworkspace'
  | system _ hsystem' => simp [hsystem] at hsystem'
  | @external b _ _ _ hb hcoordinate' =>
    obtain ⟨hversion, hsnapshot, hchecksums, horigins, -, -⟩ := hsame
    simp only [DepEntry.of, artifactOf_external h.distinct_left hworkspace hsystem ha
      hcoordinate.symm, artifactOf_external h.distinct_right hworkspace hsystem hb
      hcoordinate'] at hversion hsnapshot hchecksums horigins
    obtain ⟨hrepo, hother, hpom⟩ := horigins (by simp [PackageKey.of, hworkspace, hsystem])
    have hcoord : a.coordinate = b.coordinate := hcoordinate.symm.trans hcoordinate'.symm
    have hnil := h.platformPomChanges_eq_nil
    simp only [platformPomChanges, append_eq_nil_iff, filterMap_eq_nil_iff] at hnil
    obtain ⟨hsha, hbuild⟩ := companionChange_eq_none h.distinct_left ha hcoord hsnapshot
      (hnil.1.1.1 b hb)
    exact ⟨b, hb, hcoord, hsnapshot, hchecksums, hrepo, hother, hpom, hbuild, hsha⟩

theorem Facing.artifact_mem_old {b : LockArtifact} (hb : b ∈ q.artifacts) :
    ∃ a ∈ p.artifacts, a.coordinate = b.coordinate := by
  obtain ⟨n, hn, package, hpackage, hworkspace, hsystem, hcoordinate⟩ := h.new.used q h.right b hb
  obtain ⟨m, hm, hpath⟩ := h.sameCoordinates.right n hn
  have hmem := (h.packages_perm hm hn hpath).mem_iff.mpr hpackage
  cases h.old.packages p h.left m hm package hmem with
  | workspace hworkspace' => simp [hworkspace] at hworkspace'
  | system _ hsystem' => simp [hsystem] at hsystem'
  | @external a _ _ _ ha hcoordinate' => exact ⟨a, ha, hcoordinate'.trans hcoordinate⟩

end Facing

theorem Facing.supportPoms_eq [UrlParser] (h : Facing old new p q) :
    p.supportPoms = q.supportPoms := by
  have hnil := h.platformPomChanges_eq_nil
  simp only [platformPomChanges, append_eq_nil_iff, filterMap_eq_nil_iff] at hnil
  obtain ⟨⟨⟨-, hchanged⟩, hremoved⟩, -⟩ := hnil
  have hnew : ∀ coord pin, (coord, pin) ∈ q.supportPoms.entries →
      (coord, pin) ∈ p.supportPoms.entries := by
    intro coord pin hpin
    have hnone := hchanged (coord, pin) hpin
    rw [supportPomChange] at hnone
    split at hnone
    · cases hnone
    rename_i hsame
    rw [not_or, not_not] at hsame
    obtain ⟨hpins, horigin⟩ := hsame
    obtain ⟨found, hfound, hfields⟩ := Option.map_eq_some_iff.mp hpins
    rw [hfound, Option.any_some, decide_eq_true_eq, not_not] at horigin
    obtain ⟨url, sha, snapshot⟩ := found
    obtain ⟨url', sha', snapshot'⟩ := pin
    simp only [Prod.mk.injEq] at hfields horigin
    obtain ⟨rfl, rfl⟩ := hfields
    subst horigin
    exact OrderedMap.lookup_eq_some_iff.mp hfound
  refine Ordered.ext_mem fun entry => ⟨fun hentry => ?_, fun hentry => hnew entry.1 entry.2 hentry⟩
  have hnone := hremoved entry hentry
  rw [supportPomRemoval] at hnone
  split at hnone
  · rename_i hcontains
    obtain ⟨other, hother, hkey⟩ := Ordered.contains_iff.mp hcontains
    rwa [Ordered.eq_of_key_eq hentry (hnew other.1 other.2 hother) hkey.symm]
  · cases hnone

/-! ## Parent ranges -/

theorem modelName_of_mem (hp : Distinct p) (hm : m ∈ p.modules) :
    modelName p m.gav.display = "module:" ++ m.path := by
  have hfind : (p.modules.find? fun module => module.gav.display = m.gav.display) = some m := by
    refine find?_key_eq_some (fun a ha b hb hab => ?_) hm rfl
    exact inj_on_of_nodup_map hp.gavs ha hb
      ((hp.names a ha).1.display_inj (hp.names b hb).1 hab)
  rw [modelName, hfind]

theorem modelName_of_notMem {model : Text} (h : ∀ m ∈ p.modules, m.gav.display ≠ model) :
    modelName p model = model := by
  have hfind : (p.modules.find? fun module => module.gav.display = model) = none :=
    find?_eq_none.mpr fun m hm => by simpa using h m hm
  rw [modelName, hfind]

theorem modelName_eq (hpq : SameCoordinates p q) (hp : Distinct p) (hq : Distinct q)
    (model : Text) : modelName p model = modelName q model := by
  by_cases hex : ∃ m ∈ p.modules, m.gav.display = model
  · obtain ⟨m, hm, rfl⟩ := hex
    obtain ⟨n, hn, hpath⟩ := hpq.left m hm
    rw [modelName_of_mem hp hm, hpq.gav m hm n hn hpath.symm, modelName_of_mem hq hn, hpath]
  · have hnone : ∀ m ∈ p.modules, m.gav.display ≠ model := fun m hm heq => hex ⟨m, hm, heq⟩
    rw [modelName_of_notMem hnone, modelName_of_notMem]
    intro n hn heq
    obtain ⟨m, hm, hpath⟩ := hpq.right n hn
    exact hnone m hm (by rw [hpq.gav m hm n hn hpath, heq])

theorem module_ne_display (hpath : ':' ∉ path) (gav : Gav) : "module:" ++ path ≠ gav.display := by
  intro heq
  have hcount := congrArg (List.count ':') heq
  rw [count_append, count_eq_zero_of_not_mem hpath, Gav.display] at hcount
  simp only [count_append, count_cons_self] at hcount
  have hone : List.count ':' "module:" = 1 := by decide
  omega

theorem modelName_cases (hp : Distinct p) (model : Text) :
    (∃ m ∈ p.modules, m.gav.display = model ∧ modelName p model = "module:" ++ m.path) ∨
      modelName p model = model := by
  by_cases hex : ∃ m ∈ p.modules, m.gav.display = model
  · obtain ⟨m, hm, rfl⟩ := hex
    exact .inl ⟨m, hm, rfl, modelName_of_mem hp hm⟩
  · exact .inr (modelName_of_notMem fun m hm heq => hex ⟨m, hm, heq⟩)

theorem modelName_inj (hp : Distinct p) {x y : Gav}
    (h : modelName p x.display = modelName p y.display) : x.display = y.display := by
  rcases modelName_cases hp x.display with ⟨m, hm, hmx, hx⟩ | hx <;>
    rcases modelName_cases hp y.display with ⟨n, hn, hny, hy⟩ | hy <;> rw [hx, hy] at h
  · rw [← hmx, ← hny, inj_on_of_nodup_map hp.paths hm hn (append_cancel_left h)]
  · exact absurd h (module_ne_display (hp.names m hm).2 y)
  · exact absurd h.symm (module_ne_display (hp.names n hn).2 x)
  · exact h

theorem mem_parentRangeSelections {entry : (Text × Text × Text) × ParentRange} :
    entry ∈ parentRangeSelections p ↔ ∃ m ∈ p.modules, ∃ range ∈ m.parentRanges,
      ((m.path, modelName p range.model, range.parent), range) = entry := by
  simp only [parentRangeSelections, mem_flatMap, mem_map]

theorem parentRangeSelections_inj (hp : Distinct p) {a b : (Text × Text × Text) × ParentRange}
    (ha : a ∈ parentRangeSelections p) (hb : b ∈ parentRangeSelections p) (h : a.1 = b.1) :
    a = b := by
  obtain ⟨m, hm, range, hrange, rfl⟩ := mem_parentRangeSelections.mp ha
  obtain ⟨m', hm', range', hrange', rfl⟩ := mem_parentRangeSelections.mp hb
  obtain ⟨hpath, hmodel, hparent⟩ := by simpa only [Prod.mk.injEq] using h
  obtain rfl := inj_on_of_nodup_map hp.paths hm hm' hpath
  obtain ⟨x, -, hx⟩ := hp.models m hm range hrange
  obtain ⟨y, -, hy⟩ := hp.models m hm range' hrange'
  have hmodels : range.model = range'.model := by
    rw [hx, hy] at hmodel ⊢
    exact modelName_inj hp hmodel
  obtain rfl := inj_on_of_nodup_map (hp.selections m hm) hrange hrange'
    (Prod.ext hmodels hparent)
  rfl

def selectedAt (p : LockPlatform) (key : Text × Text × Text) : Option Text :=
  ((lookupLast Prod.fst (parentRangeSelections p) key).map Prod.snd).map (·.selected)

theorem selectedAt_eq_some_iff (hp : Distinct p) {key : Text × Text × Text} {selected : Text} :
    selectedAt p key = some selected ↔ ∃ m ∈ p.modules, ∃ range ∈ m.parentRanges,
      (m.path, modelName p range.model, range.parent) = key ∧ range.selected = selected := by
  have hinj := fun a ha b hb => parentRangeSelections_inj hp (a := a) (b := b) ha hb
  rw [selectedAt, Option.map_map, Option.map_eq_some_iff]
  constructor
  · rintro ⟨entry, hentry, rfl⟩
    obtain ⟨hmem, rfl⟩ := (lookupLast_eq_some_iff hinj).mp hentry
    obtain ⟨m, hm, range, hrange, rfl⟩ := mem_parentRangeSelections.mp hmem
    exact ⟨m, hm, range, hrange, rfl, rfl⟩
  · rintro ⟨m, hm, range, hrange, rfl, rfl⟩
    exact ⟨_, (lookupLast_eq_some_iff hinj).mpr
      ⟨mem_parentRangeSelections.mpr ⟨m, hm, range, hrange, rfl⟩, rfl⟩, rfl⟩

theorem parentRange_mem (hpq : SameCoordinates p q) (hp : Distinct p) (hq : Distinct q)
    (hselected : ∀ key, selectedAt p key = selectedAt q key) (hm : m ∈ p.modules)
    (hn : n ∈ q.modules) (hpath : m.path = n.path) {range : ParentRange}
    (hrange : range ∈ m.parentRanges) : range ∈ n.parentRanges := by
  have hsome := (selectedAt_eq_some_iff hp).mpr ⟨m, hm, range, hrange, rfl, rfl⟩
  rw [hselected] at hsome
  obtain ⟨n', hn', range', hrange', hkey, hsame⟩ := (selectedAt_eq_some_iff hq).mp hsome
  obtain ⟨hpath', hmodel, hparent⟩ := by simpa only [Prod.mk.injEq] using hkey
  obtain rfl := inj_on_of_nodup_map hq.paths hn' hn (hpath'.trans hpath)
  obtain ⟨x, -, hx⟩ := hp.models m hm range hrange
  obtain ⟨y, -, hy⟩ := hq.models _ hn' range' hrange'
  have hmodels : range'.model = range.model := by
    rw [modelName_eq hpq hp hq, hx, hy] at hmodel
    rw [hx, hy]
    exact modelName_inj hq hmodel
  have hequal : range' = range := by
    cases range
    cases range'
    simp_all
  exact hequal ▸ hrange'

theorem Facing.selectedAt_eq [UrlParser] (h : Facing old new p q) (key : Text × Text × Text) :
    selectedAt p key = selectedAt q key := by
  have hnil := h.platformPomChanges_eq_nil
  simp only [platformPomChanges, append_eq_nil_iff, filterMap_eq_nil_iff] at hnil
  by_cases hkey : key ∈ (parentRangeSelections p ++ parentRangeSelections q).map Prod.fst
  · have hnone := hnil.2 key ((mem_sortBy _).mpr (mem_dedup.mpr hkey))
    rw [parentRangeChange] at hnone
    split at hnone
    · rename_i hsame
      exact hsame
    · cases hnone
  · rw [map_append, mem_append, not_or] at hkey
    have hnone : ∀ r : LockPlatform, key ∉ (parentRangeSelections r).map Prod.fst →
        selectedAt r key = none := by
      intro r hr
      rw [selectedAt, Option.map_eq_none_iff, Option.map_eq_none_iff, lookupLast, find?_eq_none]
      intro entry hentry heq
      exact hr (mem_map.mpr ⟨entry, mem_reverse.mp hentry, of_decide_eq_true heq⟩)
    rw [hnone p hkey.1, hnone q hkey.2]

theorem Facing.parentRanges_perm [UrlParser] (h : Facing old new p q) (hm : m ∈ p.modules)
    (hn : n ∈ q.modules) (hpath : m.path = n.path) : m.parentRanges.Perm n.parentRanges := by
  have hcoords := h.sameCoordinates
  have hp := h.distinct_left
  have hq := h.distinct_right
  refine (perm_ext_iff_of_nodup (.of_map _ (hp.selections m hm))
    (.of_map _ (hq.selections n hn))).mpr fun range => ⟨?_, ?_⟩
  · exact parentRange_mem hcoords hp hq h.selectedAt_eq hm hn hpath
  · exact parentRange_mem hcoords.symm hq hp (fun key => (h.selectedAt_eq key).symm) hn hm
      hpath.symm

end Unlisted

end Raeva.Lock
