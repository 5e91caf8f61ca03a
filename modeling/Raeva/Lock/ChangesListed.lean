import Raeva.Lock.ChangeLines
import Raeva.Lock.Adoption

/-!
# Every drift is listed

Drift compares whole canonical modules, while the lines of a diff are made from
packages, edges, modules and pins that are compared one kind after the other.
Without a line the two sides can be rebuilt from each other, but for two things
that no line shows: the support POMs that a module lists and how often it lists
an edge.
-/

namespace Raeva.Lock

open List

/-! ## When there are no lines -/

theorem sortedValues_eq_nil_iff {values : List Text} : sortedValues values = [] ↔ values = [] := by
  simp only [eq_nil_iff_forall_not_mem, mem_sortedValues]

namespace LockChanges

variable {diff : LockChanges} {group : PackageKey × Change}

theorem grouped_eq_nil_iff {changes : List (Text × Text)} :
    diff.grouped changes = [] ↔ ∀ change ∈ changes, change.2 ∉ diff.compared := by
  rw [grouped, map_eq_nil_iff, sortedValues_eq_nil_iff, map_eq_nil_iff, filter_eq_nil_iff]
  simp

theorem groups_eq_nil_iff : diff.groups = [] ↔ diff.changes = [] := by
  rw [← length_eq_zero_iff, groups, length_sortBy, length_eq_zero_iff, dedup_eq_nil, map_eq_nil_iff]

theorem places_ne_nil (h : group ∈ diff.groups) : diff.places group ≠ [] := by
  rw [groups, mem_sortBy, mem_dedup] at h
  obtain ⟨change, hchange, rfl⟩ := mem_map.mp h
  obtain ⟨index, hget⟩ := mem_iff_getElem?.mp hchange
  intro hnil
  rw [places, map_eq_nil_iff, sortedValues_eq_nil_iff, map_eq_nil_iff, filter_eq_nil_iff] at hnil
  have := hnil (change, index) (mem_zipIdx_iff_getElem?.mpr hget)
  simp at this

theorem groupRows_ne_nil (h : group ∈ diff.groups) : diff.groupRows group ≠ [] := by
  have hplaces := places_ne_nil h
  rw [groupRows]
  split
  · contradiction
  · split <;> simp

theorem changeLines_eq_nil_iff : diff.changeLines = [] ↔ diff.changes = [] ∧
    (∀ id ∈ diff.newPlatforms, id ∈ diff.oldPlatforms) ∧
      ∀ id ∈ diff.oldPlatforms, id ∈ diff.newPlatforms := by
  have hrows : diff.groups.flatMap diff.groupRows = [] ↔ diff.changes = [] := by
    rw [← groups_eq_nil_iff, flatMap_eq_nil_iff, eq_nil_iff_forall_not_mem]
    constructor
    · intro h group hgroup
      exact groupRows_ne_nil hgroup (h group hgroup)
    · intro h group hgroup
      exact absurd hgroup (h group)
  simp only [changeLines, append_eq_nil_iff, map_eq_nil_iff, hrows,
    filter_eq_nil_iff, decide_not, Bool.not_eq_true', decide_eq_false_iff_not, not_not,
    and_assoc]

theorem churn_false (change : PomChange) : diff.churn false change = false := by
  simp [churn]

theorem churnLine_false : diff.churnLine false = [] := by
  have hnone : diff.pomChanges.filter (diff.churn false) = [] :=
    filter_eq_nil_iff.mpr fun change _ => by simp [churn_false]
  have hsorted : sortedValues [] = [] := sortedValues_eq_nil_iff.mpr rfl
  simp [churnLine, hnone, hsorted]

/-- The lines with every detail are those of the changes on the platforms that
both sides record, and one for each other platform. -/
theorem lines_eq_nil_iff : diff.lines true = [] ↔
    (∀ change ∈ diff.moduleChanges, change.platform ∉ diff.compared) ∧
      (∀ change ∈ diff.profileChanges, change.platform ∉ diff.compared) ∧
      (diff.changes = [] ∧ (∀ id ∈ diff.newPlatforms, id ∈ diff.oldPlatforms) ∧
        ∀ id ∈ diff.oldPlatforms, id ∈ diff.newPlatforms) ∧
      (∀ change ∈ diff.edgeChanges, change.source.platform ∉ diff.compared) ∧
      ∀ change ∈ diff.pomChanges, change.platform ∉ diff.compared := by
  simp only [lines, Bool.not_true, Bool.false_and, churn_false, Bool.not_false, filter_true,
    churnLine_false, append_nil, append_eq_nil_iff, grouped_eq_nil_iff,
    changeLines_eq_nil_iff, forall_mem_append, forall_mem_map, and_assoc]

end LockChanges

/-! ## The platforms of the changes -/

variable {lock : Lockfile} {p q : LockPlatform} {oldMap newMap : DepMap} {m : LockModule}
  {old new : Lockfile} {change : EdgeChange} {edge : (DepKey × DepKey) × EdgeState}
  {package package' : LockModulePackage}

theorem matchingPlatforms_none (lock : Lockfile) :
    matchingPlatforms lock none = lock.platforms := by
  simp [matchingPlatforms]

theorem mem_platformIds {id : Text} :
    id ∈ platformIds lock none ↔ ∃ p ∈ lock.platforms, p.platform.display = id := by
  rw [platformIds, matchingPlatforms_none, mem_sortedValues, mem_map]

theorem mem_comparedPlatforms {pair : LockPlatform × LockPlatform} :
    pair ∈ comparedPlatforms old new none ↔ pair.2 ∈ new.platforms ∧
      (old.platforms.find? fun candidate => candidate.platform = pair.2.platform) =
        some pair.1 := by
  rw [comparedPlatforms, matchingPlatforms_none, mem_filterMap]
  constructor
  · rintro ⟨q, hq, hpair⟩
    obtain ⟨p, hp, rfl⟩ := Option.map_eq_some_iff.mp hpair
    exact ⟨hq, hp⟩
  · rintro ⟨hq, hp⟩
    exact ⟨pair.2, hq, by rw [hp, Option.map_some]⟩

theorem platform_of_mem_moduleChanges {change : ModuleChange} (h : change ∈ moduleChanges p q) :
    change.platform = q.platform.display := by
  obtain ⟨path, -, hchange⟩ := mem_filterMap.mp h
  obtain ⟨kind, -, rfl⟩ := Option.map_eq_some_iff.mp hchange
  rfl

theorem platform_of_profileChange {change : ProfileChange} (h : profileChange p q = some change) :
    change.platform = q.platform.display := by
  rw [profileChange] at h
  split at h
  · split at h
    · cases h
      rfl
    · cases h
  · cases h

theorem platform_of_mem_platformPomChanges [UrlParser] {change : PomChange}
    (h : change ∈ platformPomChanges p q) : change.platform = q.platform.display := by
  simp only [platformPomChanges, mem_append, mem_filterMap] at h
  rcases h with ((⟨artifact, -, h⟩ | ⟨entry, -, h⟩) | ⟨entry, -, h⟩) | ⟨key, -, h⟩
  · rw [companionChange] at h
    obtain ⟨old, -, h⟩ := Option.bind_eq_some_iff.mp h
    obtain ⟨-, -, h⟩ := Option.bind_eq_some_iff.mp h
    cases h
    rfl
  · rw [supportPomChange] at h
    split at h
    · cases h
      rfl
    · cases h
  · rw [supportPomRemoval] at h
    split at h
    · cases h
    · cases h
      rfl
  · rw [parentRangeChange] at h
    split at h
    · cases h
    · cases h
      rfl

theorem source_of_mem_edgePairs {key : DepKey × DepKey} {old new : List EdgeState}
    {removed added : List EdgeState} (h : change ∈ edgePairs key old new removed added) :
    change.source = key.1 := by
  fun_induction edgePairs key old new removed added with
  | case1 a removed b added ih =>
    rcases mem_append.mp h with h | h
    · rcases mem_append.mp h with h | h
      · split at h <;> simp_all
      · split at h <;> simp_all
    · exact ih h
  | case2 a removed ih =>
    rcases mem_cons.mp h with rfl | h
    · rfl
    · exact ih h
  | case3 added =>
    obtain ⟨b, -, rfl⟩ := mem_map.mp h
    rfl

theorem mem_edgeMap {other : Lockfile} :
    edge ∈ edgeMap lock other none oldMap newMap ↔ ∃ p ∈ lock.platforms, ∃ m ∈ p.modules,
      m ∉ (((other.platforms.find? fun entry => entry.platform = p.platform).map
        (·.modules)).getD []) ∧
      ∃ e ∈ m.edges, edgeEntry oldMap newMap p m e = some edge := by
  simp only [edgeMap, matchingPlatforms_none, mem_flatMap, mem_filter, mem_filterMap,
    decide_eq_true_eq, and_assoc]

theorem edgeKey_platform {index : ℕ} {key : DepKey}
    (h : edgeKey oldMap newMap p m index = some key) : key.platform = p.platform.display := by
  obtain ⟨package, -, rfl⟩ := Option.map_eq_some_iff.mp h
  simp only
  split <;> rfl

theorem edgeEntry_eq_some_iff {e : LockEdge} :
    edgeEntry oldMap newMap p m e = some edge ↔ edgeKey oldMap newMap p m e.source = some edge.1.1 ∧
      edgeKey oldMap newMap p m e.target = some edge.1.2 ∧
      (∀ key ∈ [edge.1.1, edge.1.2], oldMap.contains key = true ∧ newMap.contains key = true) ∧
      (e.scope, e.optional) = edge.2 := by
  obtain ⟨⟨source, target⟩, state⟩ := edge
  simp only [edgeEntry, Option.bind_eq_bind, Option.bind_eq_some_iff, Option.guard_eq_some']
  constructor
  · rintro ⟨_, hsource, _, htarget, -, hall, h⟩
    cases h
    exact ⟨hsource, htarget, by simpa using hall, rfl⟩
  · rintro ⟨hsource, htarget, hall, hstate⟩
    exact ⟨source, hsource, target, htarget, (), by simpa using hall, by rw [hstate]; rfl⟩

theorem platform_of_mem_edgeChanges (h : change ∈ edgeChanges old new none oldMap newMap) :
    change.source.platform ∈ platformIds old none ∨
      change.source.platform ∈ platformIds new none := by
  obtain ⟨key, hkey, hchange⟩ := mem_flatMap.mp h
  rw [source_of_mem_edgePairs hchange]
  rw [mem_sortBy, mem_dedup, map_append, mem_append] at hkey
  have hside : ∀ lock other, key ∈ (edgeMap lock other none oldMap newMap).map Prod.fst →
      key.1.platform ∈ platformIds lock none := by
    intro lock other hmem
    obtain ⟨edge, hedge, rfl⟩ := mem_map.mp hmem
    obtain ⟨p, hp, m, -, -, e, -, he⟩ := mem_edgeMap.mp hedge
    exact mem_platformIds.mpr ⟨p, hp, (edgeKey_platform (edgeEntry_eq_some_iff.mp he).1).symm⟩
  exact hkey.imp (hside old new) (hside new old)

/-! ## What the checks tell apart -/

theorem notMem_of_isPlatformToken {token : Text} (h : isPlatformToken token = true) {c : Char}
    (hc : (c.isAlphanum || c == '_') = false) : c ∉ token := by
  rw [isPlatformToken, Bool.and_eq_true, all_eq_true] at h
  intro hmem
  have := h.2 c hmem
  rw [hc] at this
  cases this

theorem Platform.display_injective : Function.Injective Platform.display := by
  rintro ⟨os, arch, jdk, hos, harch⟩ ⟨os', arch', jdk', hos', harch'⟩ h
  simp only [Platform.display, Platform.osArch, append_assoc, cons_append] at h
  have hdash : '-' ∉ os := notMem_of_isPlatformToken hos (by decide)
  have hdash' : '-' ∉ os' := notMem_of_isPlatformToken hos' (by decide)
  obtain ⟨rfl, hrest⟩ := Text.cut_inj hdash hdash' h
  have hspace : ' ' ∉ arch := notMem_of_isPlatformToken harch (by decide)
  have hspace' : ' ' ∉ arch' := notMem_of_isPlatformToken harch' (by decide)
  have htext : ∀ rest : Text, " (JDK " ++ rest = ' ' :: ("(JDK " ++ rest) :=
    fun rest => by simp
  cases jdk with
  | none =>
    cases jdk' with
    | none =>
      simp only [append_nil] at hrest
      rw [Platform.mk.injEq]
      exact ⟨rfl, hrest, rfl⟩
    | some jdk' =>
      simp only [htext, append_nil] at hrest
      rw [hrest] at hspace
      exact absurd (mem_append_right _ mem_cons_self) hspace
  | some jdk =>
    cases jdk' with
    | none =>
      simp only [htext, append_nil] at hrest
      rw [← hrest] at hspace'
      exact absurd (mem_append_right _ mem_cons_self) hspace'
    | some jdk' =>
      simp only [htext] at hrest
      obtain ⟨rfl, hjdk⟩ := Text.cut_inj hspace hspace' hrest
      have := append_cancel_right (append_cancel_left hjdk)
      rw [Platform.mk.injEq]
      exact ⟨rfl, rfl, congrArg some this⟩

structure Distinct (p : LockPlatform) : Prop where
  paths : (p.modules.map (·.path)).Nodup
  gavs : (p.modules.map (·.gav)).Nodup
  packages : ∀ m ∈ p.modules, (m.packages.map (·.coordinate)).Nodup
  artifacts : (p.artifacts.map (·.coordinate)).Nodup
  selections : ∀ m ∈ p.modules, (m.parentRanges.map fun range => (range.model, range.parent)).Nodup
  names : ∀ m ∈ p.modules, GavText m.gav ∧ ':' ∉ m.path
  models : ∀ m ∈ p.modules, ∀ range ∈ m.parentRanges, ∃ gav, GavText gav ∧ range.model = gav.display

structure DistinctLock (lock : Lockfile) : Prop where
  platforms : (lock.platforms.map (·.platform)).Nodup
  entries : ∀ p ∈ lock.platforms, Distinct p

theorem notMem_of_validateModulePath {path : Text} {field : PathField}
    (h : validateModulePath path field = .ok ()) : ':' ∉ path := by
  simp only [validateModulePath, refuseIf_eq_ok_iff, Bool.or_eq_false_iff] at h
  obtain ⟨⟨⟨-, h⟩, -⟩, -⟩ := h
  simpa using h

/-- The rows of a checked lockfile can be told apart. -/
theorem check_distinct [Lowercase] [UrlParser] (h : check lock = .ok ()) : DistinctLock lock := by
  have hvalid := (check_eq_ok h).2
  refine ⟨hvalid.platforms, fun p hp => ?_⟩
  obtain ⟨hpaths, hgavs, hmodules⟩ := validatePlatform_modules (hvalid.entries p hp)
  have hranges : ∀ m ∈ p.modules,
      checkEach (checkParentRange (.parentRange m.path p.platform)) [] m.parentRanges = .ok () ∧
        validateModulePath m.path .module = .ok () := by
    intro m hm
    have hfields := check_moduleFields h hp hm
    simp only [checkModuleFields, bind_unit_eq_ok_iff] at hfields
    exact ⟨hfields.2.1, hfields.1⟩
  refine ⟨hpaths, hgavs, fun m hm => ?_, ?_, fun m hm => ?_, fun m hm => ?_,
    fun m hm range hrange => ?_⟩
  · obtain ⟨used, hused⟩ := hmodules m hm
    exact (validateModule_eq_ok hused).1
  · have hrows := hvalid.entries p hp
    simp only [validatePlatform, bind_unit_eq_ok_iff] at hrows
    refine pairwise_map.mpr (pairwise_iff_forall_split.mpr fun before x after hl => ?_)
    have hrow := checkEach_eq_ok_iff.mp hrows.2.2.2.1 before x after hl
    simp only [checkArtifactRow, bind_unit_eq_ok_iff, refuseIf_eq_ok_iff, any_eq_false] at hrow
    simpa using hrow.1
  · exact pairwise_map.mpr (pairwise_iff_forall_split.mpr fun before x after hl =>
      (checkParentRange_eq_ok (checkEach_eq_ok_iff.mp (hranges m hm).1 before x after hl)).2.2)
  · exact ⟨check_gavText h hp hm, notMem_of_validateModulePath (hranges m hm).2⟩
  · obtain ⟨before, after, hl⟩ := append_of_mem hrange
    exact checkParentRange_model (checkEach_eq_ok_iff.mp (hranges m hm).1 before range after hl)

/-! ## Two lockfiles without a line between them -/

structure Unlisted [UrlParser] (old new : Lockfile) : Prop where
  platforms : ∀ id, id ∈ platformIds old none ↔ id ∈ platformIds new none
  packages : (LockChanges.between old new none).changes = []
  modules : (modelChanges old new none).1 = []
  profiles : (modelChanges old new none).2 = []
  edges : (LockChanges.between old new none).edgeChanges = []
  poms : pomPinChanges old new none = []

/-- A diff is empty exactly when no kind of change is found: every change is on a compared platform.
-/
theorem lockChangeLines_eq_nil_iff [UrlParser] :
    lockChangeLines old new none = [] ↔ Unlisted old new := by
  rw [lockChangeLines, map_eq_nil_iff, LockChanges.lines_eq_nil_iff]
  constructor
  · rintro ⟨hmodules, hprofiles, ⟨hpackages, hadded, hremoved⟩, hedges, hpoms⟩
    have hids : ∀ id, id ∈ platformIds old none ↔ id ∈ platformIds new none :=
      fun id => ⟨hremoved id, hadded id⟩
    -- Every change is on a platform of one side, so both sides record it.
    have hcompared : ∀ id, id ∈ platformIds old none ∨ id ∈ platformIds new none →
        id ∈ (LockChanges.between old new none).compared := by
      intro id hid
      have hboth : id ∈ platformIds old none ∧ id ∈ platformIds new none := by
        rcases hid with hid | hid
        · exact ⟨hid, (hids id).mp hid⟩
        · exact ⟨(hids id).mpr hid, hid⟩
      exact mem_filter.mpr ⟨hboth.1, decide_eq_true hboth.2⟩
    have hpair : ∀ pair ∈ comparedPlatforms old new none,
        pair.2.platform.display ∈ (LockChanges.between old new none).compared :=
      fun pair hpair => hcompared _ (.inr (mem_platformIds.mpr
        ⟨pair.2, (mem_comparedPlatforms.mp hpair).1, rfl⟩))
    refine ⟨hids, hpackages, ?_, ?_, ?_, ?_⟩
    · refine eq_nil_iff_forall_not_mem.mpr fun change hchange => hmodules change hchange ?_
      obtain ⟨pair, hmem, hchange⟩ := mem_flatMap.mp hchange
      rw [platform_of_mem_moduleChanges hchange]
      exact hpair pair hmem
    · refine eq_nil_iff_forall_not_mem.mpr fun change hchange => hprofiles change hchange ?_
      obtain ⟨pair, hmem, hchange⟩ := mem_filterMap.mp hchange
      rw [platform_of_profileChange hchange]
      exact hpair pair hmem
    · refine eq_nil_iff_forall_not_mem.mpr fun change hchange => hedges change hchange ?_
      exact hcompared _ (platform_of_mem_edgeChanges hchange)
    · refine eq_nil_iff_forall_not_mem.mpr fun change hchange => hpoms change hchange ?_
      rw [pomPinChanges, mem_sortBy] at hchange
      obtain ⟨pair, hmem, hchange⟩ := mem_flatMap.mp hchange
      rw [platform_of_mem_platformPomChanges hchange]
      exact hpair pair hmem
  · rintro ⟨hids, hpackages, hmodules, hprofiles, hedges, hpoms⟩
    have hmodules' : (LockChanges.between old new none).moduleChanges = [] := hmodules
    have hprofiles' : (LockChanges.between old new none).profileChanges = [] := hprofiles
    have hpoms' : (LockChanges.between old new none).pomChanges = [] := hpoms
    rw [hmodules', hprofiles', hedges, hpoms']
    exact ⟨by simp, by simp, ⟨hpackages, fun id => (hids id).mpr, fun id => (hids id).mp⟩, by simp,
      by simp⟩

/-! ## Pairing versions -/

theorem mem_depMap {entry : DepKey × DepEntry} :
    entry ∈ depMap lock none ↔ ∃ p ∈ lock.platforms, ∃ m ∈ p.modules, ∃ package ∈ m.packages,
      (DepKey.of p m package, DepEntry.of p package) = entry := by
  simp only [depMap, matchingPlatforms_none, mem_flatMap, mem_map]

theorem PackageKey.coordinate_eq (hkey : PackageKey.of package = PackageKey.of package')
    (hversion : package.coordinate.version = package'.coordinate.version) :
    package.coordinate = package'.coordinate := by
  obtain ⟨-, hgroup, hartifact, hpackaging, hclassifier⟩ := PackageKey.mk.inj hkey
  simp only [ArtifactCoord.groupId, ArtifactCoord.artifactId, ArtifactCoord.version] at *
  apply ArtifactCoord.sortKey_injective
  simp only [ArtifactCoord.sortKey, hgroup, hartifact, hversion, hpackaging, hclassifier]

theorem DistinctLock.depKey_inj (h : DistinctLock lock) {p' : LockPlatform}
    (hp : p ∈ lock.platforms) (hp' : p' ∈ lock.platforms) {m' : LockModule} (hm : m ∈ p.modules)
    (hm' : m' ∈ p'.modules) (hpackage : package ∈ m.packages) (hpackage' : package' ∈ m'.packages)
    (heq : DepKey.of p m package = DepKey.of p' m' package') :
    p = p' ∧ m = m' ∧ package = package' := by
  obtain ⟨hplatform, hpath, hkey, hversion⟩ := DepKey.mk.inj heq
  obtain rfl := inj_on_of_nodup_map h.platforms hp hp' (Platform.display_injective hplatform)
  obtain rfl := inj_on_of_nodup_map (h.entries p hp).paths hm hm' hpath
  exact ⟨rfl, rfl, inj_on_of_nodup_map ((h.entries p hp).packages m hm) hpackage hpackage'
    (PackageKey.coordinate_eq hkey (Option.some.inj hversion))⟩

theorem DistinctLock.depMap_inj (h : DistinctLock lock) {a b : DepKey × DepEntry}
    (ha : a ∈ depMap lock none) (hb : b ∈ depMap lock none) (hkey : a.1 = b.1) : a = b := by
  obtain ⟨p, hp, m, hm, package, hpackage, rfl⟩ := mem_depMap.mp ha
  obtain ⟨p', hp', m', hm', package', hpackage', rfl⟩ := mem_depMap.mp hb
  obtain ⟨rfl, rfl, rfl⟩ := h.depKey_inj hp hp' hm hm' hpackage hpackage' hkey
  rfl

namespace DepMap

variable {old new map : DepMap} {key key' : DepKey}

theorem unversioned_pairKey (old new : DepMap) (key : DepKey) :
    (pairKey old new key).unversioned = key.unversioned := by
  rw [pairKey]
  split <;> rfl

theorem eq_of_versions_eq_one {u : DepKey} (h : map.versions u = 1) (hk : key ∈ map.map Prod.fst)
    (hk' : key' ∈ map.map Prod.fst) (hu : key.unversioned = u) (hu' : key'.unversioned = u) :
    key = key' := by
  rw [versions, countP_eq_length_filter] at h
  obtain ⟨only, honly⟩ := length_eq_one_iff.mp h
  have hmem : ∀ k ∈ map.map Prod.fst, k.unversioned = u → k = only := by
    intro k hk hu
    have : k ∈ map.keys.filter fun other => other.unversioned = u :=
      mem_filter.mpr ⟨mem_dedup.mpr hk, decide_eq_true hu⟩
    rw [honly] at this
    exact mem_singleton.mp this
  rw [hmem key hk hu, hmem key' hk' hu']

/-- Pairing the only versions of a package keeps the packages of one side apart. -/
theorem pairKey_inj (hmap : map = old ∨ map = new) (hk : key ∈ map.map Prod.fst)
    (hk' : key' ∈ map.map Prod.fst) (h : pairKey old new key = pairKey old new key') :
    key = key' := by
  have hu : key.unversioned = key'.unversioned := by
    rw [← unversioned_pairKey old new key, h, unversioned_pairKey]
  by_cases hone : old.versions key.unversioned = 1 ∧ new.versions key.unversioned = 1
  · have hmapOne : map.versions key.unversioned = 1 := by
      rcases hmap with rfl | rfl
      · exact hone.1
      · exact hone.2
    exact eq_of_versions_eq_one hmapOne hk hk' rfl hu.symm
  · have hone' : ¬ (old.versions key'.unversioned = 1 ∧ new.versions key'.unversioned = 1) := by
      rwa [← hu]
    rwa [pairKey, pairKey, if_neg hone, if_neg hone'] at h

theorem mem_pair {entry : DepKey × DepEntry} :
    entry ∈ map.pair old new ↔ ∃ e ∈ map, (pairKey old new e.1, e.2) = entry := by
  rw [pair, mem_map]

theorem get?_pair (hmap : map = old ∨ map = new)
    (hinj : ∀ a ∈ map, ∀ b ∈ map, a.1 = b.1 → a = b) {entry : DepEntry} :
    (map.pair old new).get? key = some entry ↔
      ∃ e ∈ map, pairKey old new e.1 = key ∧ e.2 = entry := by
  have hunique : ∀ a ∈ map.pair old new, ∀ b ∈ map.pair old new, a.1 = b.1 → a = b := by
    intro a ha b hb hab
    obtain ⟨e, he, rfl⟩ := mem_pair.mp ha
    obtain ⟨f, hf, rfl⟩ := mem_pair.mp hb
    rw [hinj e he f hf (pairKey_inj hmap (mem_map_of_mem he) (mem_map_of_mem hf) hab)]
  rw [get?, Option.map_eq_some_iff]
  constructor
  · rintro ⟨found, hfound, rfl⟩
    obtain ⟨hmem, rfl⟩ := (lookupLast_eq_some_iff hunique).mp hfound
    obtain ⟨e, he, rfl⟩ := mem_pair.mp hmem
    exact ⟨e, he, rfl, rfl⟩
  · rintro ⟨e, he, rfl, rfl⟩
    exact ⟨_, (lookupLast_eq_some_iff hunique).mpr ⟨mem_pair.mpr ⟨e, he, rfl⟩, rfl⟩, rfl⟩

end DepMap

/-! ## Packages without a line -/

structure SameEntry (kind : DepKind) (e e' : DepEntry) : Prop where
  version : e.artifact.fileVersion = e'.artifact.fileVersion
  snapshot : e.artifact.snapshot = e'.artifact.snapshot
  checksums : e.artifact.checksums = e'.artifact.checksums
  origins : kind ≠ .workspace → e.artifact.repoUrl = e'.artifact.repoUrl ∧
    e.artifact.otherRepoUrls = e'.artifact.otherRepoUrls ∧
      e.artifact.pomRepoUrls = e'.artifact.pomRepoUrls
  directScope : e.directScope = e'.directScope
  scope : e.scope = e'.scope

theorem Change.of_eq_none_iff [UrlParser] {key : DepKey} {e e' : DepEntry} :
    Change.of key (some e) (some e') = none ↔ SameEntry key.package.kind e e' := by
  simp only [Change.of, DepEntry.version, ne_eq, checksumDrifted, decide_eq_true_eq]
  constructor
  · intro h
    split_ifs at h with hversion hsnapshot hchecksums horigins hscope
    refine ⟨hversion, hsnapshot, hchecksums, fun hkind => ?_, (Prod.mk.inj hscope).1,
      (Prod.mk.inj hscope).2⟩
    simpa [hkind] using horigins
  intro h
  have horigins : ¬ (¬ key.package.kind = .workspace ∧
      (¬ e.artifact.repoUrl = e'.artifact.repoUrl ∨
        ¬ e.artifact.otherRepoUrls = e'.artifact.otherRepoUrls ∨
          ¬ e.artifact.pomRepoUrls = e'.artifact.pomRepoUrls)) := by
    rintro ⟨hkind, hdiffer⟩
    obtain ⟨hrepo, hother, hpom⟩ := h.origins hkind
    rw [hrepo, hother, hpom] at hdiffer
    simp at hdiffer
  rw [if_neg (not_not.mpr h.version), if_neg (not_not.mpr h.snapshot),
    if_neg (not_not.mpr h.checksums), if_neg horigins, h.directScope, h.scope]
  simp

section Between

variable (old new : Lockfile)

/-- The key that a package has on both sides once versions are paired. -/
def keyBetween (key : DepKey) : DepKey :=
  DepMap.pairKey (depMap old none) (depMap new none) key

def oldBetween : DepMap :=
  (depMap old none).pair (depMap old none) (depMap new none)

def newBetween : DepMap :=
  (depMap new none).pair (depMap old none) (depMap new none)

theorem unversioned_keyBetween (key : DepKey) :
    (keyBetween old new key).unversioned = key.unversioned :=
  DepMap.unversioned_pairKey _ _ key

theorem package_keyBetween (key : DepKey) : (keyBetween old new key).package = key.package :=
  show (keyBetween old new key).unversioned.package = key.unversioned.package by
    rw [unversioned_keyBetween]

theorem platform_keyBetween (key : DepKey) : (keyBetween old new key).platform = key.platform :=
  show (keyBetween old new key).unversioned.platform = key.unversioned.platform by
    rw [unversioned_keyBetween]

variable {old new} {a : DepKey × DepEntry} {key : DepKey} {entry : DepEntry}

theorem get?_oldBetween (hold : DistinctLock old) :
    (oldBetween old new).get? key = some entry ↔
      ∃ a ∈ depMap old none, keyBetween old new a.1 = key ∧ a.2 = entry :=
  DepMap.get?_pair (.inl rfl) fun _ ha _ hb => hold.depMap_inj ha hb

theorem get?_newBetween (hnew : DistinctLock new) :
    (newBetween old new).get? key = some entry ↔
      ∃ b ∈ depMap new none, keyBetween old new b.1 = key ∧ b.2 = entry :=
  DepMap.get?_pair (.inr rfl) fun _ ha _ hb => hnew.depMap_inj ha hb

theorem mem_keys_between (ha : a ∈ depMap old none ∨ a ∈ depMap new none) :
    keyBetween old new a.1 ∈ (oldBetween old new ++ newBetween old new).keys := by
  rw [DepMap.keys, mem_dedup, map_append, mem_append]
  exact ha.imp (fun ha => mem_map.mpr ⟨_, DepMap.mem_pair.mpr ⟨a, ha, rfl⟩, rfl⟩)
    fun ha => mem_map.mpr ⟨_, DepMap.mem_pair.mpr ⟨a, ha, rfl⟩, rfl⟩

theorem platform_mem_platformIds {entry : DepKey × DepEntry} (h : entry ∈ depMap lock none) :
    (keyBetween old new entry.1).platform ∈ platformIds lock none := by
  obtain ⟨p, hp, m, hm, package, hpackage, rfl⟩ := mem_depMap.mp h
  rw [platform_keyBetween]
  exact mem_platformIds.mpr ⟨p, hp, rfl⟩

/-- Both sides have an entry for the key of a package, and the entries are the
same. -/
theorem Unlisted.exists_pair [UrlParser] (h : Unlisted old new) (hold : DistinctLock old)
    (hnew : DistinctLock new) {c : DepKey × DepEntry}
    (hc : c ∈ depMap old none ∨ c ∈ depMap new none) :
    ∃ a ∈ depMap old none, ∃ b ∈ depMap new none,
      keyBetween old new a.1 = keyBetween old new c.1 ∧
      keyBetween old new b.1 = keyBetween old new c.1 ∧ SameEntry c.1.package.kind a.2 b.2 := by
  have hid : (keyBetween old new c.1).platform ∈ platformIds old none :=
    hc.elim platform_mem_platformIds fun hc => (h.platforms _).mpr (platform_mem_platformIds hc)
  have hnone := filterMap_eq_nil_iff.mp h.packages (keyBetween old new c.1)
    (mem_filter.mpr ⟨(mem_sortBy _).mpr (mem_keys_between hc),
      decide_eq_true ⟨hid, (h.platforms _).mp hid⟩⟩)
  rw [Option.map_eq_none_iff] at hnone
  change Change.of _ ((oldBetween old new).get? _) ((newBetween old new).get? _) = none at hnone
  cases hx : (oldBetween old new).get? (keyBetween old new c.1) with
  | none =>
    cases hy : (newBetween old new).get? (keyBetween old new c.1) with
    | none =>
      rcases hc with hc | hc
      · cases hx.symm.trans ((get?_oldBetween hold).mpr ⟨c, hc, rfl, rfl⟩)
      · cases hy.symm.trans ((get?_newBetween hnew).mpr ⟨c, hc, rfl, rfl⟩)
    | some y =>
      rw [hx, hy] at hnone
      cases hnone
  | some x =>
    cases hy : (newBetween old new).get? (keyBetween old new c.1) with
    | none =>
      rw [hx, hy] at hnone
      cases hnone
    | some y =>
      rw [hx, hy, Change.of_eq_none_iff, package_keyBetween] at hnone
      obtain ⟨a, ha, hkey, rfl⟩ := (get?_oldBetween hold).mp hx
      obtain ⟨b, hb, hkey', rfl⟩ := (get?_newBetween hnew).mp hy
      exact ⟨a, ha, b, hb, hkey, hkey', hnone⟩

end Between

end Raeva.Lock
