import Raeva.Lock.UnlistedEdges

/-!
# Lockfiles with one canonical form

Lockfiles with one canonical form hold the same rows in another order.  The
lines of a diff are made from maps and sets, so no order shows in them but that
of the lists inside an artifact row.
-/

namespace Raeva.Lock

open List

/-! ## What the canonical form keeps of a platform -/

section Keeps

variable [ContentHash] (lock : Lockfile) (p : LockPlatform)

theorem canonicalPlatform_artifacts : (canonicalPlatform lock p).artifacts =
    (sortBy (fun artifact => artifact.coordinate.sortKey) p.artifacts).map
      canonicalizeArtifact := by
  obtain ⟨_, _, heq, -⟩ := canonicalPlatform_eq lock p
  rw [heq]
  rfl

theorem canonicalPlatform_supportPoms : (canonicalPlatform lock p).supportPoms = p.supportPoms := by
  obtain ⟨_, _, heq, -⟩ := canonicalPlatform_eq lock p
  rw [heq]
  rfl

theorem canonicalPlatform_profiles :
    (canonicalPlatform lock p).modelInputs.map (·.profiles) = p.modelInputs.map (·.profiles) := by
  obtain ⟨_, _, heq, hprofiles⟩ := canonicalPlatform_eq lock p
  rw [heq]
  exact hprofiles

variable {lock p}

theorem mem_canonicalPlatform_artifacts {a : LockArtifact} :
    a ∈ (canonicalPlatform lock p).artifacts ↔ ∃ b ∈ p.artifacts, canonicalizeArtifact b = a := by
  rw [canonicalPlatform_artifacts, mem_map]
  simp only [mem_sortBy]

theorem mem_canonicalPlatform_modules {m : LockModule} :
    m ∈ (canonicalPlatform lock p).modules ↔ ∃ n ∈ p.modules, canonicalizeModule n = m := by
  rw [canonicalPlatform_modules, canonicalModules, mem_map]
  simp only [mem_sortBy]

theorem Distinct.of_canonicalPlatform (h : Distinct (canonicalPlatform lock p)) : Distinct p := by
  have hmodules : ∀ {β : Type} (f : LockModule → β), (∀ m, f (canonicalizeModule m) = f m) →
      ((canonicalPlatform lock p).modules.map f).Perm (p.modules.map f) := by
    intro β f hf
    rw [canonicalPlatform_modules, canonicalModules, map_map]
    have hcomp : f ∘ canonicalizeModule = f := funext hf
    rw [hcomp]
    exact (sortBy_perm _ _).map f
  have hartifacts : ((canonicalPlatform lock p).artifacts.map (·.coordinate)).Perm
      (p.artifacts.map (·.coordinate)) := by
    rw [canonicalPlatform_artifacts, map_map]
    exact (sortBy_perm _ _).map _
  refine ⟨(hmodules _ fun _ => rfl).nodup_iff.mp h.paths,
    (hmodules _ fun _ => rfl).nodup_iff.mp h.gavs,
    fun m hm => ?_, hartifacts.nodup_iff.mp h.artifacts, fun m hm => ?_, fun m hm => ?_,
    fun m hm range hrange => ?_⟩
  · have := h.packages _ (mem_canonicalPlatform_modules.mpr ⟨m, hm, rfl⟩)
    rw [canonicalizeModule_packages] at this
    exact ((sortBy_perm _ _).map _).nodup_iff.mp this
  · have := h.selections _ (mem_canonicalPlatform_modules.mpr ⟨m, hm, rfl⟩)
    exact ((sortBy_perm _ _).map _).nodup_iff.mp this
  · exact h.names (canonicalizeModule m) (mem_canonicalPlatform_modules.mpr ⟨m, hm, rfl⟩)
  · exact h.models _ (mem_canonicalPlatform_modules.mpr ⟨m, hm, rfl⟩) range
      ((mem_sortBy _).mpr hrange)

end Keeps

variable {lock form fresh : Lockfile} {p q : LockPlatform}

theorem check_of_canonical [Lowercase] [UrlParser] [ContentHash] (h : canonical lock = .ok form) :
    check form = .ok () := by
  rw [canonical] at h
  obtain ⟨hcheck, h⟩ := bind_unit_eq_ok_iff.mp h
  cases h
  exact hcheck

theorem canonical_distinct [Lowercase] [UrlParser] [ContentHash] (h : canonical lock = .ok form) :
    DistinctLock lock := by
  obtain ⟨hplatforms, hentries⟩ := check_distinct (check_of_canonical h)
  refine ⟨?_, fun p hp => .of_canonicalPlatform (hentries _ (mem_canonical_platforms h hp))⟩
  rw [canonical_eq_ok h, map_map] at hplatforms
  have hcomp : LockPlatform.platform ∘ canonicalPlatform lock = LockPlatform.platform :=
    funext (canonicalPlatform_platform lock)
  rw [hcomp] at hplatforms
  exact ((sortBy_perm _ _).map _).nodup_iff.mp hplatforms

/-! ## Platforms with the same rows -/

theorem SameModule.symm {m n : LockModule} (h : SameModule m n) : SameModule n m :=
  ⟨h.path.symm, h.gav.symm, h.packaging.symm, h.packages.symm, h.edges.symm, h.parentRanges.symm,
    fun coord => (h.supportPoms coord).symm⟩

def RowsInOrder (p q : LockPlatform) : Prop :=
  ∀ a ∈ p.artifacts, ∀ b ∈ q.artifacts, a.coordinate = b.coordinate →
    a.checksums = b.checksums ∧ a.otherRepoUrls = b.otherRepoUrls ∧ a.pomRepoUrls = b.pomRepoUrls

structure SameForm (p q : LockPlatform) : Prop where
  platform : p.platform = q.platform
  left : ∀ m ∈ p.modules, ∃ n ∈ q.modules, SameModule m n
  right : ∀ n ∈ q.modules, ∃ m ∈ p.modules, SameModule m n
  artifacts : ∀ a, a ∈ p.artifacts ↔ a ∈ q.artifacts
  supportPoms : p.supportPoms = q.supportPoms
  profiles : p.modelInputs.map (·.profiles) = q.modelInputs.map (·.profiles)

theorem SameForm.symm (h : SameForm p q) : SameForm q p :=
  ⟨h.platform.symm, fun n hn => (h.right n hn).imp fun _ hm => ⟨hm.1, hm.2.symm⟩,
    fun m hm => (h.left m hm).imp fun _ hn => ⟨hn.1, hn.2.symm⟩, fun a => (h.artifacts a).symm,
    h.supportPoms.symm, h.profiles.symm⟩

theorem SameForm.sameCoordinates (h : SameForm p q) (hq : Distinct q) : SameCoordinates p q := by
  have hsame : ∀ m ∈ p.modules, ∀ n ∈ q.modules, m.path = n.path → SameModule m n := by
    intro m hm n hn hpath
    obtain ⟨n', hn', hmodule⟩ := h.left m hm
    obtain rfl := inj_on_of_nodup_map hq.paths hn' hn (hmodule.path.symm.trans hpath)
    exact hmodule
  exact ⟨fun m hm => (h.left m hm).imp fun _ hn => ⟨hn.1, hn.2.path.symm⟩,
    fun n hn => (h.right n hn).imp fun _ hm => ⟨hm.1, hm.2.path⟩,
    fun m hm n hn hpath => (hsame m hm n hn hpath).gav,
    fun m hm n hn hpath => (hsame m hm n hn hpath).packaging⟩

/-- Rows with one canonical form are equal where their lists are in one
order. -/
theorem artifact_mem_of_canonicalPlatform_eq [ContentHash]
    (h : canonicalPlatform lock p = canonicalPlatform fresh q) (horder : RowsInOrder p q)
    {a : LockArtifact} (ha : a ∈ p.artifacts) : a ∈ q.artifacts := by
  have hmem : canonicalizeArtifact a ∈ (canonicalPlatform lock p).artifacts :=
    mem_canonicalPlatform_artifacts.mpr ⟨a, ha, rfl⟩
  rw [h] at hmem
  obtain ⟨b, hb, hab⟩ := mem_canonicalPlatform_artifacts.mp hmem
  have hcoordinate : a.coordinate = b.coordinate := (congrArg LockArtifact.coordinate hab).symm
  obtain ⟨hchecksums, hother, hpom⟩ := horder a ha b hb hcoordinate
  have hequal : a = b := by
    cases a
    cases b
    simp_all [canonicalizeArtifact]
  exact hequal ▸ hb

/-- Platforms with one canonical form have the same rows. -/
theorem SameForm.of_canonicalPlatform_eq [ContentHash]
    (h : canonicalPlatform lock p = canonicalPlatform fresh q) (horder : RowsInOrder p q) :
    SameForm p q := by
  have hplatform : p.platform = q.platform := by
    rw [← canonicalPlatform_platform lock p, h, canonicalPlatform_platform]
  have horder' : RowsInOrder q p := by
    intro b hb a ha hab
    obtain ⟨hchecksums, hother, hpom⟩ := horder a ha b hb hab.symm
    exact ⟨hchecksums.symm, hother.symm, hpom.symm⟩
  have hmodule : ∀ {lock fresh : Lockfile} {p q : LockPlatform},
      canonicalPlatform lock p = canonicalPlatform fresh q → ∀ m ∈ p.modules, ∃ n ∈ q.modules,
        canonicalizeModule n = canonicalizeModule m := by
    intro lock fresh p q h m hm
    have hmem : canonicalizeModule m ∈ (canonicalPlatform lock p).modules :=
      mem_canonicalPlatform_modules.mpr ⟨m, hm, rfl⟩
    rw [h] at hmem
    exact mem_canonicalPlatform_modules.mp hmem
  refine ⟨hplatform, fun m hm => ?_, fun n hn => ?_, fun a => ⟨?_, ?_⟩, ?_, ?_⟩
  · obtain ⟨n, hn, heq⟩ := hmodule h m hm
    exact ⟨n, hn, .of_canonicalizeModule_eq heq.symm⟩
  · obtain ⟨m, hm, heq⟩ := hmodule h.symm n hn
    exact ⟨m, hm, .of_canonicalizeModule_eq heq⟩
  · exact artifact_mem_of_canonicalPlatform_eq h horder
  · exact artifact_mem_of_canonicalPlatform_eq h.symm horder'
  · rw [← canonicalPlatform_supportPoms lock p, h, canonicalPlatform_supportPoms]
  · rw [← canonicalPlatform_profiles lock p, h, canonicalPlatform_profiles]

/-! ## No line -/

section NoLine

variable {p q : LockPlatform}

theorem SameForm.depEntry_eq (h : SameForm p q) (hp : Distinct p) (hq : Distinct q)
    (package : LockModulePackage) : DepEntry.of p package = DepEntry.of q package := by
  have hrow : lookupLast LockArtifact.coordinate p.artifacts package.coordinate =
      lookupLast LockArtifact.coordinate q.artifacts package.coordinate := by
    ext a
    rw [lookupLast_eq_some_iff (inj_on_of_nodup_map hp.artifacts),
      lookupLast_eq_some_iff (inj_on_of_nodup_map hq.artifacts), h.artifacts]
  simp only [DepEntry.of, DepEntry.artifactOf, hrow]

theorem SameForm.moduleChanges_eq_nil (h : SameForm p q) (hq : Distinct q) :
    moduleChanges p q = [] := by
  have hsame := h.sameCoordinates hq
  refine filterMap_eq_nil_iff.mpr fun path _ => ?_
  rw [moduleChange, Option.map_eq_none_iff]
  cases hm : lookupLast LockModule.path p.modules path with
  | none =>
    cases hn : lookupLast LockModule.path q.modules path with
    | none => rfl
    | some n =>
      obtain ⟨m, hmem, hpath⟩ := hsame.right n (lookupLast_mem hn).1
      exact absurd (hpath.trans (lookupLast_mem hn).2) (lookupLast_eq_none hm m hmem)
  | some m =>
    obtain ⟨hmem, rfl⟩ := lookupLast_mem hm
    cases hn : lookupLast LockModule.path q.modules m.path with
    | none =>
      obtain ⟨n, hnmem, hpath⟩ := hsame.left m hmem
      exact absurd hpath (lookupLast_eq_none hn n hnmem)
    | some n =>
      obtain ⟨hnmem, hpath⟩ := lookupLast_mem hn
      simp [moduleChangeKind, hsame.gav m hmem n hnmem hpath.symm,
        hsame.packaging m hmem n hnmem hpath.symm]

theorem SameForm.profileChange_eq_none (h : SameForm p q) : profileChange p q = none := by
  have hprofiles := h.profiles
  rw [profileChange]
  split
  · rename_i a b ha hb
    rw [ha, hb, Option.map_some, Option.map_some, Option.some.injEq] at hprofiles
    rw [if_neg (not_not.mpr hprofiles)]
  · rfl

theorem SameForm.companionChange_eq_none (h : SameForm p q) (hq : Distinct q) {b : LockArtifact}
    (hb : b ∈ q.artifacts) : companionChange p q b = none := by
  rw [companionChange]
  cases hfound : lookupLast LockArtifact.coordinate p.artifacts b.coordinate with
  | none => rfl
  | some a =>
    obtain ⟨ha, hcoordinate⟩ := lookupLast_mem hfound
    obtain rfl := inj_on_of_nodup_map hq.artifacts ((h.artifacts a).mp ha) hb hcoordinate
    simp

theorem SameForm.selectedAt_eq (h : SameForm p q) (hp : Distinct p) (hq : Distinct q)
    (key : Text × Text × Text) : selectedAt p key = selectedAt q key := by
  have hforth : ∀ {p q : LockPlatform}, SameForm p q → Distinct p → Distinct q →
      ∀ selected, selectedAt p key = some selected → selectedAt q key = some selected := by
    intro p q h hp hq selected hselected
    obtain ⟨m, hm, range, hrange, rfl, rfl⟩ := (selectedAt_eq_some_iff hp).mp hselected
    obtain ⟨n, hn, hmodule⟩ := h.left m hm
    refine (selectedAt_eq_some_iff hq).mpr
      ⟨n, hn, range, hmodule.parentRanges.mem_iff.mp hrange, ?_, rfl⟩
    rw [hmodule.path, modelName_eq (h.sameCoordinates hq) hp hq]
  ext selected
  exact ⟨hforth h hp hq selected, hforth h.symm hq hp selected⟩

theorem SameForm.platformPomChanges_eq_nil [UrlParser] (h : SameForm p q) (hp : Distinct p)
    (hq : Distinct q) : platformPomChanges p q = [] := by
  simp only [platformPomChanges, append_eq_nil_iff, filterMap_eq_nil_iff]
  refine ⟨⟨⟨fun b hb => h.companionChange_eq_none hq hb, fun entry hentry => ?_⟩,
    fun entry hentry => ?_⟩, fun key _ => ?_⟩
  · have hlookup : p.supportPoms.lookup entry.1 = some entry.2 := by
      rw [h.supportPoms]
      exact OrderedMap.lookup_eq_some_iff.mpr hentry
    simp [supportPomChange, hlookup]
  · have hcontains : q.supportPoms.contains entry.1 = true :=
      Ordered.contains_iff.mpr ⟨entry, h.supportPoms ▸ hentry, rfl⟩
    rw [supportPomRemoval, if_pos hcontains]
  · rw [parentRangeChange]
    exact if_pos (h.selectedAt_eq hp hq key)

/-- Each platform of one lockfile has its rows in the other. -/
structure SameForms (old new : Lockfile) : Prop where
  left : ∀ p ∈ old.platforms, ∃ q ∈ new.platforms, SameForm p q
  right : ∀ q ∈ new.platforms, ∃ p ∈ old.platforms, SameForm p q

variable {old new : Lockfile}

theorem SameForms.symm (h : SameForms old new) : SameForms new old :=
  ⟨fun q hq => (h.right q hq).imp fun _ hp => ⟨hp.1, hp.2.symm⟩,
    fun p hp => (h.left p hp).imp fun _ hq => ⟨hq.1, hq.2.symm⟩⟩

theorem Change.of_self [UrlParser] (key : DepKey) (entry : Option DepEntry) :
    Change.of key entry entry = none := by
  cases entry with
  | none => rfl
  | some entry =>
    exact Change.of_eq_none_iff.mpr ⟨rfl, rfl, rfl, fun _ => ⟨rfl, rfl, rfl⟩, rfl, rfl⟩

variable (h : SameForms old new) (hold : DistinctLock old) (hnew : DistinctLock new)

include h hold hnew

theorem SameForms.mem_depMap {entry : DepKey × DepEntry} (hentry : entry ∈ depMap old none) :
    entry ∈ depMap new none := by
  obtain ⟨p, hp, m, hm, package, hpackage, rfl⟩ := Lock.mem_depMap.mp hentry
  obtain ⟨q, hq, hform⟩ := h.left p hp
  obtain ⟨n, hn, hmodule⟩ := hform.left m hm
  refine Lock.mem_depMap.mpr ⟨q, hq, n, hn, package, hmodule.packages.mem_iff.mp hpackage, ?_⟩
  rw [← depKey_of_eq hform.platform hmodule.path,
    hform.depEntry_eq (hold.entries p hp) (hnew.entries q hq)]

theorem SameForms.changes_eq_nil [UrlParser] : (LockChanges.between old new none).changes = [] := by
  refine filterMap_eq_nil_iff.mpr fun key _ => ?_
  have hget : (oldBetween old new).get? key = (newBetween old new).get? key := by
    ext entry
    rw [get?_oldBetween hold, get?_newBetween hnew]
    constructor
    · rintro ⟨a, ha, hkey⟩
      exact ⟨a, h.mem_depMap hold hnew ha, hkey⟩
    · rintro ⟨b, hb, hkey⟩
      exact ⟨b, h.symm.mem_depMap hnew hold hb, hkey⟩
  have hnone :
      Change.of key ((oldBetween old new).get? key) ((newBetween old new).get? key) = none := by
    rw [hget]
    exact Change.of_self key _
  rw [Option.map_eq_none_iff]
  exact hnone

theorem SameForms.mem_edgeMap {oldMap newMap : DepMap} {edge : (DepKey × DepKey) × EdgeState}
    (hedge : edge ∈ edgeMap old new none oldMap newMap) :
    edge ∈ edgeMap new old none oldMap newMap := by
  obtain ⟨p, hp, m, hm, hother, e, he, hentry⟩ := Lock.mem_edgeMap.mp hedge
  obtain ⟨q, hq, hform⟩ := h.left p hp
  obtain ⟨n, hn, hmodule⟩ := hform.left m hm
  have hfind : (new.platforms.find? fun entry => entry.platform = p.platform) = some q :=
    find?_key_eq_some (inj_on_of_nodup_map hnew.platforms) hq hform.platform.symm
  have hfind' : (old.platforms.find? fun entry => entry.platform = q.platform) = some p :=
    find?_key_eq_some (inj_on_of_nodup_map hold.platforms) hp hform.platform
  rw [hfind] at hother
  have hnp : n ∉ p.modules := by
    intro hmem
    obtain rfl := inj_on_of_nodup_map (hold.entries p hp).paths hm hmem hmodule.path
    exact hother hn
  -- The same edge of the other module, by the packages that it joins.
  have hnamed := hmodule.edges.mem_iff.mp (mem_map_of_mem he)
  obtain ⟨e', he', hsame⟩ := mem_map.mp hnamed
  obtain ⟨hsource, htarget, hscope, hoptional⟩ := by simpa only [Prod.mk.injEq] using hsame
  have hkey : ∀ {i j : ℕ}, n.packages[i]? = m.packages[j]? →
      edgeKey oldMap newMap q n i = edgeKey oldMap newMap p m j := by
    intro i j hij
    rw [edgeKey, edgeKey, hij]
    simp only [depKey_of_eq hform.platform hmodule.path]
  refine Lock.mem_edgeMap.mpr ⟨q, hq, n, hn, by rw [hfind']; exact hnp, e', he', ?_⟩
  rw [edgeEntry_eq_some_iff] at hentry ⊢
  rwa [hkey hsource, hkey htarget, hscope, hoptional]

theorem SameForms.edgeChanges_eq_nil (oldMap newMap : DepMap) :
    edgeChanges old new none oldMap newMap = [] := by
  refine flatMap_eq_nil_iff.mpr fun key _ => ?_
  have hremoved : ∀ state ∈ (edgeMap old new none oldMap newMap).states key,
      state ∈ (edgeMap new old none oldMap newMap).states key := fun state hstate =>
    EdgeMap.mem_states.mpr (h.mem_edgeMap hold hnew (EdgeMap.mem_states.mp hstate))
  have hadded : ∀ state ∈ (edgeMap new old none oldMap newMap).states key,
      state ∈ (edgeMap old new none oldMap newMap).states key := fun state hstate =>
    EdgeMap.mem_states.mpr (h.symm.mem_edgeMap hnew hold (EdgeMap.mem_states.mp hstate))
  rw [edgeChangesOf]
  have hnone : ∀ {a b : List EdgeState}, (∀ state ∈ a, state ∈ b) → a.filter (· ∉ b) = [] :=
    fun hab => filter_eq_nil_iff.mpr fun state hstate => by simpa using hab state hstate
  simp only [hnone hremoved, hnone hadded, edgePairs, map_nil]

/-- Lockfiles with the same rows on every platform have no line between them. -/
theorem SameForms.unlisted [UrlParser] : Unlisted old new := by
  have hids : ∀ {old new : Lockfile}, SameForms old new → ∀ id, id ∈ platformIds old none →
      id ∈ platformIds new none := by
    intro old new h id hid
    obtain ⟨p, hp, rfl⟩ := mem_platformIds.mp hid
    obtain ⟨q, hq, hform⟩ := h.left p hp
    exact mem_platformIds.mpr ⟨q, hq, by rw [hform.platform]⟩
  have hpair : ∀ pair ∈ comparedPlatforms old new none,
      SameForm pair.1 pair.2 ∧ Distinct pair.1 ∧ Distinct pair.2 := by
    rintro ⟨p, q⟩ hmem
    obtain ⟨hq, hfind⟩ := mem_comparedPlatforms.mp hmem
    obtain ⟨hp, hpq⟩ := find?_key_mem hfind
    obtain ⟨p', hp', hform⟩ := h.right q hq
    obtain rfl := inj_on_of_nodup_map hold.platforms hp hp' (hpq.trans hform.platform.symm)
    exact ⟨hform, hold.entries p hp, hnew.entries q hq⟩
  refine ⟨fun id => ⟨hids h id, hids h.symm id⟩, h.changes_eq_nil hold hnew, ?_, ?_,
    h.edgeChanges_eq_nil hold hnew _ _, ?_⟩
  · refine flatMap_eq_nil_iff.mpr fun pair hmem => ?_
    obtain ⟨hform, -, hq⟩ := hpair pair hmem
    exact hform.moduleChanges_eq_nil hq
  · refine filterMap_eq_nil_iff.mpr fun pair hmem => ?_
    exact (hpair pair hmem).1.profileChange_eq_none
  · rw [pomPinChanges, ← length_eq_zero_iff, length_sortBy, length_eq_zero_iff, flatMap_eq_nil_iff]
    intro pair hmem
    obtain ⟨hform, hp, hq⟩ := hpair pair hmem
    exact hform.platformPomChanges_eq_nil hp hq

end NoLine

theorem sameForms_of_canonical_eq [Lowercase] [UrlParser] [ContentHash] {lock fresh form : Lockfile}
    (h : canonical lock = .ok form) (h' : canonical fresh = .ok form)
    (horder : ∀ p ∈ lock.platforms, ∀ q ∈ fresh.platforms, p.platform = q.platform →
      RowsInOrder p q) : SameForms lock fresh := by
  have hplatform :
      ∀ {lock fresh : Lockfile}, canonical lock = .ok form → canonical fresh = .ok form →
      ∀ p ∈ lock.platforms, ∃ q ∈ fresh.platforms,
        canonicalPlatform fresh q = canonicalPlatform lock p := by
    intro lock fresh h h' p hp
    have hmem := mem_canonical_platforms h hp
    rw [canonical_eq_ok h'] at hmem
    obtain ⟨q, hq, heq⟩ := mem_map.mp hmem
    exact ⟨q, (mem_sortBy _).mp hq, heq⟩
  have hname : ∀ {p q : LockPlatform}, canonicalPlatform lock p = canonicalPlatform fresh q →
      p.platform = q.platform := by
    intro p q heq
    rw [← canonicalPlatform_platform lock p, heq, canonicalPlatform_platform]
  refine ⟨fun p hp => ?_, fun q hq => ?_⟩
  · obtain ⟨q, hq, heq⟩ := hplatform h h' p hp
    exact ⟨q, hq, .of_canonicalPlatform_eq heq.symm (horder p hp q hq (hname heq.symm))⟩
  · obtain ⟨p, hp, heq⟩ := hplatform h' h q hq
    exact ⟨p, hp, .of_canonicalPlatform_eq heq (horder p hp q hq (hname heq))⟩

end Raeva.Lock
