import Raeva.Library.Forest
import Raeva.Lock.Check

/-!
# Carrying platforms forward

A platform that a run did not resolve again is carried into the new lockfile
when none of its pins contradicts the fresh resolution, `rv-lock/src/merge.rs`.
-/

namespace Raeva.Lock

open List

inductive DropReason where
  | reconfigured
  | conflictingPom (coord : Text)
  | conflictingArtifact (coord : Text)
  | modelChanged
  | systemFileChanged (path : Text)
  | modelUnavailable (error : Text)
  deriving DecidableEq

structure Candidate where
  platform : Platform
  dropped : Option DropReason
  deriving DecidableEq

abbrev PomPins := List LockArtifact

def PomPins.lookup (pins : PomPins) (gav : Gav) : Option (Option Sha256) :=
  (lookupLast LockArtifact.pomGav pins gav).map (·.pomSha256)

def companionPomPins (lock : Lockfile) : PomPins :=
  lock.platforms.flatMap (·.artifacts)

def pomBuildOf (rows : List LockArtifact) (gav : Gav) : Option Gav :=
  (lookupLast (fun row => row.coordinate.gav) rows gav).map (·.pomGav)

/-- The first support POM that both sides record and pin to another file or
other bytes, by coordinate or by the file it names. -/
def conflictingSupportPom (kept fresh : OrderedMap Text SupportPom) : Option Text :=
  (kept.entries.find? fun (coord, pin) =>
    ((fresh.lookup coord).any fun freshPin =>
      freshPin.sha256 != pin.sha256 || freshPin.snapshot != pin.snapshot) ||
    ((pin.fileGav coord).bind fun file =>
      lookupLast (fun entry => entry.2.fileGav entry.1) fresh.entries (some file)).any fun entry =>
        entry.2.sha256 != pin.sha256).map Prod.fst

def conflictingSupportCompanionPin (supportPoms : OrderedMap Text SupportPom)
    (companions : PomPins) : Option Text :=
  supportPoms.entries.findSome? fun (coord, pin) => do
    let companion ← companions.lookup (← pin.fileGav coord)
    if companion != some pin.sha256 then some coord else none

def conflictingCompanionPomPin (fresh : PomPins) (candidate : LockPlatform) : Option Text :=
  candidate.artifacts.findSome? fun artifact =>
    if (pomBuildOf fresh artifact.coordinate.gav).any fun build => build != artifact.pomGav then
      some artifact.coordinate.gav.display
    else do
      let digest ← fresh.lookup artifact.pomGav
      if digest != artifact.pomSha256 then some artifact.pomGav.display else none

/-- The first coordinate whose row pins a different file than `other`'s row for
it, or other bytes than `other`'s row for the same file. -/
def conflictingArtifactPin (entry other : LockPlatform) : Option ArtifactCoord :=
  (entry.artifacts.find? fun artifact =>
    ((lookupLast LockArtifact.coordinate other.artifacts artifact.coordinate).any fun theirs =>
      artifact.conflictsWith theirs) ||
    other.artifacts.any fun theirs =>
      theirs.repositoryPath = artifact.repositoryPath && artifact.bytesDiffer theirs).map
    (·.coordinate)

/-- The rules for the pins, in the order in which they are tried. -/
def dropReason (fresh previous : Lockfile) (configHash : Text) (entry : LockPlatform) :
    Option DropReason :=
  if previous.configHash != some configHash then some .reconfigured
  else
    let supportPoms := fresh.supportPoms
    let pins := companionPomPins fresh
    (((conflictingSupportPom entry.supportPoms supportPoms).or
      ((conflictingSupportCompanionPin entry.supportPoms pins).or
        ((conflictingSnapshotPom entry.supportPoms fresh.platforms).or
          (conflictingSnapshotPom supportPoms [entry])))).map .conflictingPom).or
    (((conflictingCompanionPomPin pins entry).map .conflictingPom).or
    (((fresh.platforms.findSome? (conflictingArtifactPin entry)).map fun coordinate =>
      .conflictingArtifact coordinate.display).or
    ((conflictingSupportCompanionPin supportPoms entry.artifacts).map .conflictingPom)))

/-- For every platform of `previous` that `fresh` does not hold, whether its
pins allow carrying it forward. -/
def preservation (fresh previous : Lockfile) (configHash : Text) : List Candidate :=
  (previous.platforms.filter fun entry =>
    !fresh.platforms.any fun other => other.platform = entry.platform).map fun entry =>
      { platform := entry.platform, dropped := dropReason fresh previous configHash entry }

/-! ## Preserved platforms agree with the fresh ones -/

section Agreement

variable {fresh : Lockfile} {entry f : LockPlatform} {a : LockArtifact} {previous : Lockfile}
  {configHash : Text}

theorem mem_supportPoms {e : Text × SupportPom} (h : e ∈ fresh.supportPoms.entries) :
    ∃ p ∈ fresh.platforms, e ∈ p.supportPoms.entries := by
  rcases Ordered.mem_foldl_insertNew h with h | h
  · cases h
  · exact mem_flatMap.mp h

theorem SupportPom.fileGav_congr {pin pin' : SupportPom} (h : pin.snapshot = pin'.snapshot)
    (coord : Text) : pin.fileGav coord = pin'.fileGav coord := by
  simp only [SupportPom.fileGav, h]

theorem eq_of_conflictingSupportCompanionPin {poms : OrderedMap Text SupportPom} {pins : PomPins}
    (h : conflictingSupportCompanionPin poms pins = none) {s : Text × SupportPom}
    (hs : s ∈ poms.entries) {file : Gav} (hfile : s.2.fileGav s.1 = some file)
    {digest : Option Sha256} (hdigest : pins.lookup file = some digest) :
    digest = some s.2.sha256 := by
  have hs := findSome?_eq_none_iff.mp h s hs
  simpa [hfile, hdigest] using hs

theorem lookup_artifacts (hself : entry.Agrees entry) (ha : a ∈ entry.artifacts) :
    PomPins.lookup entry.artifacts a.pomGav = some a.pomSha256 := by
  obtain ⟨b, hfind, hvalue⟩ := lookupLast_value LockArtifact.pomSha256 hself.pomSha256 ha
  rw [PomPins.lookup, hfind, Option.map_some, hvalue]

theorem build_of_conflictingArtifactPin (hself : f.Agrees f)
    (h : conflictingArtifactPin entry f = none) :
    ∀ a ∈ entry.artifacts, ∀ b ∈ f.artifacts, a.coordinate = b.coordinate →
      a.snapshot = b.snapshot := by
  intro a ha b hb hcoord
  obtain ⟨c, hfind, hvalue⟩ := lookupLast_value LockArtifact.snapshot hself.build hb
  have ha := find?_eq_none.mp (Option.map_eq_none_iff.mp h) a ha
  simp only [hcoord, hfind, Option.any_some, LockArtifact.conflictsWith, Bool.or_eq_true, not_or,
    bne_iff_ne, not_not] at ha
  exact ha.1.1.trans hvalue

theorem file_of_conflictingArtifactPin (h : conflictingArtifactPin entry f = none) :
    ∀ a ∈ entry.artifacts, ∀ b ∈ f.artifacts, a.repositoryPath = b.repositoryPath →
      a.bytesDiffer b = false := by
  intro a ha b hb hpath
  have ha := find?_eq_none.mp (Option.map_eq_none_iff.mp h) a ha
  simp only [Bool.or_eq_true, not_or, any_eq_true, not_exists, not_and, Bool.and_eq_true,
    decide_eq_true_eq, Bool.not_eq_true] at ha
  exact ha.2 b hb hpath.symm

theorem dropReason_eq_none (h : dropReason fresh previous configHash entry = none) :
    (conflictingSupportPom entry.supportPoms fresh.supportPoms = none ∧
      conflictingSupportCompanionPin entry.supportPoms (companionPomPins fresh) = none ∧
      conflictingSnapshotPom entry.supportPoms fresh.platforms = none ∧
      conflictingSnapshotPom fresh.supportPoms [entry] = none) ∧
    conflictingCompanionPomPin (companionPomPins fresh) entry = none ∧
    (∀ f ∈ fresh.platforms, conflictingArtifactPin entry f = none) ∧
    conflictingSupportCompanionPin fresh.supportPoms entry.artifacts = none := by
  rw [dropReason] at h
  split at h
  · cases h
  · simpa only [Option.or_eq_none_iff, Option.map_eq_none_iff, findSome?_eq_none_iff] using h

section Fresh

variable (hfresh : Consistent fresh.platforms) (hf : f ∈ fresh.platforms)

include hfresh hf

theorem exists_mem_supportPoms {t : Text × SupportPom} (ht : t ∈ f.supportPoms.entries) :
    ∃ pin, (t.1, pin) ∈ fresh.supportPoms.entries ∧ pin.snapshot = t.2.snapshot ∧
      pin.sha256 = t.2.sha256 := by
  obtain ⟨⟨coord, pin⟩, hmem, hkey⟩ : ∃ e ∈ fresh.supportPoms.entries, e.1 = t.1 :=
    Ordered.exists_mem_foldl_insertNew (.inr (mem_flatMap.mpr ⟨f, hf, ht⟩))
  obtain ⟨p, hp, hpin⟩ := mem_supportPoms hmem
  obtain rfl : coord = t.1 := hkey
  exact ⟨pin, hmem, (hfresh p hp f hf).support _ hpin t ht rfl⟩

theorem lookupLast_companionPomPins {κ ν : Type} [DecidableEq κ] {key : LockArtifact → κ}
    (value : LockArtifact → ν) (hagree : ∀ {p q : LockPlatform}, p.Agrees q → ∀ b ∈ p.artifacts,
      ∀ c ∈ q.artifacts, key b = key c → value b = value c) (ha : a ∈ f.artifacts) :
    (lookupLast key (companionPomPins fresh) (key a)).map value = some (value a) := by
  have hall : ∀ b ∈ companionPomPins fresh, ∀ c ∈ companionPomPins fresh,
      key b = key c → value b = value c := by
    intro b hb c hc
    obtain ⟨p, hp, hb⟩ := mem_flatMap.mp hb
    obtain ⟨q, hq, hc⟩ := mem_flatMap.mp hc
    exact hagree (hfresh p hp q hq) b hb c hc
  obtain ⟨b, hfind, hvalue⟩ := lookupLast_value value hall (mem_flatMap.mpr ⟨f, hf, ha⟩)
  rw [hfind, Option.map_some, hvalue]

theorem lookup_companionPomPins (ha : a ∈ f.artifacts) :
    (companionPomPins fresh).lookup a.pomGav = some a.pomSha256 :=
  lookupLast_companionPomPins hfresh hf LockArtifact.pomSha256 (·.pomSha256) ha

theorem support_of_conflictingSupportPom
    (h : conflictingSupportPom entry.supportPoms fresh.supportPoms = none) :
    ∀ s ∈ entry.supportPoms.entries, ∀ t ∈ f.supportPoms.entries, s.1 = t.1 →
      s.2.snapshot = t.2.snapshot ∧ s.2.sha256 = t.2.sha256 := by
  intro s hs t ht hcoord
  obtain ⟨pin, hpin, hsnapshot, hsha⟩ := exists_mem_supportPoms hfresh hf ht
  have hlookup : fresh.supportPoms.lookup s.1 = some pin :=
    hcoord ▸ OrderedMap.lookup_eq_some_iff.mpr hpin
  have hs := find?_eq_none.mp (Option.map_eq_none_iff.mp h) s hs
  simp only [hlookup, Option.any_some, Bool.or_eq_true, not_or, bne_iff_ne, not_not] at hs
  exact ⟨hs.1.2.symm.trans hsnapshot, hs.1.1.symm.trans hsha⟩

theorem supportFile_of_conflictingSupportPom
    (h : conflictingSupportPom entry.supportPoms fresh.supportPoms = none) :
    ∀ s ∈ entry.supportPoms.entries, ∀ t ∈ f.supportPoms.entries, ∀ file,
      s.2.fileGav s.1 = some file → t.2.fileGav t.1 = some file → s.2.sha256 = t.2.sha256 := by
  intro s hs t ht file hsfile htfile
  obtain ⟨pin, hpin, hsnapshot, hsha⟩ := exists_mem_supportPoms hfresh hf ht
  have hall : ∀ d ∈ fresh.supportPoms.entries, ∀ e ∈ fresh.supportPoms.entries,
      d.2.fileGav d.1 = e.2.fileGav e.1 →
        ((d.2.fileGav d.1).map fun _ => d.2.sha256) =
          (e.2.fileGav e.1).map fun _ => e.2.sha256 := by
    intro d hd e he hfile
    obtain ⟨p, hp, hd⟩ := mem_supportPoms hd
    obtain ⟨q, hq, he⟩ := mem_supportPoms he
    cases hgav : e.2.fileGav e.1 with
    | none => simp [hfile, hgav]
    | some gav =>
      simp [hfile, hgav, (hfresh p hp q hq).supportFile d hd e he gav (hfile.trans hgav) hgav]
  obtain ⟨e, hfind, hvalue⟩ := lookupLast_value
    (fun e : Text × SupportPom => (e.2.fileGav e.1).map fun _ => e.2.sha256) hall hpin
  have hpinfile : pin.fileGav t.1 = some file := (SupportPom.fileGav_congr hsnapshot _).trans htfile
  rw [hpinfile] at hfind
  have hefile := (lookupLast_mem hfind).2
  simp only [hefile, hpinfile, Option.map_some, Option.some.injEq] at hvalue
  have hs := find?_eq_none.mp (Option.map_eq_none_iff.mp h) s hs
  simp only [hsfile, Option.bind_some, hfind, Option.any_some, Bool.or_eq_true, not_or, bne_iff_ne,
    not_not] at hs
  rw [← hsha, ← hvalue, hs.2]

theorem pomBuild_of_conflictingCompanionPomPin
    (h : conflictingCompanionPomPin (companionPomPins fresh) entry = none) :
    ∀ a ∈ entry.artifacts, ∀ b ∈ f.artifacts, a.coordinate.gav = b.coordinate.gav →
      a.pomGav = b.pomGav := by
  intro a ha b hb hgav
  have ha := findSome?_eq_none_iff.mp h a ha
  rw [hgav, pomBuildOf, lookupLast_companionPomPins hfresh hf LockArtifact.pomGav (·.pomBuild) hb]
    at ha
  by_contra hne
  simp [Ne.symm hne] at ha

theorem pomSha256_of_conflictingCompanionPomPin
    (h : conflictingCompanionPomPin (companionPomPins fresh) entry = none) :
    ∀ a ∈ entry.artifacts, ∀ b ∈ f.artifacts, a.pomGav = b.pomGav → a.pomSha256 = b.pomSha256 := by
  intro a ha b hb hgav
  have ha := findSome?_eq_none_iff.mp h a ha
  split at ha
  · cases ha
  · rw [hgav, lookup_companionPomPins hfresh hf hb] at ha
    by_contra hne
    simp [Ne.symm hne] at ha

/-- A platform that no rule drops agrees with every fresh one. -/
theorem agrees_of_dropReason (hself : entry.Agrees entry)
    (h : dropReason fresh previous configHash entry = none) :
    entry.Agrees f ∧ f.Agrees entry := by
  obtain ⟨⟨hsupport, hcompanion, hsnapshot, hsnapshot'⟩, hpom, hartifact, hcompanion'⟩ :=
    dropReason_eq_none h
  rw [conflictingSnapshotPom_eq_none_iff] at hsnapshot hsnapshot'
  have hentry : entry.Agrees f := by
    refine ⟨file_of_conflictingArtifactPin (hartifact f hf),
      build_of_conflictingArtifactPin (hfresh f hf f hf) (hartifact f hf),
      pomBuild_of_conflictingCompanionPomPin hfresh hf hpom,
      pomSha256_of_conflictingCompanionPomPin hfresh hf hpom,
      support_of_conflictingSupportPom hfresh hf hsupport,
      supportFile_of_conflictingSupportPom hfresh hf hsupport, fun a ha t ht hfile => ?_,
      fun a ha t ht hgav => ?_⟩
    · obtain ⟨pin, hpin, hbuild, hsha⟩ := exists_mem_supportPoms hfresh hf ht
      rw [← hsha]
      exact eq_of_conflictingSupportCompanionPin hcompanion' hpin
        ((SupportPom.fileGav_congr hbuild _).trans hfile) (lookup_artifacts hself ha)
    · obtain ⟨pin, hpin, -, hsha⟩ := exists_mem_supportPoms hfresh hf ht
      rw [← hsha]
      exact hsnapshot' entry (by simp) a ha _ hpin hgav
  refine ⟨hentry, fun a ha b hb hpath => ?_, fun a ha b hb hcoord => ?_, fun a ha b hb hgav => ?_,
    fun a ha b hb hgav => ?_, fun s hs t ht hcoord => ?_, fun s hs t ht file hsfile htfile => ?_,
    fun a ha t ht hfile => ?_, hsnapshot f hf⟩
  · rw [LockArtifact.bytesDiffer_comm]
    exact hentry.file b hb a ha hpath.symm
  · exact (hentry.build b hb a ha hcoord.symm).symm
  · exact (hentry.pomBuild b hb a ha hgav.symm).symm
  · exact (hentry.pomSha256 b hb a ha hgav.symm).symm
  · exact (hentry.support t ht s hs hcoord.symm).imp Eq.symm Eq.symm
  · exact (hentry.supportFile t ht s hs file htfile hsfile).symm
  · exact eq_of_conflictingSupportCompanionPin hcompanion ht hfile
      (lookup_companionPomPins hfresh hf ha)

end Fresh

end Agreement

/-! ## What each platform read -/

def RepoIds.insertLine (ids : RepoIds) (line : Text × Text) : RepoIds :=
  ids.insert (line.1, ((ids.lookup line.1).getD .empty).insertNew line.2)

def readInputs (lock : Lockfile) (reads : List TargetReads) : AmbientSet :=
  (reads.flatMap fun read => read.hostInputs.entries).foldl Ordered.insertNew
    (lock.resolution.ambientInputs.filter (·.isPropertyName))

def readLines (reads : List TargetReads) : RepoIds :=
  (reads.flatMap fun read => repoIdLines read.repoIds).foldl RepoIds.insertLine .empty

def storeReads (ids : RepoIds) (inputs : AmbientSet) (entry : LockPlatform) (read : TargetReads) :
    LockPlatform :=
  { entry with
    repoIds := if read.repoIds != ids then some read.repoIds else none
    hostInputs := if read.hostInputs != hostInputs inputs then some read.hostInputs else none }

/-- The lock's lists become the union of what the platforms read, and a
platform that did not read all of it lists what it read. -/
def setTargetReads (lock : Lockfile) (reads : List TargetReads) : Except LockError Lockfile := do
  let ids := readLines reads
  let ambient := readInputs lock reads
  checkRepoIds ids
  return { lock with
    resolution := { lock.resolution with ambientInputs := ambient }
    platforms := (lock.platforms.zip reads).map fun (entry, read) =>
      storeReads ids ambient entry read
    repoIds := ids }

def takeReads : List LockPlatform → Table Platform TargetReads → List TargetReads
  | [], _ => []
  | entry :: rest, reads =>
    ((reads.lookup entry.platform).getD { repoIds := .empty, hostInputs := .empty }) ::
      takeReads rest (reads.erase entry.platform)

def carriedEntries (previous : Lockfile) (kept : List Platform) :
    List (LockPlatform × TargetReads) :=
  (previous.platforms.zip previous.targetReads).filter fun (entry, _) => kept.elem entry.platform

/-- What each entry read, by platform, a later entry in the place of an earlier
one. -/
def readsByPlatform (entries : List (LockPlatform × TargetReads)) : Table Platform TargetReads :=
  entries.foldl (fun table (entry, read) => table.insert entry.platform read) ∅

def carryForward (fresh previous : Lockfile) (kept : List Platform) : Except LockError Lockfile :=
  let carried := carriedEntries previous kept
  let platforms := sortBy (·.platform.display) (fresh.platforms ++ carried.map Prod.fst)
  let reads := readsByPlatform (fresh.platforms.zip fresh.targetReads ++ carried)
  setTargetReads { fresh with platforms } (takeReads platforms reads)

def IsRecordable (line : Text × Text) : Prop :=
  (line.1.isEmpty || !isRecordableRepoId line.1 || !isRecordableRepoId line.2) = false ∧
    (isProjectRelativeOrigin line.1 = true → isValidProjectRelativeOrigin line.1 = true)

/-- Every id of a map stands in a recordable line, and every origin does. -/
def RepoIds.Recordable (ids : RepoIds) : Prop :=
  ∀ entry ∈ ids.entries, (∃ id, IsRecordable (entry.1, id)) ∧
    ∀ id ∈ entry.2.entries, IsRecordable (entry.1, id)

variable {ids : RepoIds} {read : TargetReads} {line : Text × Text}
  {lock fresh previous : Lockfile}

theorem RepoIds.Recordable.insertLine (h : ids.Recordable) (hline : IsRecordable line) :
    (ids.insertLine line).Recordable := by
  intro entry hentry
  rcases Ordered.mem_insert.mp hentry with rfl | ⟨hentry, -⟩
  · refine ⟨⟨line.2, hline⟩, fun id hid => ?_⟩
    rcases Ordered.mem_insertNew.mp hid with hid | ⟨rfl, -⟩
    · cases hlookup : ids.lookup line.1 with
      | none => simp [hlookup, Ordered.empty] at hid
      | some set =>
        rw [hlookup, Option.getD_some] at hid
        exact (h _ (OrderedMap.lookup_eq_some_iff.mp hlookup)).2 id hid
    · exact hline
  · exact h entry hentry

theorem RepoIds.Recordable.foldl {lines : List (Text × Text)}
    (hlines : ∀ line ∈ lines, IsRecordable line) (h : ids.Recordable) :
    (lines.foldl RepoIds.insertLine ids).Recordable :=
  foldlRecOn lines _ h fun _ h line hline => h.insertLine (hlines line hline)

theorem RepoIds.Recordable.checkRepoIds (h : ids.Recordable) : Lock.checkRepoIds ids = .ok () := by
  refine checkRepoIds_eq_ok_iff.mpr ⟨fun line hline => ?_, fun entry hentry hrelative => ?_⟩
  · obtain ⟨set, hentry, hid⟩ := mem_repoIdLines.mp hline
    exact ((h _ hentry).2 line.2 hid).1
  · obtain ⟨id, hid⟩ := (h entry hentry).1
    exact hid.2 hrelative

theorem Validated.isRecordable (h : Validated lock) (hread : read ∈ lock.targetReads)
    (hline : line ∈ repoIdLines read.repoIds) : IsRecordable line := by
  have hmem := h.reads_subset hread hline
  obtain ⟨hlines, horigins⟩ := checkRepoIds_eq_ok_iff.mp h.repoIds
  obtain ⟨set, hentry, -⟩ := mem_repoIdLines.mp hmem
  exact ⟨hlines line hmem, horigins _ hentry⟩

theorem mem_takeReads {entries : List LockPlatform} {table : Table Platform TargetReads}
    (h : read ∈ takeReads entries table) :
    read = { repoIds := .empty, hostInputs := .empty } ∨ ∃ on, table.lookup on = some read := by
  induction entries generalizing table with
  | nil => cases h
  | cons entry rest ih =>
    rcases mem_cons.mp h with rfl | h
    · cases hlookup : table.lookup entry.platform with
      | none => exact .inl rfl
      | some read => exact .inr ⟨entry.platform, hlookup⟩
    · refine (ih h).imp id ?_
      rintro ⟨on, hon⟩
      rw [Table.lookup_erase_eq] at hon
      split at hon
      · cases hon
      · exact ⟨on, hon⟩

theorem mem_of_lookup_readsByPlatform {entries : List (LockPlatform × TargetReads)} {on : Platform}
    (h : (readsByPlatform entries).lookup on = some read) : ∃ entry, (entry, read) ∈ entries := by
  revert h
  refine foldlRecOn entries _ (motive := fun table : Table Platform TargetReads =>
    table.lookup on = some read → ∃ entry, (entry, read) ∈ entries) (by simp) ?_
  intro table ih pair hpair h
  rw [Table.lookup_insert_eq] at h
  split at h
  · cases h
    exact ⟨pair.1, hpair⟩
  · exact ih h

theorem exists_setTargetReads {reads : List TargetReads}
    (h : ∀ read ∈ reads, ∀ line ∈ repoIdLines read.repoIds, IsRecordable line) :
    ∃ lock', setTargetReads lock reads = .ok lock' ∧ ∀ p' ∈ lock'.platforms, ∃ p ∈ lock.platforms,
      p'.artifacts = p.artifacts ∧ p'.supportPoms = p.supportPoms := by
  have hids : RepoIds.Recordable (readLines reads) := by
    refine RepoIds.Recordable.foldl (fun line hline => ?_) (fun entry hentry => nomatch hentry)
    obtain ⟨read, hread, hline⟩ := mem_flatMap.mp hline
    exact h read hread line hline
  rw [setTargetReads, hids.checkRepoIds]
  refine ⟨_, rfl, fun p' hp' => ?_⟩
  obtain ⟨⟨p, read⟩, hp, rfl⟩ := mem_map.mp hp'
  exact ⟨p, (of_mem_zip hp).1, rfl, rfl⟩

theorem LockPlatform.Agrees.congr {p q p' q' : LockPlatform} (h : p.Agrees q)
    (hp : p'.artifacts = p.artifacts ∧ p'.supportPoms = p.supportPoms)
    (hq : q'.artifacts = q.artifacts ∧ q'.supportPoms = q.supportPoms) : p'.Agrees q' := by
  obtain ⟨hpa, hps⟩ := hp
  obtain ⟨hqa, hqs⟩ := hq
  constructor <;> simp only [hpa, hps, hqa, hqs]
  exacts [h.file, h.build, h.pomBuild, h.pomSha256, h.support, h.supportFile, h.companion,
    h.snapshotPom]

/-- The rows of the merged lock are those of the fresh one and of the
platforms that are kept. -/
theorem exists_carryForward (kept : List Platform) (hfresh : Validated fresh)
    (hprevious : Validated previous) :
    ∃ lock, carryForward fresh previous kept = .ok lock ∧ ∀ p' ∈ lock.platforms,
      ∃ p, (p ∈ fresh.platforms ∨ p ∈ previous.platforms ∧ p.platform ∈ kept) ∧
        p'.artifacts = p.artifacts ∧ p'.supportPoms = p.supportPoms := by
  have hreads : ∀ (platforms : List LockPlatform), ∀ read ∈ takeReads platforms
      (readsByPlatform (fresh.platforms.zip fresh.targetReads ++ carriedEntries previous kept)),
      ∀ line ∈ repoIdLines read.repoIds, IsRecordable line := by
    intro platforms read hread line hline
    rcases mem_takeReads hread with rfl | ⟨on, hon⟩
    · cases hline
    obtain ⟨entry, hentry⟩ := mem_of_lookup_readsByPlatform hon
    rcases mem_append.mp hentry with hentry | hentry
    · exact hfresh.isRecordable (of_mem_zip hentry).2 hline
    · exact hprevious.isRecordable (of_mem_zip (mem_filter.mp hentry).1).2 hline
  obtain ⟨lock, hlock, hrows⟩ := exists_setTargetReads (hreads _)
  refine ⟨lock, hlock, fun p' hp' => ?_⟩
  obtain ⟨p, hp, hrow⟩ := hrows p' hp'
  refine ⟨p, ?_, hrow⟩
  rw [mem_sortBy, mem_append] at hp
  refine hp.imp id fun hp => ?_
  obtain ⟨⟨q, read⟩, hq, rfl⟩ := mem_map.mp hp
  obtain ⟨hq, hkept⟩ := mem_filter.mp hq
  exact ⟨(of_mem_zip hq).1, by simpa using hkept⟩

theorem consistent_of_kept {configHash : Text} {kept : List Platform}
    (hfresh : Consistent fresh.platforms) (hprevious : Consistent previous.platforms)
    (hdistinct : (previous.platforms.map (·.platform)).Nodup)
    (hkept : ∀ on ∈ kept,
      { platform := on, dropped := none } ∈ preservation fresh previous configHash)
    {p q : LockPlatform} (hp : p ∈ fresh.platforms ∨ p ∈ previous.platforms ∧ p.platform ∈ kept)
    (hq : q ∈ fresh.platforms ∨ q ∈ previous.platforms ∧ q.platform ∈ kept) : p.Agrees q := by
  -- The entry that the verdict is on is the one of its platform.
  have hreason : ∀ e ∈ previous.platforms, e.platform ∈ kept →
      dropReason fresh previous configHash e = none := by
    intro e he hon
    obtain ⟨e', he', heq⟩ := mem_map.mp (hkept _ hon)
    obtain ⟨hplatform, hdropped⟩ := Candidate.mk.inj heq
    have := inj_on_of_nodup_map hdistinct (mem_filter.mp he').1 he hplatform
    rwa [this] at hdropped
  rcases hp with hp | ⟨hp, hpon⟩ <;> rcases hq with hq | ⟨hq, hqon⟩
  · exact hfresh p hp q hq
  · exact (agrees_of_dropReason hfresh hp (hprevious q hq q hq) (hreason q hq hqon)).2
  · exact (agrees_of_dropReason hfresh hq (hprevious p hp p hp) (hreason p hp hpon)).1
  · exact hprevious p hp q hq

/-- Carrying forward the platforms that `preservation` keeps succeeds, and
the merged lock passes the checks of its pins. -/
theorem carryForward_pins [Lowercase] [UrlParser] {fresh previous : Lockfile} {configHash : Text}
    {kept : List Platform} (hfresh : check fresh = .ok ()) (hprevious : check previous = .ok ())
    (hkept : ∀ on ∈ kept,
      { platform := on, dropped := none } ∈ preservation fresh previous configHash) :
    ∃ lock, carryForward fresh previous kept = .ok lock ∧
      checkCrossPlatformPins lock.platforms = .ok () ∧ checkPomPins lock.platforms = .ok () := by
  obtain ⟨lock, hlock, hrows⟩ := exists_carryForward kept (check_eq_ok hfresh).2
    (check_eq_ok hprevious).2
  have hagrees : Consistent lock.platforms := by
    intro p' hp' q' hq'
    obtain ⟨p, hp, hprow⟩ := hrows p' hp'
    obtain ⟨q, hq, hqrow⟩ := hrows q' hq'
    exact (consistent_of_kept (check_consistent hfresh) (check_consistent hprevious)
      (check_eq_ok hprevious).2.platforms hkept hp hq).congr hprow hqrow
  have hself : ∀ p ∈ lock.platforms, ∀ a ∈ p.artifacts, a.bytesDiffer a = false :=
    fun p hp a ha => (hagrees p hp p hp).file a ha a ha rfl
  exact ⟨lock, hlock, (pins_eq_ok_iff hself).mpr hagrees⟩

section Witness

local instance mergeLowercase : Lowercase := asciiLowercase

local instance mergeUrls : UrlParser := httpsParser

theorem carryForward_pins_demo :
    ∃ lock, carryForward (demoLock linux) (demoLock macos) [macos] = .ok lock ∧
    checkCrossPlatformPins lock.platforms = .ok () ∧ checkPomPins lock.platforms = .ok () :=
  carryForward_pins (by decide +kernel) (by decide +kernel)
    (show ∀ on ∈ [macos], (⟨on, none⟩ : Candidate) ∈
      preservation (demoLock linux) (demoLock macos) "c" by decide +kernel)

end Witness

end Raeva.Lock
