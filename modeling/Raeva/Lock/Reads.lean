import Raeva.Lock.RepoIdLines

/-!
# What each target read

A lockfile stores the union of what its platforms read, and a platform's own
lists only where they differ from it.  Setting the reads of all platforms and
reading them back gives the same reads, also after platforms were carried over
from another lockfile.
-/

namespace Raeva.Lock

open List

theorem isPropertyName_of_display_eq {a b : AmbientInput} (h : a.display = b.display) :
    a.isPropertyName = b.isPropertyName := by
  have hplain : ∀ {a : AmbientInput}, (¬∃ tested holds, a = .condition tested holds) →
      a.IsPlain := by
    intro a ha
    cases a with
    | condition tested holds => exact absurd ⟨tested, holds, rfl⟩ ha
    | _ => trivial
  by_cases ha : ∃ tested holds, a = .condition tested holds
  · obtain ⟨tested, holds, rfl⟩ := ha
    obtain ⟨tested', holds', rfl⟩ := AmbientInput.display_condition_ne h
    rfl
  · by_cases hb : ∃ tested holds, b = .condition tested holds
    · obtain ⟨tested, holds, rfl⟩ := hb
      exact absurd (AmbientInput.display_condition_ne h.symm) ha
    · rw [AmbientInput.display_inj (hplain ha) (hplain hb) h]

/-! ## The stored lists -/

section Stored

variable {lock lock' : Lockfile} {reads : List TargetReads}

theorem setTargetReads_eq_ok (h : setTargetReads lock reads = .ok lock') :
    lock'.repoIds = readLines reads ∧ lock'.resolution.ambientInputs = readInputs lock reads ∧
      lock'.platforms = (lock.platforms.zip reads).map fun pair =>
        storeReads (readLines reads) (readInputs lock reads) pair.1 pair.2 := by
  rw [setTargetReads, bind_unit_eq_ok_iff] at h
  obtain ⟨-, h⟩ := h
  cases h
  exact ⟨rfl, rfl, rfl⟩

theorem reads_storeReads (ids : RepoIds) (inputs : AmbientSet) (entry : LockPlatform)
    (read : TargetReads) : (storeReads ids inputs entry read).reads ids inputs = read := by
  obtain ⟨lines, host⟩ := read
  rw [LockPlatform.reads, storeReads]
  congr 1
  · by_cases hids : lines = ids
    · simp [hids]
    · simp [hids]
  · by_cases hinputs : host = hostInputs inputs
    · simp [hinputs]
    · simp [hinputs]

section Set

variable (hlength : reads.length = lock.platforms.length)
  (h : setTargetReads lock reads = .ok lock')
include hlength h

theorem targetReads_of_setTargetReads : lock'.targetReads = reads := by
  obtain ⟨hids, hinputs, hplatforms⟩ := setTargetReads_eq_ok h
  rw [Lockfile.targetReads, hids, hinputs, hplatforms, map_map]
  have hread : (fun pair : LockPlatform × TargetReads =>
      (storeReads (readLines reads) (readInputs lock reads) pair.1 pair.2).reads (readLines reads)
        (readInputs lock reads)) = Prod.snd := by
    funext pair
    exact reads_storeReads _ _ pair.1 pair.2
  calc (lock.platforms.zip reads).map _ = (lock.platforms.zip reads).map Prod.snd := by
        exact congrArg (fun f => (lock.platforms.zip reads).map f) hread
    _ = reads := map_snd_zip hlength.le

theorem map_platform_of_setTargetReads :
    lock'.platforms.map (·.platform) = lock.platforms.map (·.platform) := by
  obtain ⟨-, -, hplatforms⟩ := setTargetReads_eq_ok h
  rw [hplatforms, map_map]
  calc (lock.platforms.zip reads).map ((·.platform) ∘ fun pair => storeReads _ _ pair.1 pair.2)
      = ((lock.platforms.zip reads).map Prod.fst).map (·.platform) := by
        rw [map_map]
        rfl
    _ = lock.platforms.map (·.platform) := by rw [map_fst_zip hlength.ge]

end Set

theorem mem_readLines {line : Text × Text} :
    line ∈ repoIdLines (readLines reads) ↔ ∃ read ∈ reads, line ∈ repoIdLines read.repoIds := by
  rw [readLines, mem_repoIdLines_foldl, mem_flatMap]
  exact or_iff_left fun hmem => by cases hmem

theorem mem_readInputs {input : AmbientInput} (hinput : input ∈ (readInputs lock reads).entries)
    (hname : input.isPropertyName = false) :
    ∃ read ∈ reads, input ∈ read.hostInputs.entries := by
  rcases Ordered.mem_foldl_insertNew hinput with hmem | hmem
  · have hproperty := (mem_filter.mp hmem).2
    rw [hname] at hproperty
    cases hproperty
  · exact mem_flatMap.mp hmem

theorem contains_readInputs {read : TargetReads} (hread : read ∈ reads) {input : AmbientInput}
    (hinput : input ∈ read.hostInputs.entries) :
    (readInputs lock reads).contains input.display = true := by
  have hmem : input ∈ reads.flatMap fun read => read.hostInputs.entries :=
    mem_flatMap.mpr ⟨read, hread, hinput⟩
  exact Ordered.contains_iff.mpr (Ordered.exists_mem_foldl_insertNew (.inr hmem))

theorem checkReadUnions_of_setTargetReads (hlength : reads.length = lock.platforms.length)
    (h : setTargetReads lock reads = .ok lock') : checkReadUnions lock' = .ok () := by
  have htarget := targetReads_of_setTargetReads hlength h
  obtain ⟨hids, hinputs, -⟩ := setTargetReads_eq_ok h
  rw [checkReadUnions, htarget, hids, hinputs]
  split
  · rfl
  rw [bind_unit_eq_ok_iff, forM_eq_ok_iff, forM_eq_ok_iff]
  constructor
  · intro line hline
    obtain ⟨read, hread, hmem⟩ := mem_readLines.mp hline
    rw [refuseIf_eq_ok_iff, Bool.not_eq_false', any_eq_true]
    exact ⟨read, hread, elem_iff.mpr hmem⟩
  · intro input hinput
    obtain ⟨hinput, hname⟩ := mem_filter.mp hinput
    obtain ⟨read, hread, hmem⟩ := mem_readInputs hinput (by simpa using hname)
    rw [refuseIf_eq_ok_iff, Bool.not_eq_false', any_eq_true]
    exact ⟨read, hread, elem_iff.mpr hmem⟩

/-- The lists that are set pass the checks of a lockfile. -/
theorem checkTargetReads_of_setTargetReads
    (hhost : ∀ read ∈ reads, ∀ input ∈ read.hostInputs.entries, input.isPropertyName = false)
    (h : setTargetReads lock reads = .ok lock') :
    ∀ entry ∈ lock'.platforms, checkTargetReads lock' entry = .ok () := by
  obtain ⟨hids, hinputs, hplatforms⟩ := setTargetReads_eq_ok h
  intro entry hentry
  rw [hplatforms] at hentry
  obtain ⟨⟨row, read⟩, hpair, rfl⟩ := mem_map.mp hentry
  have hread : read ∈ reads := (of_mem_zip hpair).2
  rw [checkTargetReads, bind_unit_eq_ok_iff, forM_eq_ok_iff, forM_eq_ok_iff, hids, hinputs]
  constructor
  · rintro ⟨origin, id⟩ hline
    have hline : (origin, id) ∈ repoIdLines read.repoIds := by
      simp only [storeReads] at hline
      split at hline
      · exact hline
      · cases hline
    obtain ⟨set, hset, hid⟩ := mem_repoIdLines.mp (mem_readLines.mpr ⟨read, hread, hline⟩)
    rw [refuseIf_eq_ok_iff, Bool.not_eq_false', Option.any_eq_true]
    exact ⟨set, OrderedMap.lookup_eq_some_iff.mpr hset, Ordered.contains_iff.mpr ⟨id, hid, rfl⟩⟩
  · intro input hinput
    have hinput : input ∈ read.hostInputs.entries := by
      simp only [storeReads] at hinput
      split at hinput
      · exact hinput
      · cases hinput
    rw [refuseIf_eq_ok_iff, hhost read hread input hinput, contains_readInputs hread hinput]
    rfl

end Stored

/-! ## Setting and reading back -/

/-- A set of inputs that holds those of other sets, inputs of one text being one,
and no others. -/
structure IsUnion (all : AmbientSet) (parts : List AmbientSet) : Prop where
  mem : ∀ input ∈ all.entries, ∃ part ∈ parts, input ∈ part.entries
  contains : ∀ part ∈ parts, ∀ input ∈ part.entries, all.contains input.display = true

/-- The lists of the lockfile are the union of what is read back for its platforms. -/
theorem isUnion_of_setTargetReads {lock lock' : Lockfile} {reads : List TargetReads}
    (hlength : reads.length = lock.platforms.length) (h : setTargetReads lock reads = .ok lock') :
    lock'.repoIds.Named ∧ (∀ line, line ∈ repoIdLines lock'.repoIds ↔
        ∃ read ∈ lock'.targetReads, line ∈ repoIdLines read.repoIds) ∧
      IsUnion (hostInputs lock'.resolution.ambientInputs)
        (lock'.targetReads.map fun read => hostInputs read.hostInputs) := by
  rw [targetReads_of_setTargetReads hlength h]
  obtain ⟨hids, hinputs, -⟩ := setTargetReads_eq_ok h
  refine ⟨?_, ?_, ⟨?_, ?_⟩⟩
  · rw [hids]
    exact RepoIds.named_of_lines
  · intro line
    rw [hids]
    exact mem_readLines
  · intro input hinput
    rw [hinputs] at hinput
    obtain ⟨hinput, hname⟩ := mem_filter.mp hinput
    obtain ⟨read, hread, hmem⟩ := mem_readInputs hinput (by simpa using hname)
    exact ⟨_, mem_map_of_mem hread, mem_filter.mpr ⟨hmem, hname⟩⟩
  · intro part hpart input hinput
    obtain ⟨read, hread, rfl⟩ := mem_map.mp hpart
    obtain ⟨hinput, hname⟩ := mem_filter.mp hinput
    have hcontains : (readInputs lock reads).contains input.display = true :=
      contains_readInputs hread hinput
    obtain ⟨found, hfound, hdisplay⟩ := Ordered.contains_iff.mp hcontains
    rw [hinputs]
    refine Ordered.contains_iff.mpr ⟨found, mem_filter.mpr ⟨hfound, ?_⟩, hdisplay⟩
    rw [isPropertyName_of_display_eq hdisplay]
    exact hname

theorem hostInputs_eq_self {inputs : AmbientSet}
    (h : ∀ input ∈ inputs.entries, input.isPropertyName = false) : hostInputs inputs = inputs := by
  apply Ordered.ext_mem
  intro input
  constructor
  · exact mem_of_mem_filter
  intro hinput
  refine mem_filter.mpr ⟨hinput, ?_⟩
  rw [h input hinput]
  rfl

/-- What was set is read back, and the lock's own lists are its union. -/
theorem setTargetReads_reads {lock lock' : Lockfile} {reads : List TargetReads}
    (hlength : reads.length = lock.platforms.length)
    (hhost : ∀ read ∈ reads, ∀ input ∈ read.hostInputs.entries, input.isPropertyName = false)
    (h : setTargetReads lock reads = .ok lock') :
    lock'.targetReads = reads ∧ (lock'.repoIds.Named ∧ ∀ line, line ∈ repoIdLines lock'.repoIds ↔
        ∃ read ∈ reads, line ∈ repoIdLines read.repoIds) ∧
      IsUnion (hostInputs lock'.resolution.ambientInputs) (reads.map (·.hostInputs)) ∧
      lock'.resolution.ambientInputs.filter (·.isPropertyName) =
        lock.resolution.ambientInputs.filter (·.isPropertyName) ∧
      checkReadUnions lock' = .ok () ∧
      ∀ entry ∈ lock'.platforms, checkTargetReads lock' entry = .ok () := by
  have htarget := targetReads_of_setTargetReads hlength h
  obtain ⟨hnamed, hlines, hunion⟩ := isUnion_of_setTargetReads hlength h
  have hparts : reads.map (fun read => hostInputs read.hostInputs) = reads.map (·.hostInputs) := by
    apply map_congr_left
    intro read hread
    exact hostInputs_eq_self (hhost read hread)
  rw [htarget] at hlines
  rw [htarget, hparts] at hunion
  refine ⟨htarget, ⟨hnamed, hlines⟩, hunion, ?_, checkReadUnions_of_setTargetReads hlength h,
    checkTargetReads_of_setTargetReads hhost h⟩
  apply Ordered.ext_mem
  intro input
  rw [(setTargetReads_eq_ok h).2.1]
  constructor
  · intro hinput
    obtain ⟨hinput, hname⟩ := mem_filter.mp hinput
    rcases Ordered.mem_foldl_insertNew hinput with hmem | hmem
    · exact hmem
    · obtain ⟨read, hread, hmem⟩ := mem_flatMap.mp hmem
      rw [hhost read hread input hmem] at hname
      cases hname
  · intro hinput
    exact mem_filter.mpr
      ⟨Ordered.mem_foldl_insertNew_of_mem hinput, (mem_filter.mp hinput).2⟩

section Witness

def sampleReads (origin spec : String) : TargetReads where
  repoIds := RepoIds.insertLine .empty (origin.toList, "central")
  hostInputs := Ordered.insertNew .empty (.condition (.jdk spec.toList) true)

def linuxAndMacos : Lockfile :=
  sampleLock [samplePlatform linux [] [], samplePlatform macos [] []]

def linuxAndMacosReads : List TargetReads :=
  [sampleReads "https://a.test/" "17", sampleReads "https://b.test/" "21"]

theorem setTargetReads_reads_sample :
    ∃ lock', setTargetReads linuxAndMacos linuxAndMacosReads = .ok lock' ∧
      lock'.targetReads = linuxAndMacosReads ∧ checkReadUnions lock' = .ok () := by
  have hok : (setTargetReads linuxAndMacos linuxAndMacosReads).isOk = true := by decide +kernel
  obtain ⟨lock', h⟩ := exists_of_isOk hok
  have hhost : ∀ read ∈ linuxAndMacosReads, ∀ input ∈ read.hostInputs.entries,
      input.isPropertyName = false := by decide +kernel
  obtain ⟨hreads, -, -, -, hunions, -⟩ := setTargetReads_reads rfl hhost h
  exact ⟨lock', h, hreads, hunions⟩

end Witness

/-! ## Carrying platforms over -/

def Lockfile.platformReads (lock : Lockfile) : List (Platform × TargetReads) :=
  (lock.platforms.map (·.platform)).zip lock.targetReads

/-- The platforms that a lock holds once those of `previous` named in `kept` are
carried into `fresh`. -/
def carriedReads (fresh previous : Lockfile) (kept : List Platform) :
    List (Platform × TargetReads) :=
  fresh.platformReads ++ previous.platformReads.filter fun read => kept.elem read.1

theorem length_targetReads (lock : Lockfile) : lock.targetReads.length = lock.platforms.length := by
  rw [Lockfile.targetReads, length_map]

theorem platformReads_eq (lock : Lockfile) :
    lock.platformReads =
      (lock.platforms.zip lock.targetReads).map fun entry => (entry.1.platform, entry.2) := by
  rw [Lockfile.platformReads, zip_map_left]
  rfl

theorem carriedReads_eq (fresh previous : Lockfile) (kept : List Platform) :
    carriedReads fresh previous kept =
      (fresh.platforms.zip fresh.targetReads ++ carriedEntries previous kept).map
        fun entry => (entry.1.platform, entry.2) := by
  rw [carriedReads, platformReads_eq, platformReads_eq, map_append, filter_map]
  rfl

theorem lookup_readsByPlatform {entries : List (LockPlatform × TargetReads)}
    (hdistinct : (entries.map (·.1.platform)).Nodup) {entry : LockPlatform × TargetReads}
    (hentry : entry ∈ entries) :
    (readsByPlatform entries).lookup entry.1.platform = some entry.2 := by
  have hfold : ∀ (l : List (LockPlatform × TargetReads)) (table : Table Platform TargetReads),
      (l.map (·.1.platform)).Nodup → entry ∈ l ∨
        table.lookup entry.1.platform = some entry.2 ∧ entry.1.platform ∉ l.map (·.1.platform) →
      (l.foldl (fun table pair => table.insert pair.1.platform pair.2) table).lookup
        entry.1.platform = some entry.2 := by
    intro l
    induction l with
    | nil =>
      rintro table - (hmem | ⟨hlookup, -⟩)
      · cases hmem
      · exact hlookup
    | cons pair l ih =>
      intro table hl hmem
      rw [map_cons, nodup_cons] at hl
      apply ih _ hl.2
      rcases hmem with hmem | ⟨hlookup, hnot⟩
      · rcases mem_cons.mp hmem with rfl | hmem
        · exact .inr ⟨by rw [Table.lookup_insert_eq, if_pos rfl], hl.1⟩
        · exact .inl hmem
      · rw [map_cons, mem_cons, not_or] at hnot
        exact .inr ⟨by rw [Table.lookup_insert_eq, if_neg hnot.1, hlookup], hnot.2⟩
  exact hfold entries ∅ hdistinct (.inl hentry)

/-- Where every platform stands once, taking the reads out of the table is reading
it. -/
theorem takeReads_eq {entries : List LockPlatform} {table : Table Platform TargetReads}
    (hdistinct : (entries.map (·.platform)).Nodup) :
    takeReads entries table = entries.map fun entry =>
      (table.lookup entry.platform).getD { repoIds := .empty, hostInputs := .empty } := by
  induction entries generalizing table with
  | nil => rfl
  | cons entry rest ih =>
    rw [map_cons, nodup_cons] at hdistinct
    rw [takeReads, map_cons, ih hdistinct.2]
    congr 1
    apply map_congr_left
    intro other hother
    have hne : other.platform ≠ entry.platform := by
      intro heq
      exact hdistinct.1 (heq ▸ mem_map_of_mem hother)
    rw [Table.lookup_erase_eq, if_neg hne]

theorem length_takeReads (entries : List LockPlatform) (table : Table Platform TargetReads) :
    (takeReads entries table).length = entries.length := by
  induction entries generalizing table with
  | nil => rfl
  | cons entry rest ih => rw [takeReads, length_cons, length_cons, ih]

/-- Carrying platforms over keeps what each of them read. -/
theorem carryForward_reads {fresh previous lock : Lockfile} {kept : List Platform}
    (hdistinct : ((carriedReads fresh previous kept).map Prod.fst).Nodup)
    (h : carryForward fresh previous kept = .ok lock) :
    lock.platformReads.Perm (carriedReads fresh previous kept) ∧ lock.repoIds.Named ∧
      (∀ line, line ∈ repoIdLines lock.repoIds ↔
        ∃ read ∈ lock.targetReads, line ∈ repoIdLines read.repoIds) ∧
      IsUnion (hostInputs lock.resolution.ambientInputs)
        (lock.targetReads.map fun read => hostInputs read.hostInputs) := by
  rw [carryForward] at h
  have hunion := isUnion_of_setTargetReads (length_takeReads _ _) h
  refine ⟨?_, hunion⟩
  have hreads := targetReads_of_setTargetReads (length_takeReads _ _) h
  have hplatforms := map_platform_of_setTargetReads (length_takeReads _ _) h
  set entries := fresh.platforms.zip fresh.targetReads ++ carriedEntries previous kept
  rw [carriedReads_eq, map_map] at hdistinct
  have hrows : fresh.platforms ++ (carriedEntries previous kept).map Prod.fst =
      entries.map Prod.fst := by
    rw [map_append, map_fst_zip (length_targetReads fresh).ge]
  rw [hrows] at hreads hplatforms
  have hsorted : (sortBy (·.platform.display) (entries.map Prod.fst)).Perm (entries.map Prod.fst) :=
    sortBy_perm _ _
  have hnodup : ((sortBy (·.platform.display) (entries.map Prod.fst)).map (·.platform)).Nodup := by
    rw [(hsorted.map _).nodup_iff, map_map]
    exact hdistinct
  rw [takeReads_eq hnodup] at hreads
  rw [Lockfile.platformReads, hreads, hplatforms, zip_map', carriedReads_eq]
  refine (hsorted.map _).trans (List.Perm.of_eq ?_)
  rw [map_map]
  apply map_congr_left
  intro entry hentry
  have hlookup := lookup_readsByPlatform hdistinct hentry
  change (entry.1.platform, ((readsByPlatform entries).lookup entry.1.platform).getD _) = _
  rw [hlookup]
  rfl

section Witness

def lockReading (on : Platform) (read : TargetReads) : Lockfile :=
  { sampleLock [samplePlatform on [] []] with
    resolution := ⟨read.hostInputs, .empty⟩
    repoIds := read.repoIds }

theorem carryForward_reads_sample :
    ∃ lock, carryForward (lockReading macos (sampleReads "https://a.test/" "17"))
        (lockReading linux (sampleReads "https://b.test/" "21")) [linux] = .ok lock ∧
      lock.platformReads.Perm (carriedReads (lockReading macos (sampleReads "https://a.test/" "17"))
        (lockReading linux (sampleReads "https://b.test/" "21")) [linux]) := by
  have hok : (carryForward (lockReading macos (sampleReads "https://a.test/" "17"))
      (lockReading linux (sampleReads "https://b.test/" "21")) [linux]).isOk = true := by
    decide +kernel
  obtain ⟨lock, h⟩ := exists_of_isOk hok
  exact ⟨lock, h, (carryForward_reads (by decide +kernel) h).1⟩

/-- A platform of both locks takes the reads of the previous one, and stands in the
result a second time with none. -/
theorem carryForward_twice :
    (lockReading linux (sampleReads "https://a.test/" "17")).platformReads =
        [(linux, sampleReads "https://a.test/" "17")] ∧
      (carryForward (lockReading linux (sampleReads "https://a.test/" "17"))
        (lockReading linux (sampleReads "https://b.test/" "21")) [linux]).toOption.map
          (·.platformReads) =
        some [(linux, sampleReads "https://b.test/" "21"), (linux, ⟨.empty, .empty⟩)] ∧
      sampleReads "https://a.test/" "17" ≠ sampleReads "https://b.test/" "21" := by
  decide +kernel

end Witness

end Raeva.Lock
