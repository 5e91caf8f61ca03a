import Raeva.Lock.Lines

/-!
# Graph digests

The digest of each module's graph on one platform, `graph_digests` of
`rv-lock/src/inputs.rs`.  What is fed to the hash can be read back, so equal
digests mean equal graphs.
-/

namespace Raeva.Lock

open List

/-! ## What is fed to the hash -/

def namesPreimage (names : AmbientSet) : List UInt8 :=
  counted le64 hashStr (names.entries.map AmbientInput.display)

def readsPreimage [ContentHash] (reads : TargetReads) : List UInt8 :=
  hashStr "repo_ids" ++
    counted le64 (fun (origin, ids) => hashStr origin ++ counted le64 hashStr ids.entries)
      reads.repoIds.entries ++
    hashStr "host_inputs" ++
    hashStr (ContentHash.sha256 (namesPreimage reads.hostInputs)).hex

def reactorModules (platform : LockPlatform) : OrderedMap Text Text :=
  .ofList (platform.modules.map fun module => (module.path, module.gav.display))

def reactorTexts (platform : LockPlatform) : List Text :=
  (reactorModules platform).entries.flatMap fun (path, gav) => [path, gav]

def reactorPreimage (platform : LockPlatform) : List UInt8 :=
  (reactorTexts platform).flatMap hashStr

def pomPin (platform : LockPlatform) (coordinate : ArtifactCoord) : Option Sha256 :=
  (lookupLast (·.coordinate) platform.artifacts coordinate).bind (·.pomSha256)

def LockModulePackage.isExternal (package : LockModulePackage) : Bool :=
  package.workspaceModule.isNone && package.systemSha256.isNone

def canonicalRow (module : LockModule) : LockModule :=
  if isCanonicalModule module then module else canonicalizeModule module

def hexOrEmpty (digest : Option Sha256) : Text :=
  (digest.map Hex.hex).getD []

section Fed

variable [ContentHash] (platform : LockPlatform) (inputs : ModelInputs) (configHash : Option Text)
  (reads : TargetReads)

def graphTexts (module : LockModule) : List Text :=
  let row := canonicalRow module
  ["graph".toList, configHash.getD [], hexOrEmpty (inputs.pomHashes.lookup row.path),
      (ContentHash.sha256 (reactorPreimage platform)).hex, row.packaging, encodePackages row,
      encodeEdges row] ++
    (row.parentRanges.flatMap (fun range => [range.model, range.parent, range.selected]) ++
      row.supportPoms.flatMap fun coord =>
        [coord, hexOrEmpty ((platform.supportPoms.lookup coord).map (·.sha256))]) ++
    ["ambient_inputs".toList, (ContentHash.sha256 (namesPreimage inputs.ambientInputs)).hex,
      (ContentHash.sha256 (namesPreimage
        ((inputs.moduleAmbientInputs.lookup row.path).getD .empty))).hex,
      (ContentHash.sha256 (readsPreimage reads)).hex] ++
    (row.packages.filter (·.isExternal)).map fun package =>
      hexOrEmpty (pomPin platform package.coordinate)

def graphPreimage (module : LockModule) : List UInt8 :=
  (graphTexts platform inputs configHash reads module).flatMap hashStr

def graphDigests : OrderedMap Text Sha256 :=
  .ofList (platform.modules.map fun module =>
    (module.path, ContentHash.sha256 (graphPreimage platform inputs configHash reads module)))

def fedBytes : List (List UInt8) :=
  namesPreimage inputs.ambientInputs :: namesPreimage reads.hostInputs :: readsPreimage reads ::
    reactorPreimage platform ::
    (platform.modules.map fun module => namesPreimage
      ((inputs.moduleAmbientInputs.lookup module.path).getD .empty)) ++
    platform.modules.map (graphPreimage platform inputs configHash reads)

def FedInMemory : Prop :=
  (∀ text ∈ reactorTexts platform, InMemory text) ∧
    ∀ module ∈ platform.modules, ∀ text ∈ graphTexts platform inputs configHash reads module,
      InMemory text

instance : Decidable (FedInMemory platform inputs configHash reads) :=
  inferInstanceAs (Decidable (_ ∧ _))

end Fed

/-! ## Platforms with one graph -/

def canonicalModules (platform : LockPlatform) : List LockModule :=
  (sortBy LockModule.path platform.modules).map canonicalizeModule

/-- Two platforms with the same graphs, the same bytes of each support POM that a
module read, and the same companion POMs. -/
structure SameGraphs (p q : LockPlatform) : Prop where
  modules : canonicalModules p = canonicalModules q
  supportPoms : ∀ module ∈ p.modules, ∀ coord ∈ module.supportPoms,
    (p.supportPoms.lookup coord).map (·.sha256) = (q.supportPoms.lookup coord).map (·.sha256)
  pomPins : ∀ module ∈ p.modules, ∀ package ∈ module.packages, package.isExternal = true →
    pomPin p package.coordinate = pomPin q package.coordinate

/-- Two platforms with the same bytes of the support POMs that a module read, and the same
companion POMs of its packages. -/
structure SameReads (p q : LockPlatform) (module : LockModule) : Prop where
  supportPoms : ∀ coord ∈ module.supportPoms,
    (p.supportPoms.lookup coord).map (·.sha256) = (q.supportPoms.lookup coord).map (·.sha256)
  pomPins : ∀ package ∈ module.packages, package.isExternal = true →
    pomPin p package.coordinate = pomPin q package.coordinate

structure CheckedModule (module : LockModule) : Prop where
  group : ':' ∉ module.gav.group
  artifact : ':' ∉ module.gav.artifact
  packages : ∀ package ∈ module.packages, package.Writable
  parentRanges : ∀ range ∈ module.parentRanges, ':' ∈ range.parent
  indexed : module.Indexed

variable {p q : LockPlatform} {i j : ModelInputs} {c d : Option Text} {r s : TargetReads}
  {m : LockModule}

theorem canonicalRow_eq (module : LockModule) :
    canonicalRow module = canonicalizeModule module := by
  rw [canonicalRow]
  split
  · rename_i h
    exact (canonicalizeModule_eq_self h).symm
  · rfl

theorem canonicalModules_eq (hp : (p.modules.map (·.path)).Nodup)
    (hq : (q.modules.map (·.path)).Nodup)
    (h : ∀ module, module ∈ p.modules.map canonicalizeModule ↔
      module ∈ q.modules.map canonicalizeModule) : canonicalModules p = canonicalModules q := by
  have hpath : ∀ l : List LockModule,
      (l.map canonicalizeModule).map LockModule.path = l.map LockModule.path := by
    intro l
    rw [map_map]
    rfl
  have hnodup : ∀ l : List LockModule, (l.map LockModule.path).Nodup →
      (l.map canonicalizeModule).Nodup := by
    intro l hl
    rw [← hpath] at hl
    exact hl.of_map _
  have hperm : (p.modules.map canonicalizeModule).Perm (q.modules.map canonicalizeModule) :=
    (perm_ext_iff_of_nodup (hnodup _ hp) (hnodup _ hq)).mpr h
  have hsorted : ∀ platform : LockPlatform,
      (canonicalModules platform).Perm (platform.modules.map canonicalizeModule) ∧
        (canonicalModules platform).Pairwise (·.path ≤ ·.path) := fun platform =>
    ⟨(sortBy_perm _ _).map _, pairwise_map.mpr (sortBy_sorted LockModule.path _)⟩
  refine eq_of_perm_of_sorted (((hsorted p).1.trans hperm).trans (hsorted q).1.symm) ?_
    (hsorted p).2 (hsorted q).2
  rw [← hpath] at hp
  intro a ha b hb
  exact inj_on_of_nodup_map hp ((hsorted p).1.mem_iff.mp ha) ((hsorted p).1.mem_iff.mp hb)

/-! ## Reading the texts back -/

def readTexts : ParentRange ⊕ (Text × Text) → List Text
  | .inl range => [range.model, range.parent, range.selected]
  | .inr (coord, digest) => [coord, digest]

/-- The second text tells the two apart: a range has parts, a digest has
none. -/
theorem readTexts_selfDelimiting :
    SelfDelimiting (fun read : ParentRange ⊕ (Text × Text) =>
      read.elim (':' ∈ ·.parent) (':' ∉ ·.2)) readTexts := by
  rintro (⟨m, p, s⟩ | ⟨c, d⟩) (⟨m', p', s'⟩ | ⟨c', d'⟩) ha hb rest rest' h
  · simpa [readTexts, and_assoc] using h
  · obtain ⟨-, rfl, -⟩ : m = c' ∧ p = d' ∧ s :: rest = rest' := by simpa [readTexts] using h
    exact absurd ha hb
  · obtain ⟨-, rfl, -⟩ : c = m' ∧ d = p' ∧ rest = s' :: rest' := by simpa [readTexts] using h
    exact absurd hb ha
  · simpa [readTexts, and_assoc] using h

theorem inl_append_inr_inj {α β : Type} {l l' : List α} {k k' : List β}
    (h : l.map (Sum.inl (β := β)) ++ k.map Sum.inr = l'.map Sum.inl ++ k'.map Sum.inr) :
    l = l' ∧ k = k' := by
  have hleft := congrArg (List.filterMap Sum.getLeft?) h
  have hright := congrArg (List.filterMap Sum.getRight?) h
  simp only [filterMap_append, filterMap_map, Function.comp_def, Sum.getLeft?_inl,
    Sum.getLeft?_inr, Sum.getRight?_inl, Sum.getRight?_inr, filterMap_some,
    filterMap_none, append_nil, nil_append] at hleft hright
  exact ⟨hleft, hright⟩

theorem hexOrEmpty_injective : Function.Injective hexOrEmpty := by
  intro a b h
  refine map_getD_nil_inj (fun _ _ => Hex.ext) (fun digest hnil => ?_) h
  have := digest.valid.1
  rw [hnil] at this
  cases this

theorem colon_notMem_hexOrEmpty (digest : Option Sha256) : ':' ∉ hexOrEmpty digest := by
  cases digest with
  | none => exact not_mem_nil
  | some digest =>
    intro hmem
    exact absurd (Hex.isLowerHexDigit_of_mem hmem) (by decide)

theorem mem_canonicalizeModule_packages {module : LockModule} {package : LockModulePackage} :
    package ∈ (canonicalizeModule module).packages ↔ package ∈ module.packages := by
  rw [canonicalizeModule_packages, mem_sortBy]

/-- The selections and support POMs of a row as the digest covers them. -/
def rowReads (platform : LockPlatform) (row : LockModule) : List (ParentRange ⊕ (Text × Text)) :=
  row.parentRanges.map .inl ++ (row.supportPoms.map fun coord =>
    (coord, hexOrEmpty ((platform.supportPoms.lookup coord).map (·.sha256)))).map .inr

theorem graphTexts_eq [ContentHash] (platform : LockPlatform) (inputs : ModelInputs)
    (configHash : Option Text) (reads : TargetReads) (module : LockModule) :
    ∃ recorded names moduleNames, graphTexts platform inputs configHash reads module =
      ["graph".toList, configHash.getD [], recorded,
          (ContentHash.sha256 (reactorPreimage platform)).hex, module.packaging,
          encodePackages (canonicalizeModule module), encodeEdges (canonicalizeModule module)] ++
        (rowReads platform (canonicalizeModule module)).flatMap readTexts ++
        ["ambient_inputs".toList, names, moduleNames,
          (ContentHash.sha256 (readsPreimage reads)).hex] ++
        ((canonicalizeModule module).packages.filter (·.isExternal)).map fun package =>
          hexOrEmpty (pomPin platform package.coordinate) := by
  have hreads : (rowReads platform (canonicalizeModule module)).flatMap readTexts =
      (canonicalizeModule module).parentRanges.flatMap
          (fun range => [range.model, range.parent, range.selected]) ++
        (canonicalizeModule module).supportPoms.flatMap fun coord =>
          [coord, hexOrEmpty ((platform.supportPoms.lookup coord).map (·.sha256))] := by
    simp only [rowReads, flatMap_append, flatMap_map]
    rfl
  rw [hreads, ← canonicalRow_eq]
  have hpackaging : module.packaging = (canonicalRow module).packaging := by
    rw [canonicalRow_eq]
    rfl
  rw [hpackaging]
  exact ⟨_, _, _, rfl⟩

/-- The texts fed for a module tell its graph, but for its path and GAV, and what it read. -/
theorem graphTexts_inj [ContentHash] {n : LockModule} (hm : CheckedModule m) (hn : CheckedModule n)
    (h : graphTexts p i c r m = graphTexts q j d s n) :
    ContentHash.sha256 (reactorPreimage p) = ContentHash.sha256 (reactorPreimage q) ∧
      (m.path = n.path → m.gav = n.gav → canonicalizeModule m = canonicalizeModule n) ∧
      SameReads p q m := by
  obtain ⟨_, _, _, hleft⟩ := graphTexts_eq p i c r m
  obtain ⟨_, _, _, hright⟩ := graphTexts_eq q j d s n
  rw [hleft, hright] at h
  have hparts := h
  rw [append_assoc, append_assoc, append_assoc, append_assoc] at hparts
  obtain ⟨hhead, -⟩ := append_inj hparts rfl
  simp only [List.cons.injEq, true_and, and_true] at hhead
  obtain ⟨-, -, hreactor, hpackaging, hpackages, hedges⟩ := hhead
  have hwritable : ∀ k : LockModule, CheckedModule k →
      ∀ package ∈ (canonicalizeModule k).packages, package.Writable :=
    fun k hk package hpackage => hk.packages package (mem_canonicalizeModule_packages.mp hpackage)
  have hpackages := encodePackages_inj (hwritable m hm) (hwritable n hn) hpackages
  have hedges := encodeEdges_inj hedges
  -- The packages are known, and with them how many pins follow.
  obtain ⟨h, hpins⟩ := append_inj' h (by rw [hpackages, length_map, length_map])
  obtain ⟨h, -⟩ := append_inj' h rfl
  obtain ⟨-, hreads⟩ := append_inj h rfl
  have htold : ∀ (platform : LockPlatform) (k : LockModule), CheckedModule k →
      ∀ read ∈ rowReads platform (canonicalizeModule k),
        read.elim (':' ∈ ·.parent) (':' ∉ ·.2) := by
    intro platform k hk read hread
    rcases mem_append.mp hread with hread | hread
    · obtain ⟨range, hrange, rfl⟩ := mem_map.mp hread
      exact hk.parentRanges range ((mem_sortBy _).mp hrange)
    · simp only [mem_map, exists_exists_and_eq_and] at hread
      obtain ⟨coord, -, rfl⟩ := hread
      exact colon_notMem_hexOrEmpty _
  have hne : ∀ read : ParentRange ⊕ (Text × Text), readTexts read ≠ [] := by
    rintro (_ | _) <;> exact cons_ne_nil _ _
  have hreads := readTexts_selfDelimiting.flatMap_inj (fun read _ => hne read) (htold p m hm)
    (htold q n hn) hreads
  obtain ⟨hranges, hpoms⟩ := inl_append_inr_inj hreads
  have hcoords : (canonicalizeModule m).supportPoms = (canonicalizeModule n).supportPoms := by
    simpa [Function.comp_def] using congrArg (List.map Prod.fst) hpoms
  refine ⟨Hex.ext hreactor, fun hpath hgav => ?_, fun coord hcoord => ?_,
    fun package hpackage hexternal => ?_⟩
  · exact LockModule.ext hpath hgav hpackaging hpackages hedges hranges hcoords
  · rw [hcoords] at hpoms
    have := map_inj_left.mp hpoms coord (hcoords ▸ mem_sortedValues.mpr hcoord)
    exact hexOrEmpty_injective (congrArg Prod.snd this)
  · rw [hpackages] at hpins
    have hmem : package ∈ (canonicalizeModule n).packages.filter (·.isExternal) := by
      rw [← hpackages]
      exact mem_filter.mpr ⟨mem_canonicalizeModule_packages.mpr hpackage, hexternal⟩
    exact hexOrEmpty_injective (map_inj_left.mp hpins package hmem)

/-! ## Checked platforms -/

theorem check_module [Lowercase] [UrlParser] {lock : Lockfile} (h : check lock = .ok ())
    (hp : p ∈ lock.platforms) (hm : m ∈ p.modules) : CheckedModule m := by
  have hfields := check_moduleFields h hp hm
  simp only [checkModuleFields, bind_unit_eq_ok_iff, forM_eq_ok_iff, checkField_eq_ok_iff]
    at hfields
  obtain ⟨-, hranges, hgroup, hartifact, -, -, hpackages⟩ := hfields
  obtain ⟨-, -, hmodules⟩ := validatePlatform_modules ((check_eq_ok h).2.entries p hp)
  obtain ⟨used, hused⟩ := hmodules m hm
  obtain ⟨hcoordinates, hedges, hrows, -⟩ := validateModule_eq_ok hused
  refine ⟨notMem_of_validateCoordinateComponent hgroup (.inr (by decide)),
    notMem_of_validateCoordinateComponent hartifact (.inr (by decide)), fun package hpackage => ?_,
    fun range hrange => ?_, hcoordinates.of_map _, hedges⟩
  · obtain ⟨used, hrow⟩ := hrows package hpackage
    exact writable_of_checked (hpackages package hpackage) hrow
  obtain ⟨before, after, hl⟩ := append_of_mem hrange
  obtain ⟨-, ⟨parts, hsplit⟩, -⟩ :=
    checkParentRange_eq_ok (checkEach_eq_ok_iff.mp hranges before range after hl)
  rw [eq_of_splitSupportPomCoord hsplit]
  simp

theorem mem_reactorModules (hp : (p.modules.map (·.path)).Nodup) {path gav : Text} :
    (path, gav) ∈ (reactorModules p).entries ↔
      ∃ m ∈ p.modules, m.path = path ∧ m.gav.display = gav := by
  rw [reactorModules, Ordered.mem_ofList (by simpa [Function.comp_def] using hp)]
  simp

theorem reactorTexts_inj (h : reactorTexts p = reactorTexts q) :
    (reactorModules p).entries = (reactorModules q).entries := by
  have hpair : SelfDelimiting (fun _ => True) fun entry : Text × Text => [entry.1, entry.2] :=
    .of_length (n := 2) (fun _ _ => rfl) fun a b _ _ hab => by
      simp only [List.cons.injEq, and_true] at hab
      exact Prod.ext hab.1 hab.2
  exact hpair.flatMap_inj (fun _ _ => cons_ne_nil _ _) (fun _ _ => trivial) (fun _ _ => trivial) h

theorem hashStr_flatMap_inj {a b : List Text} (ha : ∀ t ∈ a, InMemory t) (hb : ∀ t ∈ b, InMemory t)
    (h : a.flatMap hashStr = b.flatMap hashStr) : a = b := by
  refine hashStr_inMemory.flatMap_inj (fun t _ hnil => ?_) ha hb h
  have := congrArg List.length hnil
  simp [hashStr, framed, le64] at this

theorem exists_same_digest [ContentHash] (hp : (p.modules.map (·.path)).Nodup)
    (hq : (q.modules.map (·.path)).Nodup) (h : graphDigests p i c r = graphDigests q j d s)
    (hm : m ∈ p.modules) :
    ∃ n ∈ q.modules, n.path = m.path ∧ ContentHash.sha256 (graphPreimage p i c r m) =
      ContentHash.sha256 (graphPreimage q j d s n) := by
  have hmem : (m.path, ContentHash.sha256 (graphPreimage p i c r m)) ∈
      (graphDigests q j d s).entries := by
    rw [← h, graphDigests, Ordered.mem_ofList (by simpa [Function.comp_def] using hp)]
    exact mem_map_of_mem hm
  rw [graphDigests, Ordered.mem_ofList (by simpa [Function.comp_def] using hq)] at hmem
  obtain ⟨n, hn, heq⟩ := mem_map.mp hmem
  rw [Prod.mk.injEq] at heq
  exact ⟨n, hn, heq.1, heq.2.symm⟩

/-- Equal digests bind each module, up to the order of its rows, and what it read. -/
theorem exists_same_module [ContentHash] (hp : (p.modules.map (·.path)).Nodup)
    (hq : (q.modules.map (·.path)).Nodup) (hpc : ∀ m ∈ p.modules, CheckedModule m)
    (hqc : ∀ m ∈ q.modules, CheckedModule m) (hpm : FedInMemory p i c r) (hqm : FedInMemory q j d s)
    (hinj : ∀ x ∈ fedBytes p i c r, ∀ y ∈ fedBytes q j d s,
      ContentHash.sha256 x = ContentHash.sha256 y → x = y)
    (h : graphDigests p i c r = graphDigests q j d s) (hm : m ∈ p.modules) :
    ∃ n ∈ q.modules, canonicalizeModule m = canonicalizeModule n ∧ SameReads p q m := by
  obtain ⟨n, hn, hpath, hdigest⟩ := exists_same_digest hp hq h hm
  have hpreimage := hinj _ (mem_append_right _ (mem_map_of_mem hm)) _
    (mem_append_right _ (mem_map_of_mem hn)) hdigest
  have htexts := hashStr_flatMap_inj (hpm.2 m hm) (hqm.2 n hn) hpreimage
  obtain ⟨hreactor, hrow, hreads⟩ := graphTexts_inj (hpc m hm) (hqc n hn) htexts
  have hfed : reactorPreimage p = reactorPreimage q :=
    hinj (reactorPreimage p) (by simp [fedBytes]) (reactorPreimage q) (by simp [fedBytes]) hreactor
  have hmodules := reactorTexts_inj (hashStr_flatMap_inj hpm.1 hqm.1 hfed)
  have hgav : m.gav = n.gav := by
    have hmem : (m.path, m.gav.display) ∈ (reactorModules q).entries := by
      rw [← hmodules]
      exact (mem_reactorModules hp).mpr ⟨m, hm, rfl, rfl⟩
    obtain ⟨n', hn', hpath', hdisplay⟩ := (mem_reactorModules hq).mp hmem
    obtain rfl := inj_on_of_nodup_map hq hn' hn (hpath'.trans hpath.symm)
    exact gavDisplay_inj (hpc m hm).group (hpc m hm).artifact (hqc n' hn).group (hqc n' hn).artifact
      hdisplay.symm
  exact ⟨n, hn, hrow hpath.symm hgav, hreads⟩

/-- Equal graph digests mean equal graphs. -/
theorem graphDigests_bind [Lowercase] [UrlParser] [ContentHash] {lock lock' : Lockfile}
    (h : check lock = .ok ()) (h' : check lock' = .ok ()) {p q : LockPlatform}
    (hp : p ∈ lock.platforms) (hq : q ∈ lock'.platforms) {i j : ModelInputs} {c d : Option Text}
    {r s : TargetReads} (hpm : FedInMemory p i c r) (hqm : FedInMemory q j d s)
    (hinj : ∀ x ∈ fedBytes p i c r, ∀ y ∈ fedBytes q j d s,
      ContentHash.sha256 x = ContentHash.sha256 y → x = y)
    (hdigests : graphDigests p i c r = graphDigests q j d s) : SameGraphs p q := by
  have hpaths := (validatePlatform_modules ((check_eq_ok h).2.entries p hp)).1
  have hpaths' := (validatePlatform_modules ((check_eq_ok h').2.entries q hq)).1
  have hforth : ∀ {m}, m ∈ p.modules → _ := exists_same_module hpaths hpaths'
    (fun m => check_module h hp) (fun m => check_module h' hq) hpm hqm hinj hdigests
  have hback : ∀ {m}, m ∈ q.modules → _ := exists_same_module hpaths' hpaths
    (fun m => check_module h' hq) (fun m => check_module h hp) hqm hpm
    (fun x hx y hy hxy => (hinj y hy x hx hxy.symm).symm) hdigests.symm
  refine ⟨canonicalModules_eq hpaths hpaths' fun row => ⟨fun hrow => ?_, fun hrow => ?_⟩,
    fun m hm => ?_, fun m hm => ?_⟩
  · obtain ⟨m, hm, rfl⟩ := mem_map.mp hrow
    obtain ⟨n, hn, hsame, -⟩ := hforth hm
    exact mem_map.mpr ⟨n, hn, hsame.symm⟩
  · obtain ⟨n, hn, rfl⟩ := mem_map.mp hrow
    obtain ⟨m, hm, hsame, -⟩ := hback hn
    exact mem_map.mpr ⟨m, hm, hsame.symm⟩
  · obtain ⟨-, -, -, hreads⟩ := hforth hm
    exact hreads.supportPoms
  · obtain ⟨-, -, -, hreads⟩ := hforth hm
    exact hreads.pomPins

section Witness

local instance graphDigestsLowercase : Lowercase := asciiLowercase
local instance graphDigestsUrls : UrlParser := httpsParser

def hexDigits : ℕ → ℕ → Text
  | 0, _ => []
  | k + 1, n => Nat.digitChar (n % 16) :: hexDigits k (n / 16)

@[reducible] def sampleHash : ContentHash where
  sha256 bytes :=
    let digits := hexDigits 64 (bytes.foldl (fun n b => n * 257 + b.toNat + 1) 0)
    if h : digits.length = 64 ∧ digits.all isLowerHexDigit = true then ⟨digits, h⟩
    else hexOf 64 '0' rfl

/-- A module with a dependency of a dependency, its packages in a given order. -/
def graphPlatform (packages : List Gav) (edge : LockEdge) (checksum : Sha256) : LockPlatform :=
  samplePlatform linux
    (packages.map fun gav => { sampleArtifact gav with checksums := [.sha256 checksum] })
    [{ sampleModule "pom.xml" (sampleGav "app" "1.0") (packages.map samplePackage) with
        edges := [edge] }]

def graphInputs : ModelInputs :=
  ⟨[], .empty, .empty, .empty, .empty⟩

def graphReads : TargetReads :=
  ⟨.empty, .empty⟩

def coreFirst : LockPlatform :=
  graphPlatform [sampleGav "core" "2.0", sampleGav "demo" "1.0"] ⟨1, 0, some .runtime, true⟩
    (hexOf 64 'a' isLowerHexDigit_replicate)

def demoFirst : LockPlatform :=
  graphPlatform [sampleGav "demo" "1.0", sampleGav "core" "2.0"] ⟨0, 1, some .runtime, true⟩
    (hexOf 64 'a' isLowerHexDigit_replicate)

theorem graphDigests_bind_renumbered : coreFirst ≠ demoFirst ∧ SameGraphs coreFirst demoFirst :=
  letI := sampleHash
  ⟨by decide +kernel,
    graphDigests_bind (by decide +kernel : check (sampleLock [coreFirst]) = .ok ())
      (by decide +kernel : check (sampleLock [demoFirst]) = .ok ())
      (mem_singleton_self _) (mem_singleton_self _)
      (by decide +kernel : FedInMemory coreFirst graphInputs none graphReads)
      (by decide +kernel : FedInMemory demoFirst graphInputs none graphReads)
      (by decide +kernel) (by decide +kernel)⟩

def otherFiles : LockPlatform :=
  graphPlatform [sampleGav "core" "2.0", sampleGav "demo" "1.0"] ⟨1, 0, some .runtime, true⟩
    (hexOf 64 'c' rfl)

theorem pomPin_graphPlatform (packages : List Gav) (edge : LockEdge) (a b : Sha256) :
    pomPin (graphPlatform packages edge a) = pomPin (graphPlatform packages edge b) := by
  funext coordinate
  have hrows : ∀ checksum, pomPin (graphPlatform packages edge checksum) coordinate =
      (packages.reverse.find? fun gav => (sampleArtifact gav).coordinate = coordinate).bind
        fun gav => (sampleArtifact gav).pomSha256 := by
    intro checksum
    simp only [pomPin, lookupLast, graphPlatform, samplePlatform, ← map_reverse,
      find?_map, Function.comp_def, Option.bind_map]
  rw [hrows, hrows]

/-- The digests bind no checksum of a file. -/
theorem graphDigests_otherFiles :
    check (sampleLock [coreFirst]) = .ok () ∧ check (sampleLock [otherFiles]) = .ok () ∧
      (∀ [ContentHash] (inputs : ModelInputs) (configHash : Option Text) (reads : TargetReads),
        graphDigests coreFirst inputs configHash reads =
          graphDigests otherFiles inputs configHash reads) ∧
      coreFirst.artifacts.map (·.checksums) ≠ otherFiles.artifacts.map (·.checksums) := by
  refine ⟨by decide +kernel, by decide +kernel, ?_, by decide +kernel⟩
  intro _ inputs configHash reads
  have htexts : ∀ module, graphTexts coreFirst inputs configHash reads module =
      graphTexts otherFiles inputs configHash reads module := by
    intro module
    have hpins : pomPin coreFirst = pomPin otherFiles := pomPin_graphPlatform _ _ _ _
    rw [graphTexts, hpins]
    rfl
  have hpreimages : graphPreimage coreFirst inputs configHash reads =
      graphPreimage otherFiles inputs configHash reads :=
    funext fun module => congrArg (List.flatMap hashStr) (htexts module)
  rw [graphDigests, hpreimages]
  rfl

end Witness

end Raeva.Lock
