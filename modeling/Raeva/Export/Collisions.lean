import Raeva.Export.Destinations

/-!
# Apart destinations

A plan gives each name of the volume at most one tenant: a directory, or the file
of one owner.  Every step of `plannedDestinations` keeps the tenants there are and
places its own files, so no two files of a plan meet.
-/

namespace Raeva.Export

open List

inductive Tenant where
  | directory
  | file (owner : Text)

def Tenant.of (owner : Text) (directory : Bool) : Tenant :=
  if directory then .directory else .file owner

def DestinationClaim.tenant (claim : DestinationClaim) : Tenant :=
  .of claim.owner claim.directory

namespace DestinationPaths

def tenants (paths : DestinationPaths) : List Tenant :=
  paths.claims.map DestinationClaim.tenant

def tenant (paths : DestinationPaths) (name : Text) : Option Tenant :=
  (paths.index.lookup name).bind (paths.tenants[·]?)

def Indexed (paths : DestinationPaths) : Prop :=
  ∀ name index, paths.index.lookup name = some index → index < paths.tenants.length

structure Grows (paths paths' : DestinationPaths) : Prop where
  foldsCase : paths'.foldsCase = paths.foldsCase
  indexed : paths'.Indexed
  tenant : ∀ {name t}, paths.tenant name = some t → paths'.tenant name = some t

variable {paths paths' : DestinationPaths} {path : Path} {owner : Text} {directory group : Bool}
  {claims claims' : List DestinationClaim} {index : ℕ}

theorem Grows.refl (h : paths.Indexed) : Grows paths paths :=
  ⟨rfl, h, id⟩

theorem Grows.trans {paths'' : DestinationPaths} (h : Grows paths paths')
    (h' : Grows paths' paths'') : Grows paths paths'' where
  foldsCase := h'.foldsCase.trans h.foldsCase
  indexed := h'.indexed
  tenant := fun ht => h'.tenant (h.tenant ht)

/-! ## One claim -/

theorem meetClaim_ok (h : meetClaim path owner directory group claims index = .ok claims') :
    claims'.map DestinationClaim.tenant = claims.map DestinationClaim.tenant ∧
      ∀ t, (claims.map DestinationClaim.tenant)[index]? = some t → t = .of owner directory := by
  rw [getElem?_map]
  rw [meetClaim] at h
  cases hfirst : claims[index]? with
  | none =>
    rw [hfirst] at h
    cases h
    exact ⟨rfl, fun t ht => by cases ht⟩
  | some first =>
    rw [hfirst] at h
    dsimp only at h
    simp only [Option.map_some, Option.some.injEq, forall_eq', DestinationClaim.tenant]
    split_ifs at h with hboth hpath hgroup hfile
    · cases h
      simp_all [Tenant.of]
    · cases h
      simp only [Bool.and_eq_true] at hboth
      refine ⟨?_, by simp [Tenant.of, hboth]⟩
      -- A directory that takes over a group's spelling is still a directory.
      obtain ⟨hlt, rfl⟩ := List.getElem?_eq_some_iff.mp hfirst
      rw [map_set]
      apply ext_getElem (by simp)
      intro i hi hi'
      by_cases heq : index = i
      · subst heq
        simp [DestinationClaim.tenant, Tenant.of, hboth]
      · rw [getElem_set_ne heq]
    · cases h
      simp_all [Tenant.of]

theorem foldlM_meetClaim_ok {found : List ℕ}
    (h : found.foldlM (meetClaim path owner directory group) claims = .ok claims') :
    claims'.map DestinationClaim.tenant = claims.map DestinationClaim.tenant ∧
      ∀ index ∈ found, ∀ t, (claims.map DestinationClaim.tenant)[index]? = some t →
        t = .of owner directory := by
  induction found generalizing claims with
  | nil =>
    cases h
    exact ⟨rfl, fun index hindex => by cases hindex⟩
  | cons index found ih =>
    rw [foldlM_cons] at h
    obtain ⟨met, hmet, hrest⟩ := bind_eq_ok h
    obtain ⟨hsame, htenant⟩ := meetClaim_ok hmet
    obtain ⟨hsame', htenant'⟩ := ih hrest
    refine ⟨hsame'.trans hsame, ?_⟩
    rw [forall_mem_cons]
    exact ⟨htenant, hsame ▸ htenant'⟩

variable [Lowercase] [Folding]

def Occupied (paths : DestinationPaths) (path : Path) (t : Tenant) : Prop :=
  ∀ name ∈ names paths.foldsCase path, paths.tenant name = some t

theorem Occupied.grow {t : Tenant} (h : paths.Occupied path t) (hgrows : Grows paths paths') :
    paths'.Occupied path t := by
  intro name hname
  rw [hgrows.foldsCase] at hname
  exact hgrows.tenant (h name hname)

theorem mem_matched :
    index ∈ paths.matched path ↔
      ∃ name ∈ names paths.foldsCase path, paths.index.lookup name = some index := by
  rw [matched, mem_dedup, mem_sortBy, mem_filterMap]

/-- What a claim does to the tenants: at most one is new, and the path's names that
are not in the index go to one of the path's own tenant. -/
theorem claim_inv (hindexed : paths.Indexed)
    (h : paths.claim path owner directory group = .ok paths') :
    ∃ (index : ℕ) (new : List Tenant), paths'.foldsCase = paths.foldsCase ∧
      paths'.tenants = paths.tenants ++ new ∧
      paths'.tenants[index]? = some (.of owner directory) ∧
      (∀ i ∈ paths.matched path, paths'.tenants[i]? = some (.of owner directory)) ∧
      ∀ name, paths'.index.lookup name = (paths.index.lookup name).or
        (if name ∈ names paths.foldsCase path then some index else none) := by
  rw [claim] at h
  obtain ⟨claims, hclaims, h⟩ := bind_eq_ok h
  obtain ⟨hsame, htenant⟩ := foldlM_meetClaim_ok hclaims
  cases h
  have hmet : ∀ i ∈ paths.matched path, paths.tenants[i]? = some (.of owner directory) := by
    intro i hi
    obtain ⟨name, -, hname⟩ := mem_matched.mp hi
    have hget := getElem?_eq_getElem (hindexed name i hname)
    rw [hget, htenant i hi _ hget]
  have hold : claims.map DestinationClaim.tenant = paths.tenants := hsame
  have hlength : claims.length = paths.tenants.length := by
    rw [← hold, length_map]
  refine ⟨(paths.matched path).headD claims.length,
    if paths.matched path = [] then [.of owner directory] else [], rfl, ?_, ?_, ?_, fun name =>
      (Table.lookup_foldl_orInsert _ paths.index name _).trans (by congr)⟩
  · rw [tenants, ← hold]
    split <;> simp [DestinationClaim.tenant]
  · cases hcase : paths.matched path with
    | nil => simp [tenants, hold, hlength, DestinationClaim.tenant]
    | cons i rest => simpa [tenants, hold] using hmet i (by simp [hcase])
  · intro i hi
    have hcase : paths.matched path ≠ [] := ne_nil_of_mem hi
    simpa [tenants, hold, hcase] using hmet i hi

theorem claim_ok (hindexed : paths.Indexed)
    (h : paths.claim path owner directory group = .ok paths') :
    Grows paths paths' ∧ paths'.Occupied path (.of owner directory) := by
  obtain ⟨index, new, hfolds, htenants, hindex, hmet, hlookup⟩ := claim_inv hindexed h
  refine ⟨⟨hfolds, ?_, ?_⟩, ?_⟩
  · intro name i hi
    rw [hlookup, Option.or_eq_some_iff] at hi
    rcases hi with hi | ⟨-, hi⟩
    · have := hindexed name i hi
      rw [htenants, length_append]
      omega
    · rw [Option.ite_none_right_eq_some] at hi
      obtain ⟨-, hi⟩ := hi
      cases hi
      exact (List.getElem?_eq_some_iff.mp hindex).1
  · intro name t ht
    obtain ⟨i, hi, ht⟩ := Option.bind_eq_some_iff.mp ht
    have hlt := hindexed name i hi
    rw [tenant, hlookup, hi, htenants]
    exact (getElem?_append_left hlt).trans ht
  · intro name hname
    rw [hfolds] at hname
    rw [tenant, hlookup]
    cases hi : paths.index.lookup name with
    | none => simpa [hname] using hindex
    | some i => simpa using hmet i (mem_matched.mpr ⟨name, hname, hi⟩)

end DestinationPaths

/-! ## The files of a plan -/

structure PlannedFile where
  path : Path
  owner : Text
  deriving DecidableEq

def PlannedFile.of (path owner : Text) : PlannedFile :=
  ⟨components path, owner⟩

def artifactDir (key : ArtifactMetaKey) : Text :=
  join (groupPath key.groupId) key.artifactId

def VersionDir.path (dir : VersionDir) : Text :=
  join (join (groupPath dir.group) dir.artifact) dir.version

theorem artifactRelativePath_ok {key : ArtifactCoord} {relative : Text}
    (h : artifactRelativePath key = .ok relative) : relative = artifactDestination key := by
  simp only [artifactRelativePath, bind_unit_eq_ok_iff] at h
  obtain ⟨-, -, -, h⟩ := h
  exact (Except.ok.inj h).symm

theorem validateGroupPath_ok {group path : Text} (h : validateGroupPath group = .ok path) :
    path = groupPath group := by
  simp only [validateGroupPath, bind_unit_eq_ok_iff] at h
  exact (Except.ok.inj h.2).symm

section Files

variable [Lowercase] [Folding]

open DestinationPaths (idName listOwner emptyListOwner)

def withChecksums (path owner : Text) (extensions : List Text) : List PlannedFile :=
  .of path owner :: extensions.map fun extension =>
    .of (path ++ '.' :: extension) (checksumOwner owner extension)

def metadataFiles (dir owner id : Text) : List PlannedFile :=
  withChecksums (metadataPath dir id) owner metadataChecksums

def listFiles (dir coordinate : Text) (listed empty : List Text) (foldsCase : Bool) :
    List PlannedFile :=
  let listed := listed.filter isMetadataRepoId
  let name := idName foldsCase
  listed.flatMap (fun id => metadataFiles dir (listOwner coordinate id) id) ++
    (emptyListIds name (listed.map name) empty).flatMap fun id =>
      metadataFiles dir (emptyListOwner coordinate id) id

/-- The artifact, its checksums and the marker of the repositories in its
directory. -/
def unitFiles (unit : ExportUnit) : List PlannedFile :=
  let path := artifactDestination unit.key
  withChecksums path unit.key.display artifactChecksums ++
    if unit.repoIds.any (!List.isEmpty ·) then
      [.of (join (parent path) "_remote.repositories") (markerOwner (parent path))]
    else []

def artifactFiles (accumulator : MetadataAccumulator) (foldsCase : Bool)
    (artifact : ArtifactMetaKey × List (Text × List Text)) : List PlannedFile :=
  listFiles (artifactDir artifact.1) artifact.1.coordinate (listedIds artifact.2)
    accumulator.emptyListIds foldsCase

def versionFiles (accumulator : MetadataAccumulator) (foldsCase : Bool) (version : VersionDir) :
    List PlannedFile :=
  listFiles version.path version.coordinate version.ids.entries (VersionDir.emptyIds accumulator)
    foldsCase

def plannedFiles (units : List ExportUnit) (optional : List (ArtifactCoord × List Text))
    (accumulator : MetadataAccumulator) (foldsCase : Bool) : List PlannedFile :=
  (units ++ optional.map fun (key, repoIds) => ExportUnit.mk key repoIds).flatMap unitFiles ++
    accumulator.artifacts.flatMap (artifactFiles accumulator foldsCase) ++
    accumulator.versions.entries.flatMap (versionFiles accumulator foldsCase)

end Files

/-! ## Placing files -/

namespace DestinationPaths

variable [Lowercase] [Folding]

def Placed (paths : DestinationPaths) (f : PlannedFile) : Prop :=
  ∀ k, 0 < k → k ≤ f.path.length → paths.Occupied (f.path.take k) (.of f.owner (k < f.path.length))

/-- A step that places files, which may depend on whether names fold. -/
structure Places (paths paths' : DestinationPaths) (files : Bool → List PlannedFile) : Prop where
  grows : Grows paths paths'
  placed : ∀ f ∈ files paths.foldsCase, paths'.Placed f

variable {paths paths' : DestinationPaths} {owner : Text} {path dir group : Text} {groupDepth : ℕ}
  {accumulator : MetadataAccumulator}

theorem Placed.grow {f : PlannedFile} (h : paths.Placed f) (hgrows : Grows paths paths') :
    paths'.Placed f :=
  fun k hpos hk => (h k hpos hk).grow hgrows

theorem Places.nil (h : paths.Indexed) : Places paths paths fun _ => [] :=
  ⟨.refl h, fun f hf => by cases hf⟩

theorem Places.append {paths'' : DestinationPaths} {files files' : Bool → List PlannedFile}
    (h : Places paths paths' files) (h' : Places paths' paths'' files') :
    Places paths paths'' fun foldsCase => files foldsCase ++ files' foldsCase := by
  refine ⟨h.grows.trans h'.grows, fun f hf => ?_⟩
  rcases mem_append.mp hf with hf | hf
  · exact (h.placed f hf).grow h'.grows
  · exact h'.placed f (h.grows.foldsCase ▸ hf)

theorem Places.foldlM {α : Type} {step : DestinationPaths → α → Except ExportError DestinationPaths}
    {files : Bool → α → List PlannedFile}
    (hstep : ∀ {paths paths' x}, paths.Indexed → step paths x = .ok paths' →
      Places paths paths' (files · x)) {l : List α} (hindexed : paths.Indexed)
    (h : l.foldlM step paths = .ok paths') :
    Places paths paths' fun foldsCase => l.flatMap (files foldsCase) := by
  induction l generalizing paths with
  | nil =>
    cases h
    exact .nil hindexed
  | cons x l ih =>
    rw [foldlM_cons] at h
    obtain ⟨next, hnext, hrest⟩ := bind_eq_ok h
    have hplaces := hstep hindexed hnext
    exact hplaces.append (ih hplaces.grows.indexed hrest)

theorem file_ok (hindexed : paths.Indexed) (h : paths.file path owner groupDepth = .ok paths') :
    Places paths paths' fun _ => [.of path owner] := by
  rw [file] at h
  generalize hparts : components path = parts at h
  -- After `n` parts the first `n` directories have their tenants.
  have hprefix : ∀ n paths', (List.range n).foldlM (fun paths index =>
      claim paths (parts.take (index + 1)) owner (index + 1 < parts.length) (index < groupDepth))
        paths = .ok paths' →
      Grows paths paths' ∧ ∀ k, 0 < k → k ≤ n →
        paths'.Occupied (parts.take k) (.of owner (k < parts.length)) := by
    intro n
    induction n with
    | zero =>
      intro paths' h
      cases h
      exact ⟨.refl hindexed, fun k hpos hk => by omega⟩
    | succ n ih =>
      intro paths' h
      rw [range_succ, foldlM_append] at h
      obtain ⟨before, hbefore, hlast⟩ := bind_eq_ok h
      obtain ⟨hgrows, hoccupied⟩ := ih before hbefore
      rw [foldlM_cons] at hlast
      obtain ⟨last, hclaim, hlast⟩ := bind_eq_ok hlast
      cases hlast
      obtain ⟨hgrows', hnew⟩ := claim_ok hgrows.indexed hclaim
      refine ⟨hgrows.trans hgrows', fun k hpos hk => ?_⟩
      rcases Nat.lt_or_eq_of_le hk with hlt | rfl
      · exact (hoccupied k hpos (by omega)).grow hgrows'
      · exact hnew
  obtain ⟨hgrows, hoccupied⟩ := hprefix _ _ h
  refine ⟨hgrows, fun f hf => ?_⟩
  rw [mem_singleton] at hf
  subst hf
  subst hparts
  exact hoccupied

theorem Places.of_names {metadataNames cleanupNames : Finset Text} {files : Bool → List PlannedFile}
    (h : Places { paths with metadataNames, cleanupNames } paths' files) :
    Places paths paths' files :=
  ⟨⟨h.grows.foldsCase, h.grows.indexed, h.grows.tenant⟩, h.placed⟩

theorem checksums_ok {extensions : List Text} (hindexed : paths.Indexed)
    (h : extensions.foldlM (fun paths extension =>
      paths.file (path ++ '.' :: extension) (checksumOwner owner extension) groupDepth) paths =
        .ok paths') :
    Places paths paths' fun _ => extensions.map fun extension =>
      .of (path ++ '.' :: extension) (checksumOwner owner extension) := by
  simp only [map_eq_flatMap]
  exact Places.foldlM (fun hindexed h => file_ok hindexed h) hindexed h

theorem metadata_ok {id : Text} (hindexed : paths.Indexed)
    (h : paths.metadata dir group owner id = .ok paths') :
    Places paths paths' fun _ => metadataFiles dir owner id := by
  rw [metadata] at h
  obtain ⟨next, hnext, hrest⟩ := bind_eq_ok h
  have hfile := file_ok hindexed hnext
  have hchecksums := checksums_ok (show (next.keep _).Indexed from hfile.grows.indexed) hrest
  exact hfile.append hchecksums.of_names

theorem metadataLists_ok {coordinate : Text} {listed empty : List Text} (hindexed : paths.Indexed)
    (h : paths.metadataLists dir group coordinate listed empty = .ok paths') :
    Places paths paths' (listFiles dir coordinate listed empty) := by
  rw [metadataLists] at h
  obtain ⟨next, hnext, hrest⟩ := bind_eq_ok h
  have hlisted := Places.foldlM (fun hindexed h => metadata_ok hindexed h) hindexed hnext
  have hempty :=
    Places.foldlM (fun hindexed h => metadata_ok hindexed h) hlisted.grows.indexed hrest
  have hboth := hlisted.append hempty
  exact ⟨hboth.grows, hboth.placed⟩

theorem planUnit_ok {unit : ExportUnit} (hindexed : paths.Indexed)
    (h : paths.planUnit unit = .ok paths') : Places paths paths' fun _ => unitFiles unit := by
  rw [planUnit] at h
  obtain ⟨relative, hrelative, h⟩ := bind_eq_ok h
  obtain ⟨placed, hplaced, h⟩ := bind_eq_ok h
  obtain ⟨summed, hsummed, h⟩ := bind_eq_ok h
  obtain rfl := artifactRelativePath_ok hrelative
  have hfile := file_ok hindexed hplaced
  have hfiles := hfile.append (checksums_ok hfile.grows.indexed hsummed)
  refine hfiles.append ?_
  split at h
  · rename_i hmarked
    simp only [hmarked, if_true]
    exact file_ok hfiles.grows.indexed h
  · rename_i hmarked
    cases h
    simp only [hmarked]
    exact .nil hfiles.grows.indexed

theorem planArtifact_ok {artifact : ArtifactMetaKey × List (Text × List Text)}
    (hindexed : paths.Indexed) (h : planArtifact accumulator paths artifact = .ok paths') :
    Places paths paths' (artifactFiles accumulator · artifact) := by
  rw [planArtifact] at h
  obtain ⟨group, hgroup, h⟩ := bind_eq_ok h
  obtain rfl := validateGroupPath_ok hgroup
  split at h
  · exact metadataLists_ok hindexed h
  · exact (metadataLists_ok (show (paths.cleanup _).Indexed from hindexed) h).of_names

theorem planVersion_ok {version : VersionDir} (hindexed : paths.Indexed)
    (h : planVersion accumulator paths version = .ok paths') :
    Places paths paths' (versionFiles accumulator · version) := by
  rw [planVersion] at h
  obtain ⟨group, hgroup, h⟩ := bind_eq_ok h
  obtain rfl := validateGroupPath_ok hgroup
  split at h
  · exact (metadataLists_ok (show (paths.cleanup _).Indexed from hindexed) h).of_names
  · exact metadataLists_ok hindexed h

end DestinationPaths

/-! ## Apart files -/

variable {c : Char} {f : PlannedFile}

theorem components_ne_nil {text : Text} (hmem : c ∈ text) (hslash : c ≠ '/') (hdot : c ≠ '.') :
    components text ≠ [] := by
  have hsegments : segments text ≠ [] := by
    have hjoin : Text.join ['/'] (Text.split text '/') = text := intercalate_splitOn '/'
    have hjoined : c ∈ Text.join ['/'] (Text.split text '/') := by
      rw [hjoin]
      exact hmem
    obtain ⟨part, hpart, hc⟩ := (Text.mem_join hjoined).resolve_left hslash
    refine ne_nil_of_mem (mem_filter.mpr ⟨hpart, ?_⟩)
    rw [decide_eq_true_eq]
    refine ⟨ne_nil_of_mem hc, ?_⟩
    rintro rfl
    exact hdot (mem_singleton.mp hc)
  rw [components]
  split_ifs
  · exact cons_ne_nil _ _
  · exact cons_ne_nil _ _
  · exact hsegments

theorem mem_join_of_mem {base part : Text} (h : c ∈ part) : c ∈ join base part := by
  rw [join]
  split_ifs
  · exact h
  · exact mem_append_right _ h
  · exact mem_append_right _ (mem_cons_of_mem _ h)

theorem path_ne_nil_of_mem_withChecksums {path owner : Text} {extensions : List Text}
    (hmem : c ∈ path) (hslash : c ≠ '/') (hdot : c ≠ '.')
    (hf : f ∈ withChecksums path owner extensions) : f.path ≠ [] := by
  rcases mem_cons.mp hf with rfl | hf
  · exact components_ne_nil hmem hslash hdot
  · obtain ⟨extension, -, rfl⟩ := mem_map.mp hf
    exact components_ne_nil (mem_append_left _ hmem) hslash hdot

theorem path_ne_nil_of_mem_unitFiles {unit : ExportUnit} (hf : f ∈ unitFiles unit) :
    f.path ≠ [] := by
  rcases mem_append.mp hf with hf | hf
  · have hdash : '-' ∈ artifactDestination unit.key := by
      simp [artifactDestination, artifactPath, artifactPathFromParts, Text.join, List.intercalate]
    exact path_ne_nil_of_mem_withChecksums hdash (by decide) (by decide) hf
  · split at hf
    · rw [mem_singleton] at hf
      subst hf
      have hunderscore : '_' ∈ join (parent (artifactDestination unit.key))
          "_remote.repositories" := mem_join_of_mem (mem_cons_self)
      exact components_ne_nil hunderscore (by decide) (by decide)
    · cases hf

section Apart

variable [Lowercase] [Folding] {foldsCase : Bool} {f : PlannedFile}

theorem path_ne_nil_of_mem_listFiles {dir coordinate : Text} {listed empty : List Text}
    (hf : f ∈ listFiles dir coordinate listed empty foldsCase) : f.path ≠ [] := by
  have hmetadata : ∀ {owner id}, f ∈ metadataFiles dir owner id → f.path ≠ [] := by
    intro owner id hf
    have hm : 'm' ∈ metadataPath dir id := mem_join_of_mem (mem_cons_self)
    exact path_ne_nil_of_mem_withChecksums hm (by decide) (by decide) hf
  rcases mem_append.mp hf with hf | hf
  · obtain ⟨id, -, hf⟩ := mem_flatMap.mp hf
    exact hmetadata hf
  · obtain ⟨id, -, hf⟩ := mem_flatMap.mp hf
    exact hmetadata hf

theorem path_ne_nil_of_mem_plannedFiles {units : List ExportUnit}
    {optional : List (ArtifactCoord × List Text)} {accumulator : MetadataAccumulator}
    (hf : f ∈ plannedFiles units optional accumulator foldsCase) : f.path ≠ [] := by
  rcases mem_append.mp hf with hf | hf
  · rcases mem_append.mp hf with hf | hf
    · obtain ⟨unit, -, hf⟩ := mem_flatMap.mp hf
      exact path_ne_nil_of_mem_unitFiles hf
    · obtain ⟨artifact, -, hf⟩ := mem_flatMap.mp hf
      exact path_ne_nil_of_mem_listFiles hf
  · obtain ⟨version, -, hf⟩ := mem_flatMap.mp hf
    exact path_ne_nil_of_mem_listFiles hf

def Separate (foldsCase : Bool) (path path' : Path) : Prop :=
  path ≠ path' ∧ (names foldsCase path).Disjoint (names foldsCase path')

/-- Files of different owners are separate, and a file is separate from the
directories above another. -/
structure Apart (foldsCase : Bool) (f g : PlannedFile) : Prop where
  owners : f.owner ≠ g.owner → Separate foldsCase f.path g.path
  directories : ∀ k, 0 < k → k < g.path.length → Separate foldsCase f.path (g.path.take k)

namespace DestinationPaths

variable {paths : DestinationPaths}

theorem Occupied.separate {path path' : Path} {t t' : Tenant} (h : paths.Occupied path t)
    (h' : paths.Occupied path' t') (hne : t ≠ t') : Separate paths.foldsCase path path' := by
  have hdisjoint : (names paths.foldsCase path).Disjoint (names paths.foldsCase path') := by
    intro name hname hname'
    exact hne (Option.some.inj ((h name hname).symm.trans (h' name hname')))
  refine ⟨?_, hdisjoint⟩
  rintro rfl
  obtain ⟨name, hname⟩ := exists_mem_of_ne_nil _ (names_ne_nil paths.foldsCase path)
  exact hdisjoint hname hname

theorem Placed.occupied {f : PlannedFile} (h : paths.Placed f) (hne : f.path ≠ []) :
    paths.Occupied f.path (.file f.owner) := by
  have := h f.path.length (length_pos_of_ne_nil hne) le_rfl
  rwa [take_length, decide_eq_false (lt_irrefl _)] at this

theorem Placed.apart {f g : PlannedFile} (hf : paths.Placed f) (hg : paths.Placed g)
    (hfne : f.path ≠ []) (hgne : g.path ≠ []) :
    Apart paths.foldsCase f g where
  owners := fun howner => (hf.occupied hfne).separate (hg.occupied hgne) (by simpa using howner)
  directories := by
    intro k hpos hk
    have hdirectory := hg k hpos hk.le
    rw [decide_eq_true hk] at hdirectory
    exact (hf.occupied hfne).separate hdirectory (by simp [Tenant.of])

theorem plannedDestinations_ok {units : List ExportUnit}
    {optional : List (ArtifactCoord × List Text)} {accumulator : MetadataAccumulator}
    {foldsCase : Bool} (h : plannedDestinations units optional accumulator foldsCase = .ok paths) :
    paths.foldsCase = foldsCase ∧
      ∀ f ∈ plannedFiles units optional accumulator foldsCase, paths.Placed f := by
  rw [plannedDestinations] at h
  obtain ⟨afterUnits, hunits, h⟩ := bind_eq_ok h
  obtain ⟨afterArtifacts, hartifacts, h⟩ := bind_eq_ok h
  obtain ⟨afterVersions, hversions, h⟩ := bind_eq_ok h
  obtain ⟨-, h⟩ := bind_unit_eq_ok_iff.mp h
  cases h
  have hempty : Indexed ⟨[], ∅, ∅, ∅, foldsCase⟩ := by
    intro name index hindex
    cases hindex
  have hplaced := Places.foldlM (fun hindexed h => planUnit_ok hindexed h) hempty hunits
  have hplaced' := hplaced.append
    (Places.foldlM (fun hindexed h => planArtifact_ok hindexed h) hplaced.grows.indexed hartifacts)
  have hplaced'' := hplaced'.append
    (Places.foldlM (fun hindexed h => planVersion_ok hindexed h) hplaced'.grows.indexed hversions)
  exact ⟨hplaced''.grows.foldsCase, hplaced''.placed⟩

end DestinationPaths

/-- The files of a plan that succeeds do not collide. -/
theorem plannedDestinations_apart (units : List ExportUnit)
    (optional : List (ArtifactCoord × List Text)) (accumulator : MetadataAccumulator)
    (foldsCase : Bool) (paths : DestinationPaths)
    (h : plannedDestinations units optional accumulator foldsCase = .ok paths) :
    ∀ f ∈ plannedFiles units optional accumulator foldsCase,
      ∀ g ∈ plannedFiles units optional accumulator foldsCase, Apart foldsCase f g := by
  obtain ⟨hfolds, hplaced⟩ := DestinationPaths.plannedDestinations_ok h
  intro f hf g hg
  rw [← hfolds]
  exact (hplaced f hf).apart (hplaced g hg) (path_ne_nil_of_mem_plannedFiles hf)
    (path_ne_nil_of_mem_plannedFiles hg)

end Apart

section Spellings

local instance spellingsLowercase : Lowercase := asciiLowercase

local instance spellingsFolding : Folding where
  toUppercase := List.map Char.toUpper
  foldString := List.map Char.toLower
  nfd := id
  nfc := id
  macos := false
  debug := fun text => '"' :: text ++ ['"']

def appUnit : ExportUnit :=
  ⟨.of ⟨"org.acme", "app", "1.0"⟩ "jar" none, ["central"]⟩

def libSources : ArtifactCoord × List Text :=
  (.of ⟨"Org.acme", "lib", "2.0"⟩ "jar" (some "sources"), [])

def appLists : MetadataAccumulator :=
  ⟨[], [(⟨"org.acme", "app"⟩, [("central", ["1.0"])])], [], true,
    [], false⟩

theorem plannedDestinations_apart_spellings :
    (plannedDestinations [appUnit] [libSources] appLists true).isOk = true ∧
      ∀ f ∈ plannedFiles [appUnit] [libSources] appLists true,
        ∀ g ∈ plannedFiles [appUnit] [libSources] appLists true, Apart true f g := by
  have hok : (plannedDestinations [appUnit] [libSources] appLists true).isOk = true := by
    decide +kernel
  obtain ⟨paths, h⟩ := exists_of_isOk hok
  exact ⟨hok, plannedDestinations_apart _ _ _ _ paths h⟩

end Spellings

end Raeva.Export
