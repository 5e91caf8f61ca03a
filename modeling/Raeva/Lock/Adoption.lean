import Raeva.Lock.Drift

/-!
# Adopting a resolution without drift

Drift is decided on modules whose reactor versions are blanked, and adoption
sets the versions of the fresh lockfile in their place.  Both rename the models
of the parent ranges one after the other by their text, and that is all that
can go wrong.
-/

namespace Raeva.Lock

open List

/-! ## Renaming one after the other -/

def renameAll (pairs : List (Text × Text)) (text : Text) : Text :=
  pairs.foldl (fun text pair => if text = pair.1 then pair.2 else text) text

variable {pairs : List (Text × Text)} {pair : Text × Text} {module m n : LockModule}
  {own versions : Text → Option Text} {package : LockModulePackage} {x y : Gav}
  {lock : Lockfile} {lhs rhs : LockPlatform} {declared : Platform → Text → Bool}
  {p q : LockPlatform} {fresh : Text → Option Text} {text : Text} {entry : Gav × Text}
  {model : Gav} {form : Lockfile}

theorem renameAll_of_notMem (h : ∀ pair ∈ pairs, pair.1 ≠ text) : renameAll pairs text = text := by
  induction pairs with
  | nil => rfl
  | cons pair pairs ih =>
    have hpair : text ≠ pair.1 := fun heq => h pair mem_cons_self heq.symm
    rw [renameAll, foldl_cons, if_neg hpair]
    exact ih fun other hother => h other (mem_cons_of_mem pair hother)

/-- A text gets the new name of its pair if no other renameOf is about the one or the other. -/
theorem renameAll_of_mem (hpair : pair ∈ pairs)
    (h : ∀ other ∈ pairs, other.1 = pair.1 ∨ other.1 = pair.2 → other = pair) :
    renameAll pairs pair.1 = pair.2 := by
  have key : ∀ rest, rest ⊆ pairs →
      renameAll rest pair.2 = pair.2 ∧ (pair ∈ rest → renameAll rest pair.1 = pair.2) := by
    intro rest hrest
    induction rest with
    | nil => exact ⟨rfl, fun hmem => absurd hmem not_mem_nil⟩
    | cons next rest ih =>
      obtain ⟨hnext, hrest⟩ := cons_subset.mp hrest
      obtain ⟨hnew, hold⟩ := ih hrest
      constructor
      · rw [renameAll, foldl_cons]
        by_cases heq : pair.2 = next.1
        · rw [if_pos heq, h next hnext (.inr heq.symm)]
          exact hnew
        · rw [if_neg heq]
          exact hnew
      · intro hmem
        rw [renameAll, foldl_cons]
        by_cases heq : pair.1 = next.1
        · rw [if_pos heq, h next hnext (.inl heq.symm)]
          exact hnew
        rw [if_neg heq]
        rcases mem_cons.mp hmem with rfl | hmem
        · exact absurd rfl heq
        · exact hold hmem
  exact (key pairs (.refl pairs)).2 hpair

theorem renameAll_iff {P : Text → Prop} (h : ∀ pair ∈ pairs, P pair.1 ↔ P pair.2) (text : Text) :
    P (renameAll pairs text) ↔ P text := by
  induction pairs generalizing text with
  | nil => rfl
  | cons pair pairs ih =>
    obtain ⟨hpair, hpairs⟩ := forall_mem_cons.mp h
    rw [renameAll, foldl_cons]
    refine (ih hpairs _).trans ?_
    by_cases heq : text = pair.1
    · rw [if_pos heq, heq]
      exact hpair.symm
    · rw [if_neg heq]

/-! ## Replacing versions -/

def ParentRange.rename (pairs : List (Text × Text)) (range : ParentRange) : ParentRange :=
  { range with model := renameAll pairs range.model }

def workspaceGavs (packages : List LockModulePackage) : List (Gav × Text) :=
  packages.filterMap fun package =>
    package.workspaceModule.map fun path => (package.coordinate.gav, path)

/-- The GAVs of a module and of the modules among its packages, with the paths
of those modules. -/
def reactorGavs (module : LockModule) : List (Gav × Text) :=
  (module.gav, module.path) :: workspaceGavs module.packages

def gavAt (versions : Text → Option Text) (gav : Gav) (path : Text) : Gav :=
  { gav with version := (versions path).getD [] }

def renameOf (versions : Text → Option Text) (entry : Gav × Text) : Text × Text :=
  (entry.1.display, (gavAt versions entry.1 entry.2).display)

/-- The renamings of a module's parent ranges, in the order in which they are
made. -/
def renamings (module : LockModule) (versions : Text → Option Text) : List (Text × Text) :=
  (reactorGavs module).map (renameOf versions)

def LockModule.Versioned (module : LockModule) (own : Text → Option Text) : Prop :=
  ∀ package ∈ module.packages, ∀ path ∈ package.workspaceModule,
    own path = some package.coordinate.version

def reversion (versions : Text → Option Text) (package : LockModulePackage) : LockModulePackage :=
  match package.workspaceModule with
  | some path =>
    { package with
      coordinate := .of (gavAt versions package.coordinate.gav path) package.coordinate.extension
        package.coordinate.classifier }
  | none => package

theorem adoptedGav_of_versioned (h : module.Versioned own) (versions : Text → Option Text)
    (hpackage : package ∈ module.packages) : adoptedGav own versions package =
      package.workspaceModule.map fun path => gavAt versions package.coordinate.gav path := by
  rw [adoptedGav]
  cases hworkspace : package.workspaceModule with
  | none => rfl
  | some path =>
    have := h package hpackage path hworkspace
    simp [this, gavAt]

theorem replaceVersions_packages (h : module.Versioned own) (versions : Text → Option Text) :
    (replaceVersions module own versions).packages = module.packages.map (reversion versions) := by
  refine map_congr_left fun package hpackage => ?_
  rw [adoptPackage, adoptedGav_of_versioned h versions hpackage, reversion]
  cases package.workspaceModule <;> rfl

theorem renameSelections_eq (old new : Text) (ranges : List ParentRange) :
    renameSelections old new ranges = ranges.map (ParentRange.rename [(old, new)]) := by
  refine map_congr_left fun range _ => ?_
  by_cases h : range.model = old <;> simp [ParentRange.rename, renameAll, h]

theorem map_rename_rename (pairs pairs' : List (Text × Text)) (ranges : List ParentRange) :
    (ranges.map (ParentRange.rename pairs)).map (ParentRange.rename pairs') =
      ranges.map (ParentRange.rename (pairs ++ pairs')) := by
  rw [map_map]
  refine map_congr_left fun range _ => ?_
  simp [ParentRange.rename, renameAll]

theorem map_rename_nil (ranges : List ParentRange) : ranges.map (ParentRange.rename []) = ranges :=
  map_id ranges

theorem replaceVersions_parentRanges (h : module.Versioned own) (versions : Text → Option Text) :
    (replaceVersions module own versions).parentRanges =
      module.parentRanges.map (ParentRange.rename (renamings module versions)) := by
  have hfold : ∀ (packages : List LockModulePackage) (ranges : List ParentRange),
      packages ⊆ module.packages →
      packages.foldl (adoptSelections own versions) ranges =
        ranges.map (.rename ((workspaceGavs packages).map (renameOf versions))) := by
    intro packages
    induction packages with
    | nil => exact fun ranges _ => (map_rename_nil ranges).symm
    | cons package packages ih =>
      intro ranges hsub
      obtain ⟨hpackage, hsub⟩ := cons_subset.mp hsub
      rw [foldl_cons, ih _ hsub, adoptSelections, adoptedGav_of_versioned h versions hpackage]
      cases hworkspace : package.workspaceModule with
      | none => simp [workspaceGavs, hworkspace]
      | some path =>
        simp only [Option.map_some, renameSelections_eq, map_rename_rename]
        simp [workspaceGavs, hworkspace, renameOf]
  simp only [replaceVersions]
  rw [hfold _ _ (List.Subset.refl _), renameSelections_eq, map_rename_rename]
  rfl

/-! ## Blanking and adopting -/

@[simp] theorem reversion_workspaceModule (versions : Text → Option Text)
    (package : LockModulePackage) :
    (reversion versions package).workspaceModule = package.workspaceModule := by
  rw [reversion]
  split
  · rfl
  · rfl

theorem reversion_reversion (versions blank : Text → Option Text) (package : LockModulePackage) :
    reversion versions (reversion blank package) = reversion versions package := by
  cases h : package.workspaceModule with
  | none => simp [reversion, h]
  | some path =>
    have hblank : reversion blank package = { package with
          coordinate := .of (gavAt blank package.coordinate.gav path) package.coordinate.extension
            package.coordinate.classifier } := by
      rw [reversion, h]
    rw [hblank]
    simp only [reversion, h, ArtifactCoord.of_classifier]
    rfl

theorem reversion_eq_self
    (h : ∀ path ∈ package.workspaceModule, versions path = some package.coordinate.version) :
    reversion versions package = package := by
  rw [reversion]
  cases hworkspace : package.workspaceModule with
  | none => rfl
  | some path =>
    have hgav : gavAt versions package.coordinate.gav path = package.coordinate.gav := by
      rw [gavAt, h path hworkspace]
      rfl
    simp only [hgav, ArtifactCoord.of_self, ← hworkspace]

def NamedEdge.mapEnds (f : LockModulePackage → LockModulePackage) : NamedEdge → NamedEdge
  | (source, target, scope, optional) => (source.map f, target.map f, scope, optional)

theorem namedEdges_map {f : LockModulePackage → LockModulePackage}
    (hpackages : n.packages = m.packages.map f) (hedges : n.edges = m.edges) :
    namedEdges n = (namedEdges m).map (NamedEdge.mapEnds f) := by
  rw [namedEdges, namedEdges, hpackages, hedges, map_map]
  refine map_congr_left fun edge _ => ?_
  simp [NamedEdge.mapEnds]

theorem map_mapEnds (f g : LockModulePackage → LockModulePackage) (edges : List NamedEdge) :
    (edges.map (NamedEdge.mapEnds f)).map (NamedEdge.mapEnds g) =
      edges.map (NamedEdge.mapEnds (g ∘ f)) := by
  rw [map_map]
  refine map_congr_left fun edge _ => ?_
  simp [NamedEdge.mapEnds]

theorem LockModule.Versioned.canonicalizeModule (h : module.Versioned own) :
    (canonicalizeModule module).Versioned own :=
  fun package hpackage => h package (mem_canonicalizeModule_packages.mp hpackage)

theorem replaceVersions_canonicalizeModule (h : module.Versioned own)
    (versions : Text → Option Text) :
    (replaceVersions (canonicalizeModule module) own versions).packages.Perm
        (module.packages.map (reversion versions)) ∧
      (namedEdges (replaceVersions (canonicalizeModule module) own versions)).Perm
        ((namedEdges module).map (NamedEdge.mapEnds (reversion versions))) := by
  have hpackages := replaceVersions_packages h.canonicalizeModule versions
  rw [namedEdges_map hpackages rfl, hpackages, canonicalizeModule_packages]
  exact ⟨(sortBy_perm _ _).map _, (namedEdges_canonicalizeModule module).map _⟩

def BlankAlike (m : LockModule) (own : Text → Option Text) (n : LockModule)
    (fresh : Text → Option Text) : Prop :=
  withModuleVersions (canonicalizeModule m) own (fun _ => none) =
    withModuleVersions (canonicalizeModule n) fresh fun _ => none

/-- Modules that are equal with blank versions are the same after adoption, but
for their parent ranges. -/
theorem sameModule_replaceVersions_iff (hm : m.Versioned own) (hn : n.Versioned fresh)
    (hversions : n.Versioned versions) (hgav : versions n.path = some n.gav.version)
    (hblank : BlankAlike m own n fresh) :
    SameModule (replaceVersions m own versions) n ↔
      (replaceVersions m own versions).parentRanges.Perm n.parentRanges := by
  refine ⟨SameModule.parentRanges, fun hranges => ?_⟩
  have hsame := SameModule.of_canonicalizeModule_eq hblank
  obtain ⟨hmp, hme⟩ := replaceVersions_canonicalizeModule hm fun _ => none
  obtain ⟨hnp, hne⟩ := replaceVersions_canonicalizeModule hn fun _ => none
  have hcomp : reversion versions ∘ reversion (fun _ => none) = reversion versions :=
    funext (reversion_reversion versions _)
  have hself : n.packages = n.packages.map (reversion versions) :=
    ((map_congr_left fun package hpackage => reversion_eq_self (hversions package hpackage)).trans
      (map_id _)).symm
  refine ⟨hsame.path, ?_, hsame.packaging, ?_, ?_, hranges, fun coord => ?_⟩
  · have hgav' : (replaceVersions (canonicalizeModule m) own fun _ => none).gav =
      (replaceVersions (canonicalizeModule n) fresh fun _ => none).gav := hsame.gav
    have hpath : m.path = n.path := hsame.path
    obtain ⟨hgroup, hartifact⟩ : m.gav.group = n.gav.group ∧ m.gav.artifact = n.gav.artifact :=
      ⟨(Gav.mk.inj hgav').1, (Gav.mk.inj hgav').2.1⟩
    simp only [replaceVersions, hgroup, hartifact, hpath, hgav, Option.getD_some]
  · have hperm := ((hmp.symm.trans hsame.packages).trans hnp).map (reversion versions)
    rw [map_map, map_map, hcomp, ← hself] at hperm
    rwa [replaceVersions_packages hm]
  · have hperm :=
      ((hme.symm.trans hsame.edges).trans hne).map (NamedEdge.mapEnds (reversion versions))
    rw [map_mapEnds, map_mapEnds, hcomp, ← namedEdges_map hself rfl] at hperm
    rwa [namedEdges_map (replaceVersions_packages hm versions) rfl]
  · have hpoms := hsame.supportPoms coord
    have hiff :
        ∀ k : LockModule, coord ∈ (canonicalizeModule k).supportPoms ↔ coord ∈ k.supportPoms :=
      fun k => mem_sortedValues
    exact (hiff m).symm.trans (hpoms.trans (hiff n))

/-! ## Where renameOf in turn is renameOf at once -/

/-- A GAV whose parts can be read off its text. -/
structure GavText (gav : Gav) : Prop where
  group : ':' ∉ gav.group
  artifact : ':' ∉ gav.artifact
  version : gav.version ≠ []

theorem GavText.display_inj (hx : GavText x) (hy : GavText y) (h : x.display = y.display) : x = y :=
  gavDisplay_inj hx.group hx.artifact hy.group hy.artifact h

theorem GavText.parts_eq (hx : GavText x) (hy : GavText y) {version version' : Text}
    (h : { x with version }.display = { y with version := version' }.display) :
    x.group = y.group ∧ x.artifact = y.artifact ∧ version = version' :=
  Gav.mk.inj (gavDisplay_inj hx.group hx.artifact hy.group hy.artifact h)

theorem reactorGavs_replaceVersions (h : module.Versioned own) (versions : Text → Option Text) :
    reactorGavs (replaceVersions module own versions) =
      (reactorGavs module).map fun (gav, path) => (gavAt versions gav path, path) := by
  have hpackages := replaceVersions_packages h versions
  rw [reactorGavs, hpackages, reactorGavs, map_cons, workspaceGavs, workspaceGavs, filterMap_map,
    map_filterMap]
  congr 1
  refine filterMap_congr fun package _ => ?_
  cases hworkspace : package.workspaceModule with
  | none => simp [hworkspace]
  | some path => simp [hworkspace, reversion, ArtifactCoord.of]

theorem SameModule.mem_reactorGavs (h : SameModule m n) :
    entry ∈ reactorGavs m ↔ entry ∈ reactorGavs n := by
  rw [reactorGavs, reactorGavs, mem_cons, mem_cons, h.gav, h.path, workspaceGavs,
    (h.packages.filterMap _).mem_iff, workspaceGavs]

theorem mem_reactorGavs_canonicalizeModule :
    entry ∈ reactorGavs (canonicalizeModule module) ↔ entry ∈ reactorGavs module := by
  have hperm : (canonicalizeModule module).packages.Perm module.packages := by
    rw [canonicalizeModule_packages]
    exact sortBy_perm _ _
  rw [reactorGavs, mem_cons, workspaceGavs, (hperm.filterMap _).mem_iff, reactorGavs, mem_cons]
  rfl

def blank (gav : Gav) : Gav :=
  { gav with version := [] }

theorem GavText.blank_isPrefix_iff (hx : GavText x) (hy : GavText y) (version : Text) :
    (blank x).display <+: { y with version }.display ↔
      x.group = y.group ∧ x.artifact = y.artifact := by
  constructor
  · rintro ⟨rest, hrest⟩
    have hdisplay : { x with version := rest }.display = { y with version }.display := by
      rw [← hrest]
      simp [Gav.display, blank]
    exact ⟨(hx.parts_eq hy hdisplay).1, (hx.parts_eq hy hdisplay).2.1⟩
  · rintro ⟨hgroup, hartifact⟩
    refine ⟨version, ?_⟩
    simp [Gav.display, blank, hgroup, hartifact]

/-- Two members of the reactor that a module names have the group and artifact of a text. -/
def SharedName (module : LockModule) (text : Text) : Prop :=
  ∃ a ∈ reactorGavs module, ∃ b ∈ reactorGavs module,
    a.2 ≠ b.2 ∧ blank a.1 = blank b.1 ∧ (blank a.1).display <+: text

instance (module : LockModule) (text : Text) : Decidable (SharedName module text) :=
  inferInstanceAs (Decidable (∃ a ∈ _, ∃ b ∈ _, _))

/-- The members of the reactor that a module names are told apart by group and
artifact. -/
def DistinctNames (module : LockModule) : Prop :=
  ∀ a ∈ reactorGavs module, ∀ b ∈ reactorGavs module, blank a.1 = blank b.1 → a.2 = b.2

instance (module : LockModule) : Decidable (DistinctNames module) :=
  inferInstanceAs (Decidable (∀ _ ∈ _, _))

/-- What the checks say about a module, as far as adoption needs it: the texts
of its GAVs and models, and the versions of its workspace packages. -/
structure Adoptable (module : LockModule) (own : Text → Option Text) : Prop where
  gavs : ∀ entry ∈ reactorGavs module, GavText entry.1 ∧ own entry.2 = some entry.1.version
  models : ∀ range ∈ module.parentRanges, ∃ gav, GavText gav ∧ range.model = gav.display

theorem Adoptable.versioned (h : Adoptable module own) : module.Versioned own := by
  intro package hpackage path hpath
  refine (h.gavs (package.coordinate.gav, path) (mem_cons_of_mem _ ?_)).2
  exact mem_filterMap.mpr ⟨package, hpackage, by rw [Option.mem_def.mp hpath]; rfl⟩

theorem Adoptable.path (h : Adoptable module own) : own module.path = some module.gav.version :=
  (h.gavs _ mem_cons_self).2

/-- Two modules that are equal with blank versions name the same members of the
reactor. -/
theorem mem_blank_reactorGavs (hm : m.Versioned own) (hn : n.Versioned fresh)
    (hblank : BlankAlike m own n fresh) {gav : Gav} {path : Text}
    (hmem : (gav, path) ∈ reactorGavs m) :
    ∃ gav', (gav', path) ∈ reactorGavs n ∧ gav'.group = gav.group ∧
      gav'.artifact = gav.artifact := by
  have hsame : (gavAt (fun _ => none) gav path, path) ∈ _ ↔ _ :=
    (SameModule.of_canonicalizeModule_eq hblank).mem_reactorGavs
  rw [reactorGavs_replaceVersions hm.canonicalizeModule,
    reactorGavs_replaceVersions hn.canonicalizeModule] at hsame
  have hleft := hsame.mp (mem_map.mpr
    ⟨(gav, path), mem_reactorGavs_canonicalizeModule.mpr hmem, rfl⟩)
  obtain ⟨⟨gav', path'⟩, hmem', heq⟩ := mem_map.mp hleft
  obtain ⟨hgav, rfl⟩ := Prod.mk.inj heq
  exact ⟨gav', mem_reactorGavs_canonicalizeModule.mp hmem', (Gav.mk.inj hgav).1,
    (Gav.mk.inj hgav).2.1⟩

theorem Adoptable.renameAll_of_notMem (h : Adoptable module own) (hmodel : GavText model)
    (hmem : ¬∃ path, (model, path) ∈ reactorGavs module) (versions : Text → Option Text) :
    renameAll (renamings module versions) model.display = model.display := by
  refine Lock.renameAll_of_notMem fun pair hpair heq => ?_
  obtain ⟨entry, hentry, rfl⟩ := mem_map.mp hpair
  rw [← (h.gavs entry hentry).1.display_inj hmodel heq] at hmem
  exact hmem ⟨entry.2, hentry⟩

theorem Adoptable.renameAll_blank (h : Adoptable module own) {path : Text}
    (hmem : (model, path) ∈ reactorGavs module) :
    renameAll (renamings module fun _ => none) model.display = (blank model).display := by
  refine renameAll_of_mem (mem_map_of_mem hmem) fun other hother heq => ?_
  obtain ⟨entry, hentry, rfl⟩ := mem_map.mp hother
  have hentry := (h.gavs entry hentry).1
  rcases heq with heq | heq
  · simp only [renameOf, hentry.display_inj (h.gavs _ hmem).1 heq, gavAt]
  · exact absurd (hentry.parts_eq (h.gavs _ hmem).1 heq).2.2 hentry.version

/-- A member whose name no other has is told by its group and artifact. -/
theorem Adoptable.eq_of_not_shared (h : Adoptable module own) {path : Text}
    (hmem : (model, path) ∈ reactorGavs module) (halone : ¬SharedName module model.display)
    (hentry : entry ∈ reactorGavs module) (hgroup : entry.1.group = model.group)
    (hartifact : entry.1.artifact = model.artifact) : entry = (model, path) := by
  obtain ⟨hgav, hversion⟩ := h.gavs entry hentry
  obtain ⟨hgav', hversion'⟩ := h.gavs _ hmem
  have hpath : entry.2 = path := by
    by_contra hne
    exact halone ⟨entry, hentry, _, hmem, hne, by simp only [blank, hgroup, hartifact],
      (hgav.blank_isPrefix_iff hgav' model.version).mpr ⟨hgroup, hartifact⟩⟩
  rw [hpath, hversion', Option.some.injEq] at hversion
  have heq : entry.1 = model := by
    obtain ⟨⟨group, artifact, version⟩, path'⟩ := entry
    exact Gav.mk.injEq _ _ _ _ _ _ ▸ ⟨hgroup, hartifact, hversion.symm⟩
  exact Prod.ext heq hpath

theorem Adoptable.renameAll_own (h : Adoptable module own) {path : Text}
    (hmem : (model, path) ∈ reactorGavs module) (halone : ¬SharedName module model.display)
    (versions : Text → Option Text) :
    renameAll (renamings module versions) model.display = (gavAt versions model path).display := by
  refine renameAll_of_mem (mem_map_of_mem hmem) fun other hother heq => ?_
  obtain ⟨entry, hentry, rfl⟩ := mem_map.mp hother
  rcases heq with heq | heq
  all_goals
    obtain ⟨hgroup, hartifact, -⟩ := (h.gavs entry hentry).1.parts_eq (h.gavs _ hmem).1 heq
    rw [h.eq_of_not_shared hmem halone hentry hgroup hartifact]

def unblankings (module : LockModule) (versions : Text → Option Text) : List (Text × Text) :=
  (reactorGavs module).map fun entry =>
    ((blank entry.1).display, (gavAt versions entry.1 entry.2).display)

theorem Adoptable.unblank (h : Adoptable module own) {path version : Text}
    (hmem : (model, path) ∈ reactorGavs module) (halone : ¬SharedName module model.display)
    (hversion : versions path = some version) (hne : version ≠ []) :
    renameAll (unblankings module versions) (blank model).display =
      { model with version }.display := by
  have hpair : ((blank model).display, { model with version }.display) ∈
      unblankings module versions := by
    refine mem_map.mpr ⟨_, hmem, ?_⟩
    simp only [gavAt, hversion, Option.getD_some]
  refine renameAll_of_mem hpair fun other hother heq => ?_
  obtain ⟨entry, hentry, rfl⟩ := mem_map.mp hother
  rcases heq with heq | heq
  · obtain ⟨hgroup, hartifact, -⟩ := (h.gavs entry hentry).1.parts_eq (h.gavs _ hmem).1 heq
    rw [h.eq_of_not_shared hmem halone hentry hgroup hartifact]
    simp only [gavAt, hversion, Option.getD_some]
  · exact absurd ((h.gavs entry hentry).1.parts_eq (h.gavs _ hmem).1 heq).2.2.symm hne

theorem Adoptable.unblank_of_gavText (h : Adoptable module own) (hmodel : GavText model) :
    renameAll (unblankings module versions) model.display = model.display := by
  refine Lock.renameAll_of_notMem fun pair hpair heq => ?_
  obtain ⟨entry, hentry, rfl⟩ := mem_map.mp hpair
  exact hmodel.version ((h.gavs entry hentry).1.parts_eq hmodel heq).2.2.symm

/-- The models of a module with blank versions, whatever the order of its
packages. -/
theorem blank_parentRanges_perm (h : Adoptable module own) :
    (replaceVersions (canonicalizeModule module) own fun _ => none).parentRanges.Perm
      (module.parentRanges.map (ParentRange.rename (renamings module fun _ => none))) := by
  rw [replaceVersions_parentRanges h.versioned.canonicalizeModule]
  have h' : Adoptable (canonicalizeModule module) own :=
    ⟨fun entry hentry => h.gavs entry (mem_reactorGavs_canonicalizeModule.mp hentry),
      fun range hrange => h.models range ((mem_sortBy _).mp hrange)⟩
  refine ((sortBy_perm _ _).map _).trans (.of_eq (map_congr_left fun range hrange => ?_))
  obtain ⟨gav, hgav, hmodel⟩ := h.models range hrange
  rw [ParentRange.rename, ParentRange.rename, hmodel]
  by_cases hmem : ∃ path, (gav, path) ∈ reactorGavs module
  · obtain ⟨path, hmem⟩ := hmem
    rw [h.renameAll_blank hmem, h'.renameAll_blank (mem_reactorGavs_canonicalizeModule.mpr hmem)]
  · rw [h.renameAll_of_notMem hgav hmem, h'.renameAll_of_notMem hgav]
    simpa only [mem_reactorGavs_canonicalizeModule] using hmem

theorem Adoptable.sharedName_version (h : Adoptable module own) (hx : GavText x) (version : Text) :
    SharedName module { x with version }.display ↔ SharedName module x.display := by
  have hiff : ∀ a ∈ reactorGavs module, (blank a.1).display <+: { x with version }.display ↔
      (blank a.1).display <+: x.display := fun a ha =>
    ((h.gavs a ha).1.blank_isPrefix_iff hx version).trans
      ((h.gavs a ha).1.blank_isPrefix_iff hx x.version).symm
  constructor
  · rintro ⟨a, ha, b, hb, hne, heq, hprefix⟩
    exact ⟨a, ha, b, hb, hne, heq, (hiff a ha).mp hprefix⟩
  · rintro ⟨a, ha, b, hb, hne, heq, hprefix⟩
    exact ⟨a, ha, b, hb, hne, heq, (hiff a ha).mpr hprefix⟩

/-- Renaming keeps groups and artifacts, and so who shares them. -/
theorem Adoptable.sharedName_renameAll (h : Adoptable n fresh) (hm : Adoptable m own)
    (versions : Text → Option Text) (text : Text) :
    SharedName m (renameAll (renamings n versions) text) ↔ SharedName m text := by
  refine renameAll_iff (fun pair hpair => ?_) text
  obtain ⟨entry, hentry, rfl⟩ := mem_map.mp hpair
  exact (hm.sharedName_version (h.gavs entry hentry).1 _).symm

/-- The parent ranges with a model whose name two members share. -/
def sharedRanges (m n : LockModule) : List ParentRange :=
  n.parentRanges.filter fun range => SharedName m range.model

/-- The renamings of `m` in turn lead its parent ranges to those of `n`, where two members of the
reactor share a name. -/
def RenamesTo (versions : Text → Option Text) (m n : LockModule) : Prop :=
  ((sharedRanges m m).map (ParentRange.rename (renamings m versions))).Perm (sharedRanges m n)

section Pair

variable (hm : Adoptable m own) (hn : Adoptable n fresh) (hversions : Adoptable n versions)
  (hblank : BlankAlike m own n fresh)
include hm hn hversions hblank

/-- The other models are named by adoption as the fresh lockfile names them. -/
theorem unshared_parentRanges_perm :
    ((m.parentRanges.filter fun range => ¬SharedName m range.model).map
        (ParentRange.rename (renamings m versions))).Perm
      (n.parentRanges.filter fun range => ¬SharedName m range.model) := by
  have hperm := ((blank_parentRanges_perm hm).symm.trans
    (SameModule.of_canonicalizeModule_eq hblank).parentRanges).trans (blank_parentRanges_perm hn)
  have hperm := (hperm.filter fun range => ¬SharedName m range.model).map
    (ParentRange.rename (unblankings m versions))
  simp only [filter_map, Function.comp_def, ParentRange.rename, hm.sharedName_renameAll hm,
    hn.sharedName_renameAll hm, map_map] at hperm
  refine (Perm.of_eq (map_congr_left fun range hrange => ?_)).trans
    (hperm.trans (.of_eq ((map_congr_left fun range hrange => ?_).trans (map_id _))))
  · obtain ⟨hrange, halone⟩ := mem_filter.mp hrange
    obtain ⟨gav, hgav, hmodel⟩ := hm.models range hrange
    rw [hmodel, decide_eq_true_eq] at halone
    simp only [ParentRange.rename, hmodel]
    by_cases hmem : ∃ path, (gav, path) ∈ reactorGavs m
    · obtain ⟨path, hmem⟩ := hmem
      obtain ⟨gav', hmem', -⟩ := mem_blank_reactorGavs hm.versioned hn.versioned hblank hmem
      obtain ⟨hgav', hversion⟩ := hversions.gavs _ hmem'
      rw [hm.renameAll_own hmem halone, hm.renameAll_blank hmem,
        hm.unblank hmem halone hversion hgav'.version, gavAt, hversion]
      rfl
    · rw [hm.renameAll_of_notMem hgav hmem, hm.renameAll_of_notMem hgav hmem,
        hm.unblank_of_gavText hgav]
  · obtain ⟨hrange, halone⟩ := mem_filter.mp hrange
    obtain ⟨gav, hgav, hmodel⟩ := hn.models range hrange
    rw [hmodel, decide_eq_true_eq] at halone
    have hname : renameAll (unblankings m versions)
        (renameAll (renamings n fun _ => none) gav.display) = gav.display := by
      by_cases hmem : ∃ path, (gav, path) ∈ reactorGavs n
      · obtain ⟨path, hmem⟩ := hmem
        obtain ⟨gav', hmem', hgroup, hartifact⟩ :=
          mem_blank_reactorGavs hn.versioned hm.versioned hblank.symm hmem
        have hblanked : blank gav = blank gav' := by simp only [blank, hgroup, hartifact]
        have hgav' : gav = { gav' with version := gav.version } := by rw [hgroup, hartifact]
        rw [hn.renameAll_blank hmem, hblanked,
          hm.unblank hmem' ?_ (hversions.gavs _ hmem).2 hgav.version, ← hgav']
        rwa [← hm.sharedName_version (hm.gavs _ hmem').1 gav.version, ← hgav']
      · rw [hn.renameAll_of_notMem hgav hmem, hm.unblank_of_gavText hgav]
    simp only [hmodel, hname, id_eq]
    rw [← hmodel]

/-- Adoption names the models as the fresh lockfile does exactly if it does so where two members
share a name. -/
theorem parentRanges_perm_iff :
    (m.parentRanges.map (ParentRange.rename (renamings m versions))).Perm n.parentRanges ↔
      RenamesTo versions m n := by
  have hunshared := unshared_parentRanges_perm hm hn hversions hblank
  constructor
  · intro h
    have hshared := h.filter fun range => SharedName m range.model
    simpa only [filter_map, Function.comp_def, ParentRange.rename, RenamesTo, sharedRanges,
      hm.sharedName_renameAll hm] using hshared
  · intro h
    have happend := h.append hunshared
    rw [← map_append] at happend
    have hsplit : ∀ ranges : List ParentRange,
        ((ranges.filter fun range => SharedName m range.model) ++
          ranges.filter fun range => ¬SharedName m range.model).Perm ranges := by
      intro ranges
      simpa using filter_append_perm (fun range => decide (SharedName m range.model)) ranges
    exact (((hsplit _).map _).symm.trans happend).trans (hsplit _)

end Pair

/-! ## Checked lockfiles -/

theorem eq_of_splitReactorGav {group artifact version : Text}
    (h : splitReactorGav text = some (group, artifact, version)) :
    text = (Gav.mk group artifact version).display ∧ GavText ⟨group, artifact, version⟩ := by
  simp only [splitReactorGav, Option.bind_eq_bind, Option.bind_eq_some_iff] at h
  obtain ⟨⟨first, rest⟩, hfirst, ⟨second, third⟩, hsecond, h⟩ := h
  obtain ⟨rfl, hgroup⟩ := Text.splitOnce_eq hfirst
  obtain ⟨rfl, hartifact⟩ := Text.splitOnce_eq hsecond
  split at h
  · cases h
  rename_i hne
  cases h
  simp only [Bool.or_eq_true, List.isEmpty_iff, not_or] at hne
  exact ⟨rfl, hgroup, hartifact, hne.2⟩

theorem moduleVersions_eq_some_iff {modules : List LockModule} {path version : Text}
    (h : (modules.map (·.path)).Nodup) : moduleVersions modules path = some version ↔
      ∃ m, (m ∈ modules ∧ m.path = path) ∧ m.gav.version = version := by
  simp only [moduleVersions, Option.map_eq_some_iff,
    lookupLast_eq_some_iff (inj_on_of_nodup_map h)]

theorem check_gavText [Lowercase] [UrlParser] (h : check lock = .ok ()) (hp : p ∈ lock.platforms)
    (hm : m ∈ p.modules) : GavText m.gav := by
  have hfields := check_moduleFields h hp hm
  simp only [checkModuleFields, bind_unit_eq_ok_iff, checkField_eq_ok_iff] at hfields
  obtain ⟨-, -, hgroup, hartifact, hversion, -⟩ := hfields
  exact ⟨notMem_of_validateCoordinateComponent hgroup (.inr (by decide)),
    notMem_of_validateCoordinateComponent hartifact (.inr (by decide)),
    (validateReactorVersion_eq_ok hversion).1⟩

theorem validatePackage_workspace {entry : LockPlatform} {path : Text} {used : Option ℕ}
    (h : validatePackage entry path package = .ok used) {workspace : Text}
    (hworkspace : package.workspaceModule = some workspace) :
    ∃ m ∈ entry.modules, m.path = workspace ∧ package.coordinate.gav = m.gav := by
  simp only [validatePackage, bind_unit_eq_ok_iff] at h
  obtain ⟨-, -, h⟩ := h
  rw [hworkspace] at h
  obtain ⟨m, hfind, h⟩ := bind_eq_ok h
  simp only [bind_unit_eq_ok_iff, refuseIf_eq_ok_iff, bne_eq_false_iff_eq] at h
  obtain ⟨hmem, hpath⟩ := find?_key_mem (orFault_eq_ok hfind)
  exact ⟨m, hmem, hpath, h.1⟩

theorem checkParentRange_model [Lowercase] {invalid : LockError} {seen : List ParentRange}
    {selection : ParentRange} (h : checkParentRange invalid seen selection = .ok ()) :
    ∃ gav, GavText gav ∧ selection.model = gav.display := by
  obtain ⟨⟨parts, hsplit⟩, -⟩ := checkParentRange_eq_ok h
  obtain ⟨htext, hgav⟩ := eq_of_splitReactorGav hsplit
  exact ⟨_, hgav, htext⟩

theorem check_adoptable [Lowercase] [UrlParser] (h : check lock = .ok ()) (hp : p ∈ lock.platforms)
    (hm : m ∈ p.modules) : Adoptable m (moduleVersions p.modules) := by
  obtain ⟨hpaths, -, hmodules⟩ := validatePlatform_modules ((check_eq_ok h).2.entries p hp)
  refine ⟨fun entry hentry => ?_, fun range hrange => ?_⟩
  · have hmodule : ∃ k ∈ p.modules, k.path = entry.2 ∧ entry.1 = k.gav := by
      rcases mem_cons.mp hentry with rfl | hentry
      · exact ⟨m, hm, rfl, rfl⟩
      obtain ⟨package, hpackage, heq⟩ := mem_filterMap.mp hentry
      obtain ⟨path, hpath, rfl⟩ := Option.map_eq_some_iff.mp heq
      obtain ⟨used, hused⟩ := hmodules m hm
      obtain ⟨-, -, hrows, -⟩ := validateModule_eq_ok hused
      obtain ⟨used, hrow⟩ := hrows package hpackage
      exact validatePackage_workspace hrow hpath
    obtain ⟨k, hk, hpath, hgav⟩ := hmodule
    rw [hgav, ← hpath]
    exact ⟨check_gavText h hp hk, (moduleVersions_eq_some_iff hpaths).mpr ⟨k, ⟨hk, rfl⟩, rfl⟩⟩
  · have hfields := check_moduleFields h hp hm
    simp only [checkModuleFields, bind_unit_eq_ok_iff] at hfields
    obtain ⟨before, after, hl⟩ := append_of_mem hrange
    exact checkParentRange_model (checkEach_eq_ok_iff.mp hfields.2.1 before range after hl)

/-! ## Platforms without drift -/

theorem modulePairDrift_eq_none {platform : Platform} {left right : LockModule}
    (h : modulePairDrift platform own fresh left right = none) :
    left.path = right.path ∧ (left = right ∨ withModuleVersions left own (fun _ => none) =
      withModuleVersions right fresh fun _ => none) := by
  rw [modulePairDrift] at h
  split at h
  · cases h
  rename_i hpath
  refine ⟨not_not.mp hpath, ?_⟩
  split at h
  · cases h
  split at h
  · cases h
  · rename_i hsame
    rw [not_and_or, not_not, not_not] at hsame
    exact hsame

theorem moduleDrift_eq_none (h : moduleDrift lhs rhs = none) :
    lhs.modules.map LockModule.path = rhs.modules.map LockModule.path ∧
      ∀ pair ∈ lhs.modules.zip rhs.modules, pair.1 = pair.2 ∨
        withModuleVersions pair.1 (moduleVersions lhs.modules) (fun _ => none) =
          withModuleVersions pair.2 (moduleVersions rhs.modules) fun _ => none := by
  rw [moduleDrift] at h
  split at h
  · cases h
  rename_i hlength
  rw [findSome?_eq_none_iff] at h
  exact ⟨map_eq_map_iff_zip.mpr ⟨not_not.mp hlength, fun hpair =>
      (modulePairDrift_eq_none (h _ hpair)).1⟩,
    fun pair hpair => (modulePairDrift_eq_none (h pair hpair)).2⟩

theorem platformDrift_eq_none (h : platformDrift declared lhs rhs = none) :
    lhs.platform = rhs.platform ∧ moduleDrift lhs rhs = none := by
  rw [platformDrift] at h
  split at h
  · cases h
  rename_i hplatform
  refine ⟨not_not.mp hplatform, ?_⟩
  split at h
  · cases h
  · exact (Option.or_eq_none_iff.mp h).1

theorem resolutionDrift_eq_none [Lowercase] [UrlParser] [ContentHash] {fresh : Lockfile}
    (h : resolutionDrift lock fresh declared = none) :
    ∃ a b, canonical lock = .ok a ∧ canonical fresh = .ok b ∧
      a.platforms.map (·.platform) = b.platforms.map (·.platform) ∧
      ∀ pair ∈ a.platforms.zip b.platforms, moduleDrift pair.1 pair.2 = none := by
  rw [resolutionDrift] at h
  split at h
  · rename_i a b ha hb
    refine ⟨a, b, ha, hb, ?_⟩
    split at h
    · cases h
    split at h
    · cases h
    split at h
    · cases h
    rename_i hlength
    rw [findSome?_eq_none_iff] at h
    exact ⟨map_eq_map_iff_zip.mpr ⟨not_not.mp hlength, fun hpair =>
        (platformDrift_eq_none (h _ hpair)).1⟩,
      fun pair hpair => (platformDrift_eq_none (h pair hpair)).2⟩
  · cases h

theorem mem_canonical_platforms [Lowercase] [UrlParser] [ContentHash]
    (h : canonical lock = .ok form)
    (hp : p ∈ lock.platforms) : canonicalPlatform lock p ∈ form.platforms := by
  rw [canonical_eq_ok h]
  exact mem_map_of_mem ((mem_sortBy _).mpr hp)

theorem nodup_canonical_platforms [Lowercase] [UrlParser] [ContentHash]
    (h : canonical lock = .ok form)
    (hlock : (lock.platforms.map (·.platform)).Nodup) :
    (form.platforms.map (·.platform)).Nodup := by
  have hmap : form.platforms.map (·.platform) =
      (sortBy (·.platform.display) lock.platforms).map (·.platform) := by
    rw [canonical_eq_ok h, map_map]
    exact map_congr_left fun entry _ => canonicalPlatform_platform lock entry
  rw [hmap]
  exact ((sortBy_perm _ _).map _).nodup_iff.mpr hlock

theorem moduleDrift_canonicalPlatform [Lowercase] [UrlParser] [ContentHash] {fresh : Lockfile}
    (hdrift : resolutionDrift lock fresh declared = none)
    (hlock : (lock.platforms.map (·.platform)).Nodup) (hp : p ∈ lock.platforms)
    (hq : q ∈ fresh.platforms) (hpq : p.platform = q.platform) :
    moduleDrift (canonicalPlatform lock p) (canonicalPlatform fresh q) = none := by
  obtain ⟨a, b, ha, hb, hplatforms, hmodules⟩ := resolutionDrift_eq_none hdrift
  refine hmodules (canonicalPlatform lock p, canonicalPlatform fresh q) ?_
  refine mem_zip_of_key_eq hplatforms (nodup_canonical_platforms ha hlock)
    (mem_canonical_platforms ha hp) (mem_canonical_platforms hb hq) ?_
  rw [canonicalPlatform_platform, canonicalPlatform_platform, hpq]

theorem path_canonicalModules_perm (p : LockPlatform) :
    ((canonicalModules p).map (·.path)).Perm (p.modules.map (·.path)) := by
  rw [canonicalModules, map_map]
  exact (sortBy_perm _ _).map _

theorem mem_canonicalModules (hm : m ∈ p.modules) : canonicalizeModule m ∈ canonicalModules p :=
  mem_map_of_mem ((mem_sortBy _).mpr hm)

theorem nodup_path_canonicalModules (h : (p.modules.map (·.path)).Nodup) :
    ((canonicalModules p).map (·.path)).Nodup :=
  (path_canonicalModules_perm p).nodup_iff.mpr h

theorem moduleVersions_canonicalModules (h : (p.modules.map (·.path)).Nodup) :
    moduleVersions (canonicalModules p) = moduleVersions p.modules := by
  ext path version
  rw [moduleVersions_eq_some_iff h, moduleVersions_eq_some_iff (nodup_path_canonicalModules h)]
  constructor
  · rintro ⟨row, ⟨hrow, hpath⟩, hversion⟩
    obtain ⟨m, hm, rfl⟩ := mem_map.mp hrow
    exact ⟨m, ⟨(mem_sortBy _).mp hm, hpath⟩, hversion⟩
  · rintro ⟨m, ⟨hm, hpath⟩, hversion⟩
    exact ⟨_, ⟨mem_canonicalModules hm, hpath⟩, hversion⟩

/-- Two platforms whose modules were compared: the same paths, and at each path
modules that are equal with blank versions. -/
structure NoModuleDrift (p q : LockPlatform) : Prop where
  paths : ∀ path, path ∈ p.modules.map (·.path) ↔ path ∈ q.modules.map (·.path)
  modules : ∀ m ∈ p.modules, ∀ n ∈ q.modules, m.path = n.path →
    BlankAlike m (moduleVersions p.modules) n (moduleVersions q.modules)

/-- Packages at the versions of their modules are blanked alike, whatever the
map that tells so. -/
theorem withModuleVersions_congr {own' : Text → Option Text} (h : module.Versioned own)
    (h' : module.Versioned own') (versions : Text → Option Text) :
    withModuleVersions module own versions = withModuleVersions module own' versions := by
  have hreplace : replaceVersions module own versions = replaceVersions module own' versions :=
    LockModule.ext rfl rfl rfl
      ((replaceVersions_packages h versions).trans (replaceVersions_packages h' versions).symm) rfl
      ((replaceVersions_parentRanges h versions).trans
        (replaceVersions_parentRanges h' versions).symm)
      rfl
  rw [withModuleVersions, withModuleVersions, hreplace]

structure CheckedModules (p : LockPlatform) : Prop where
  paths : (p.modules.map (·.path)).Nodup
  adoptable : ∀ m ∈ p.modules, Adoptable m (moduleVersions p.modules)
  indexed : ∀ m ∈ p.modules, m.Indexed

theorem check_modules [Lowercase] [UrlParser] (h : check lock = .ok ()) (hp : p ∈ lock.platforms) :
    CheckedModules p :=
  ⟨(validatePlatform_modules ((check_eq_ok h).2.entries p hp)).1,
    fun _ hm => check_adoptable h hp hm, fun _ hm => (check_module h hp hm).indexed⟩

theorem NoModuleDrift.of_moduleDrift (hl : lhs.modules = canonicalModules p)
    (hr : rhs.modules = canonicalModules q) (hp : CheckedModules p) (hq : CheckedModules q)
    (h : moduleDrift lhs rhs = none) : NoModuleDrift p q := by
  obtain ⟨hpaths, hpairs⟩ := moduleDrift_eq_none h
  rw [hl, hr] at hpaths hpairs
  rw [moduleVersions_canonicalModules hp.paths, moduleVersions_canonicalModules hq.paths] at hpairs
  refine ⟨fun path => ?_, fun m hm n hn hpath => ?_⟩
  · rw [← (path_canonicalModules_perm p).mem_iff, hpaths, (path_canonicalModules_perm q).mem_iff]
  · have hpair := hpairs _ (mem_zip_of_key_eq hpaths (nodup_path_canonicalModules hp.paths)
      (mem_canonicalModules hm) (mem_canonicalModules hn) hpath)
    rcases hpair with heq | hblank
    · have heq : canonicalizeModule m = canonicalizeModule n := heq
      have hversioned := (hp.adoptable m hm).versioned.canonicalizeModule
      rw [BlankAlike, heq]
      rw [heq] at hversioned
      exact withModuleVersions_congr hversioned (hq.adoptable n hn).versioned.canonicalizeModule _
    · exact hblank

theorem Adoptable.adoptedVersions (h : Adoptable n (moduleVersions q.modules)) :
    Adoptable n (Lock.adoptedVersions p q) := by
  refine ⟨fun entry hentry => ⟨(h.gavs entry hentry).1, ?_⟩, h.models⟩
  rw [Lock.adoptedVersions, (h.gavs entry hentry).2]
  rfl

/-- A module after adoption is the fresh one exactly if its parent ranges are
named as there. -/
theorem canonicalizeModule_withModuleVersions_iff (hm : Adoptable m own) (hmi : m.Indexed)
    (hn : Adoptable n fresh) (hni : n.Indexed) (hversions : Adoptable n versions)
    (hblank : BlankAlike m own n fresh) :
    canonicalizeModule (withModuleVersions m own versions) = canonicalizeModule n ↔
      (replaceVersions m own versions).parentRanges.Perm n.parentRanges := by
  rw [withModuleVersions, canonicalizeModule_canonicalizeModule]
  have hiff := sameModule_replaceVersions_iff hm.versioned hn.versioned hversions.versioned
    hversions.path hblank
  constructor
  · intro h
    exact (SameModule.of_canonicalizeModule_eq h).parentRanges
  intro h
  have hsame := hiff.mpr h
  have hindexed : (replaceVersions m own versions).Indexed := by
    refine ⟨hsame.packages.nodup_iff.mpr hni.packages, fun edge hedge => ?_⟩
    have hlength : (replaceVersions m own versions).packages.length = m.packages.length :=
      length_map _
    rw [hlength]
    exact hmi.edges edge hedge
  exact (canonicalizeModule_eq_iff hindexed hni).mpr hsame

/-- Where two members of the reactor share a name, the renamings of a module in turn lead its
parent ranges to the models of the fresh module. -/
def RenamesShared (p q : LockPlatform) : Prop :=
  ∀ m ∈ p.modules, ∀ n ∈ q.modules, m.path = n.path → RenamesTo (moduleVersions q.modules) m n

/-- Where no module drifts, adoption gives the fresh modules exactly when the renamings of shared
names do. -/
theorem canonicalModules_adopted_iff (hp : CheckedModules p) (hq : CheckedModules q)
    (h : NoModuleDrift p q) :
    canonicalModules (adoptFrom q p) = canonicalModules q ↔ RenamesShared p q := by
  have hmodule : ∀ m ∈ p.modules, ∀ n ∈ q.modules, m.path = n.path →
      (canonicalizeModule (withModuleVersions m (moduleVersions p.modules) (adoptedVersions p q)) =
        canonicalizeModule n ↔ RenamesTo (moduleVersions q.modules) m n) := by
    intro m hm n hn hpath
    have hm' := hp.adoptable m hm
    have hn' := hq.adoptable n hn
    have hblank := h.modules m hm n hn hpath
    have hrenamings : renamings m (adoptedVersions p q) =
        renamings m (moduleVersions q.modules) := by
      refine map_congr_left fun entry hentry => ?_
      obtain ⟨gav, hgav, -⟩ := mem_blank_reactorGavs hm'.versioned hn'.versioned hblank hentry
      simp only [renameOf, gavAt, adoptedVersions, (hn'.gavs _ hgav).2, Option.some_or]
    rw [canonicalizeModule_withModuleVersions_iff hm' (hp.indexed m hm) hn' (hq.indexed n hn)
      hn'.adoptedVersions hblank, replaceVersions_parentRanges hm'.versioned,
      parentRanges_perm_iff hm' hn' hn'.adoptedVersions hblank, RenamesTo, RenamesTo, hrenamings]
  constructor
  · intro heq m hm n hn hpath
    refine (hmodule m hm n hn hpath).mp ?_
    have hmem := mem_canonicalModules (p := adoptFrom q p) (mem_map_of_mem hm)
    rw [heq] at hmem
    obtain ⟨n', hn', hrow⟩ := mem_map.mp hmem
    have hpath' : (canonicalizeModule n').path = m.path := by
      rw [hrow]
      rfl
    obtain rfl := inj_on_of_nodup_map hq.paths ((mem_sortBy _).mp hn') hn (hpath'.trans hpath)
    exact hrow.symm
  · intro hranges
    refine canonicalModules_eq ?_ hq.paths fun row => ⟨fun hrow => ?_, fun hrow => ?_⟩
    · rw [adoptFrom, map_map]
      exact hp.paths
    · simp only [adoptFrom, map_map, mem_map] at hrow ⊢
      obtain ⟨m, hm, rfl⟩ := hrow
      obtain ⟨n, hn, hpath⟩ := mem_map.mp ((h.paths m.path).mp (mem_map_of_mem hm))
      exact ⟨n, hn, ((hmodule m hm n hn hpath.symm).mpr (hranges m hm n hn hpath.symm)).symm⟩
    · simp only [adoptFrom, map_map, mem_map] at hrow ⊢
      obtain ⟨n, hn, rfl⟩ := hrow
      obtain ⟨m, hm, hpath⟩ := mem_map.mp ((h.paths n.path).mpr (mem_map_of_mem hn))
      exact ⟨m, hm, (hmodule m hm n hn hpath).mpr (hranges m hm n hn hpath)⟩

/-! ## Lockfiles without drift -/

theorem adoptPlatform_eq {fresh : Lockfile} (hfresh : (fresh.platforms.map (·.platform)).Nodup)
    (hq : q ∈ fresh.platforms) (hpq : p.platform = q.platform) :
    adoptPlatform fresh p = adoptFrom q p := by
  rw [adoptPlatform, find?_key_eq_some (inj_on_of_nodup_map hfresh) hq hpq.symm]

theorem adoptPlatform_platform (fresh : Lockfile) (p : LockPlatform) :
    (adoptPlatform fresh p).platform = p.platform := by
  rw [adoptPlatform]
  split <;> rfl

theorem DistinctNames.sharedRanges_eq_nil (h : DistinctNames m) (n : LockModule) :
    sharedRanges m n = [] := by
  refine filter_eq_nil_iff.mpr fun range _ hshared => ?_
  obtain ⟨a, ha, b, hb, hne, heq, -⟩ := of_decide_eq_true hshared
  exact hne (h a ha b hb heq)

section Witness

local instance adoptionLowercase : Lowercase := asciiLowercase
local instance adoptionUrls : UrlParser := httpsParser
local instance adoptionHash : ContentHash := sampleHash

/-- Two modules, the first with a remote parent chosen from a range and the
second among its packages. -/
def bumpLock (first second : Gav) : Lockfile :=
  sampleLock [samplePlatform linux []
    [{ sampleModule "pom.xml" first
        [{ samplePackage second with workspaceModule := some "lib/pom.xml" }] with
        parentRanges := [⟨first.display, "com.example:base:[1,2)",
          "com.example:base:1.5"⟩] },
      sampleModule "lib/pom.xml" second []]]

end Witness

end Raeva.Lock
