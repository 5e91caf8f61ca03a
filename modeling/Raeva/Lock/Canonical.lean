import Raeva.Lock.Inputs
import Raeva.Lock.Lockfile

/-!
# The canonical form of a module

A lockfile is written sorted.  Sorting the packages of a module renumbers
them, so the edges, which name packages by index, are rewritten with them.
-/

namespace Raeva.Lock

open List

/-! ## The orders of the rows -/

def Scope.rank : Scope → ℕ
  | compile => 0
  | .import => 1
  | provided => 2
  | runtime => 3
  | system => 4
  | test => 5

theorem Scope.rank_injective : Function.Injective Scope.rank := by
  intro a b h
  cases a <;> cases b <;> first | rfl | cases h

theorem Scope.asStr_injective : Function.Injective Scope.asStr := by
  intro a b h
  cases a <;> cases b <;> first | rfl | exact absurd h (by decide)

/-- Packages are sorted by their fields in the order of declaration; a missing
field comes first. -/
def LockModulePackage.sortKey (package : LockModulePackage) : List (List Text) :=
  [package.coordinate.sortKey, package.workspaceModule.toList, package.systemPath.toList,
    package.systemSha256.toList.map Hex.hex, package.directScope.toList.map Scope.asStr,
    [package.scope.asStr]]

theorem toList_map_inj {α β : Type} {f : α → β} (hf : Function.Injective f) {a b : Option α}
    (h : a.toList.map f = b.toList.map f) : a = b := by
  have := map_injective_iff.mpr hf h
  cases a <;> cases b <;> simp_all

theorem LockModulePackage.sortKey_injective : Function.Injective sortKey := by
  rintro ⟨c, w, s, d, ds, sc⟩ ⟨c', w', s', d', ds', sc'⟩ h
  simp only [sortKey, List.cons.injEq, and_true] at h
  obtain ⟨hc, hw, hs, hd, hds, hsc⟩ := h
  have hw := toList_map_inj Function.injective_id (by simpa using hw)
  have hs := toList_map_inj Function.injective_id (by simpa using hs)
  have hd := toList_map_inj (fun _ _ => Hex.ext) hd
  have hds := toList_map_inj Scope.asStr_injective hds
  rw [ArtifactCoord.sortKey_injective hc, hw, hs, hd, hds, Scope.asStr_injective hsc]

def LockEdge.sortKey (edge : LockEdge) : List ℕ :=
  [edge.source, edge.target, (edge.scope.map (·.rank + 1)).getD 0, if edge.optional then 1 else 0]

theorem LockEdge.sortKey_injective : Function.Injective sortKey := by
  rintro ⟨s, t, sc, o⟩ ⟨s', t', sc', o'⟩ h
  simp only [sortKey, List.cons.injEq, and_true] at h
  obtain ⟨rfl, rfl, hscope, hoptional⟩ := h
  have hsc : sc = sc' := by
    cases sc with
    | none => cases sc' <;> simp_all
    | some a =>
      cases sc' with
      | none => simp at hscope
      | some b => exact congrArg some (Scope.rank_injective (by simpa using hscope))
  have ho : o = o' := by
    cases o <;> cases o' <;> simp_all
  rw [hsc, ho]

def ParentRange.sortKey (range : ParentRange) : List Text :=
  [range.model, range.parent, range.selected]

theorem ParentRange.sortKey_injective : Function.Injective sortKey := by
  rintro ⟨m, p, s⟩ ⟨m', p', s'⟩ h
  simp_all [sortKey]

/-! ## Sorting a module -/

def indexedPackages (module : LockModule) : List (LockModulePackage × ℕ) :=
  sortBy (fun entry => entry.1.sortKey) module.packages.zipIdx

def packageIndex (module : LockModule) (index : ℕ) : ℕ :=
  ((indexedPackages module).findIdx? fun entry => entry.2 = index).getD index

def canonicalizeModule (module : LockModule) : LockModule :=
  { module with
    packages := (indexedPackages module).map Prod.fst
    edges := sortBy LockEdge.sortKey <| module.edges.map fun edge =>
      { edge with
        source := packageIndex module edge.source
        target := packageIndex module edge.target }
    parentRanges := sortBy ParentRange.sortKey module.parentRanges
    supportPoms := sortedValues module.supportPoms }

def isCanonicalModule (module : LockModule) : Bool :=
  decide (module.packages.Pairwise fun a b => a.sortKey ≤ b.sortKey) &&
    decide (module.edges.Pairwise fun a b => a.sortKey ≤ b.sortKey) &&
    decide (module.parentRanges.Pairwise fun a b => a.sortKey ≤ b.sortKey) &&
    decide (module.supportPoms.Pairwise (· < ·))

theorem indexedPackages_perm (module : LockModule) :
    (indexedPackages module).Perm module.packages.zipIdx :=
  sortBy_perm _ _

theorem canonicalizeModule_packages (module : LockModule) :
    (canonicalizeModule module).packages = sortBy LockModulePackage.sortKey module.packages := by
  have hperm : ((indexedPackages module).map Prod.fst).Perm module.packages := by
    have := (indexedPackages_perm module).map Prod.fst
    rwa [zipIdx_map_fst] at this
  have hsorted : ((indexedPackages module).map Prod.fst).Pairwise (·.sortKey ≤ ·.sortKey) :=
    pairwise_map.mpr (sortBy_sorted _ _)
  exact eq_of_perm_of_sorted (hperm.trans (sortBy_perm _ _).symm)
    (fun _ _ _ _ h => LockModulePackage.sortKey_injective h) hsorted (sortBy_sorted _ _)

/-- An index leads to the same package before and after sorting. -/
theorem getElem?_packageIndex (module : LockModule) (index : ℕ) :
    (canonicalizeModule module).packages[packageIndex module index]? = module.packages[index]? := by
  have hmem : ∀ entry ∈ indexedPackages module, module.packages[entry.2]? = some entry.1 := by
    intro entry hentry
    have := (indexedPackages_perm module).mem_iff.mp hentry
    exact mem_zipIdx_iff_getElem?.mp this
  rw [packageIndex]
  cases hfind : (indexedPackages module).findIdx? fun entry => entry.2 = index with
  | some at_ =>
    obtain ⟨hlt, hat, -⟩ := findIdx?_eq_some_iff_getElem.mp hfind
    have hentry := hmem _ (getElem_mem hlt)
    rw [of_decide_eq_true hat] at hentry
    rw [hentry]
    simp [canonicalizeModule, hlt]
  | none =>
    have hnone : module.packages[index]? = none := by
      rw [← Option.not_isSome_iff_eq_none]
      intro hsome
      obtain ⟨package, hpackage⟩ := Option.isSome_iff_exists.mp hsome
      have hentry : (package, index) ∈ indexedPackages module :=
        (indexedPackages_perm module).mem_iff.mpr (mem_zipIdx_iff_getElem?.mpr hpackage)
      have := findIdx?_eq_none_iff.mp hfind _ hentry
      simp at this
    have hlength : (canonicalizeModule module).packages.length = module.packages.length := by
      rw [canonicalizeModule_packages, length_sortBy]
    rw [Option.getD_none, hnone, List.getElem?_eq_none_iff, hlength]
    exact List.getElem?_eq_none_iff.mp hnone

variable {module m n : LockModule}

theorem canonicalizeModule_eq_self (h : isCanonicalModule module = true) :
    canonicalizeModule module = module := by
  simp only [isCanonicalModule, Bool.and_eq_true, decide_eq_true_eq] at h
  obtain ⟨⟨⟨hpackages, hedges⟩, hranges⟩, hpoms⟩ := h
  have hindexed : indexedPackages module = module.packages.zipIdx := by
    refine sortBy_eq_self ?_
    have := pairwise_map (f := Prod.fst) (l := module.packages.zipIdx)
      (R := fun a b : LockModulePackage => a.sortKey ≤ b.sortKey)
    rw [zipIdx_map_fst] at this
    exact this.mp hpackages
  have hindex : ∀ index, packageIndex module index = index := by
    intro index
    rw [packageIndex, hindexed]
    cases hfind : module.packages.zipIdx.findIdx? fun entry => entry.2 = index with
    | none => rfl
    | some at_ =>
      obtain ⟨hlt, hat, -⟩ := findIdx?_eq_some_iff_getElem.mp hfind
      simpa using hat
  have hvalues : sortedValues module.supportPoms = module.supportPoms := by
    have hsorted : sortBy id module.supportPoms = module.supportPoms :=
      sortBy_eq_self (hpoms.imp le_of_lt)
    rw [sortedValues, hsorted]
    exact destutter_of_isChain _ _ (hpoms.imp ne_of_lt).isChain
  simp only [canonicalizeModule, hindexed, zipIdx_map_fst, hindex, map_id', hvalues,
    sortBy_eq_self hedges, sortBy_eq_self hranges]

theorem isCanonicalModule_canonicalizeModule (module : LockModule) :
    isCanonicalModule (canonicalizeModule module) = true := by
  simp only [isCanonicalModule, Bool.and_eq_true, decide_eq_true_eq]
  refine ⟨⟨⟨?_, sortBy_sorted _ _⟩, sortBy_sorted _ _⟩, sortedValues_sorted _⟩
  rw [canonicalizeModule_packages]
  exact sortBy_sorted _ _

theorem canonicalizeModule_canonicalizeModule (module : LockModule) :
    canonicalizeModule (canonicalizeModule module) = canonicalizeModule module :=
  canonicalizeModule_eq_self (isCanonicalModule_canonicalizeModule module)

/-! ## Modules with one canonical form -/

abbrev NamedEdge :=
  Option LockModulePackage × Option LockModulePackage × Option Scope × Bool

def namedEdges (module : LockModule) : List NamedEdge :=
  module.edges.map fun edge =>
    (module.packages[edge.source]?, module.packages[edge.target]?, edge.scope, edge.optional)

theorem namedEdges_canonicalizeModule (module : LockModule) :
    (namedEdges (canonicalizeModule module)).Perm (namedEdges module) := by
  have hsorted := (sortBy_perm LockEdge.sortKey (module.edges.map fun edge =>
    { edge with
      source := packageIndex module edge.source
      target := packageIndex module edge.target })).map fun edge : LockEdge =>
        ((canonicalizeModule module).packages[edge.source]?,
          (canonicalizeModule module).packages[edge.target]?, edge.scope, edge.optional)
  simp only [map_map, Function.comp_def, getElem?_packageIndex] at hsorted
  exact hsorted

/-- Two modules that are the same but for the order of their rows. -/
structure SameModule (m n : LockModule) : Prop where
  path : m.path = n.path
  gav : m.gav = n.gav
  packaging : m.packaging = n.packaging
  packages : m.packages.Perm n.packages
  edges : (namedEdges m).Perm (namedEdges n)
  parentRanges : m.parentRanges.Perm n.parentRanges
  supportPoms : ∀ coord, coord ∈ m.supportPoms ↔ coord ∈ n.supportPoms

/-- What a checked module has: packages told apart by their rows and edges
between them. -/
structure LockModule.Indexed (module : LockModule) : Prop where
  packages : module.packages.Nodup
  edges : ∀ edge ∈ module.edges,
    edge.source < module.packages.length ∧ edge.target < module.packages.length

theorem LockModule.Indexed.canonicalizeModule (h : module.Indexed) :
    (canonicalizeModule module).Indexed := by
  have hlt : ∀ index, index < module.packages.length →
      packageIndex module index < (Lock.canonicalizeModule module).packages.length := by
    intro index hindex
    have := getElem?_packageIndex module index
    rw [getElem?_eq_getElem hindex] at this
    exact (List.getElem?_eq_some_iff.mp this).1
  refine ⟨?_, ?_⟩
  · rw [canonicalizeModule_packages]
    exact (sortBy_perm _ _).nodup_iff.mpr h.packages
  intro edge hedge
  simp only [Lock.canonicalizeModule, mem_sortBy, mem_map] at hedge
  obtain ⟨old, hold, rfl⟩ := hedge
  exact ⟨hlt _ (h.edges old hold).1, hlt _ (h.edges old hold).2⟩

def unnameEdge (packages : List LockModulePackage) : NamedEdge → LockEdge
  | (source, target, scope, optional) =>
    { source := (source.map packages.idxOf).getD 0
      target := (target.map packages.idxOf).getD 0
      scope, optional }

theorem map_unnameEdge (h : module.Indexed) :
    (namedEdges module).map (unnameEdge module.packages) = module.edges := by
  have hidx : ∀ index, index < module.packages.length →
      (module.packages[index]?.map module.packages.idxOf).getD 0 = index := by
    intro index hindex
    rw [getElem?_eq_getElem hindex, Option.map_some, Option.getD_some]
    exact h.packages.idxOf_getElem index hindex
  have hedge : ∀ edge ∈ module.edges, unnameEdge module.packages
      (module.packages[edge.source]?, module.packages[edge.target]?, edge.scope, edge.optional) =
        edge := by
    intro edge hmem
    obtain ⟨hsource, htarget⟩ := h.edges edge hmem
    rw [unnameEdge, hidx _ hsource, hidx _ htarget]
  rw [namedEdges, map_map]
  exact (map_congr_left hedge).trans (map_id _)

theorem canonicalizeModule_packages_eq (h : m.packages.Perm n.packages) :
    (canonicalizeModule m).packages = (canonicalizeModule n).packages := by
  rw [canonicalizeModule_packages, canonicalizeModule_packages]
  exact sortBy_eq_of_perm h fun _ _ _ _ hkey => LockModulePackage.sortKey_injective hkey

/-- Modules with one canonical form are the same but for the order of their
rows. -/
theorem SameModule.of_canonicalizeModule_eq (h : canonicalizeModule m = canonicalizeModule n) :
    SameModule m n := by
  have hpackages := congrArg LockModule.packages h
  rw [canonicalizeModule_packages, canonicalizeModule_packages] at hpackages
  have hedges := (namedEdges_canonicalizeModule m).symm
  rw [h] at hedges
  have hranges :
      sortBy ParentRange.sortKey m.parentRanges = sortBy ParentRange.sortKey n.parentRanges :=
    congrArg LockModule.parentRanges h
  have hpath : (canonicalizeModule m).path = (canonicalizeModule n).path := by rw [h]
  have hgav : (canonicalizeModule m).gav = (canonicalizeModule n).gav := by rw [h]
  have hpackaging : (canonicalizeModule m).packaging = (canonicalizeModule n).packaging := by rw [h]
  exact ⟨hpath, hgav, hpackaging, perm_of_sortBy_eq hpackages,
    hedges.trans (namedEdges_canonicalizeModule n), perm_of_sortBy_eq hranges,
    sortedValues_eq_iff.mp (congrArg LockModule.supportPoms h)⟩

/-- Modules have one canonical form exactly when they differ in the order of their rows only. -/
theorem canonicalizeModule_eq_iff (hm : m.Indexed) (hn : n.Indexed) :
    canonicalizeModule m = canonicalizeModule n ↔ SameModule m n := by
  constructor
  · exact SameModule.of_canonicalizeModule_eq
  intro h
  have hpackages := canonicalizeModule_packages_eq h.packages
  have hedges : (canonicalizeModule m).edges = (canonicalizeModule n).edges := by
    have hnamed := ((namedEdges_canonicalizeModule m).trans h.edges).trans
      (namedEdges_canonicalizeModule n).symm
    have hperm := hnamed.map (unnameEdge (canonicalizeModule m).packages)
    rw [map_unnameEdge hm.canonicalizeModule, hpackages, map_unnameEdge hn.canonicalizeModule]
      at hperm
    exact eq_of_perm_of_sorted hperm (fun _ _ _ _ hkey => LockEdge.sortKey_injective hkey)
      (sortBy_sorted _ _) (sortBy_sorted _ _)
  have hranges : (canonicalizeModule m).parentRanges = (canonicalizeModule n).parentRanges :=
    sortBy_eq_of_perm h.parentRanges fun _ _ _ _ hkey => ParentRange.sortKey_injective hkey
  have hpoms : (canonicalizeModule m).supportPoms = (canonicalizeModule n).supportPoms :=
    sortedValues_eq_iff.mpr h.supportPoms
  exact LockModule.ext h.path h.gav h.packaging hpackages hedges hranges hpoms

end Raeva.Lock
