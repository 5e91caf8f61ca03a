import Raeva.Lock.Canonical
import Raeva.Lock.Check
import Mathlib.Data.Fintype.EquivFin
import Mathlib.Data.List.FinRange

/-!
# Canonical modules as a normal form

The canonical form of a module does not depend on the order in which its packages
stand, and is itself the module with its packages in one such order.
-/

namespace Raeva.Lock

open List

/-! ## Renumbering the packages -/

def moved {n : ℕ} (σ : Equiv.Perm (Fin n)) (index : ℕ) : ℕ :=
  if h : index < n then σ ⟨index, h⟩ else index

/-- The module whose packages are permuted, each edge between the packages it
joined before. -/
def LockModule.relabel (module : LockModule) (σ : Equiv.Perm (Fin module.packages.length)) :
    LockModule :=
  { module with
    packages := List.ofFn fun index => module.packages.get (σ.symm index)
    edges := module.edges.map fun edge =>
      { edge with source := moved σ edge.source, target := moved σ edge.target } }

section Relabel

variable {module : LockModule} {σ : Equiv.Perm (Fin module.packages.length)}

theorem getElem?_relabel (σ : Equiv.Perm (Fin module.packages.length)) (index : ℕ) :
    (module.relabel σ).packages[moved σ index]? = module.packages[index]? := by
  rw [LockModule.relabel, moved]
  by_cases h : index < module.packages.length
  · simp [h]
  · simp [h]

theorem namedEdges_relabel : namedEdges (module.relabel σ) = namedEdges module := by
  rw [namedEdges, LockModule.relabel, map_map]
  apply map_congr_left
  intro edge _
  have hsource := getElem?_relabel σ edge.source
  have htarget := getElem?_relabel σ edge.target
  rw [LockModule.relabel] at hsource htarget
  simp only [Function.comp_apply, hsource, htarget]

theorem packages_relabel_perm : (module.relabel σ).packages.Perm module.packages := by
  have hperm := Equiv.Perm.ofFn_comp_perm σ.symm module.packages.get
  rw [ofFn_get] at hperm
  exact hperm

theorem sameModule_relabel : SameModule (module.relabel σ) module where
  path := rfl
  gav := rfl
  packaging := rfl
  packages := packages_relabel_perm
  edges := List.Perm.of_eq namedEdges_relabel
  parentRanges := List.Perm.refl _
  supportPoms _ := Iff.rfl

theorem LockModule.Indexed.relabel (h : module.Indexed) : (module.relabel σ).Indexed := by
  have hlength : (module.relabel σ).packages.length = module.packages.length :=
    packages_relabel_perm.length_eq
  have hmoved : ∀ index < module.packages.length, moved σ index < module.packages.length := by
    intro index hindex
    rw [moved, dif_pos hindex]
    exact (σ ⟨index, hindex⟩).isLt
  refine ⟨packages_relabel_perm.nodup_iff.mpr h.packages, ?_⟩
  intro edge hedge
  obtain ⟨old, hold, rfl⟩ := mem_map.mp hedge
  rw [hlength]
  exact ⟨hmoved _ (h.edges old hold).1, hmoved _ (h.edges old hold).2⟩

end Relabel

/-! ## The canonical order -/

theorem exists_packageIndex_eq_moved {module : LockModule} (h : module.Indexed) :
    ∃ σ : Equiv.Perm (Fin module.packages.length),
      ∀ index < module.packages.length, packageIndex module index = moved σ index := by
  have hlength : (canonicalizeModule module).packages.length = module.packages.length := by
    rw [canonicalizeModule_packages, length_sortBy]
  have hlt : ∀ index, index < module.packages.length →
      packageIndex module index < module.packages.length := by
    intro index hindex
    have hget := getElem?_packageIndex module index
    rw [getElem?_eq_getElem hindex] at hget
    rw [← hlength]
    exact (List.getElem?_eq_some_iff.mp hget).1
  let move : Fin module.packages.length → Fin module.packages.length :=
    fun index => ⟨packageIndex module index, hlt index index.isLt⟩
  have hinjective : Function.Injective move := by
    intro i j hij
    have hindex : packageIndex module i = packageIndex module j := congrArg Fin.val hij
    have hi := getElem?_packageIndex module i
    rw [hindex, getElem?_packageIndex module j] at hi
    exact Fin.ext ((getElem?_inj j.isLt h.packages).mp hi).symm
  refine ⟨Equiv.ofBijective move (Finite.injective_iff_bijective.mp hinjective), ?_⟩
  intro index hindex
  rw [moved, dif_pos hindex]
  rfl

/-- The same rows, those without a number of their own in any order. -/
structure SameRows (m n : LockModule) : Prop where
  path : m.path = n.path
  gav : m.gav = n.gav
  packaging : m.packaging = n.packaging
  packages : m.packages = n.packages
  edges : m.edges.Perm n.edges
  parentRanges : m.parentRanges.Perm n.parentRanges
  supportPoms : ∀ coord, coord ∈ m.supportPoms ↔ coord ∈ n.supportPoms

/-- The canonical form renumbers the packages and reorders the other rows. -/
theorem exists_sameRows_canonicalizeModule {module : LockModule} (h : module.Indexed) :
    ∃ σ, SameRows (canonicalizeModule module) (module.relabel σ) := by
  obtain ⟨σ, hσ⟩ := exists_packageIndex_eq_moved h
  refine ⟨σ, ⟨rfl, rfl, rfl, ?_, ?_, sortBy_perm _ _, ?_⟩⟩
  · have hlength : (canonicalizeModule module).packages.length =
        (module.relabel σ).packages.length := by
      rw [canonicalizeModule_packages, length_sortBy, packages_relabel_perm.length_eq]
    apply ext_getElem?
    intro index
    by_cases hindex : index < module.packages.length
    · -- Both hold the package that stood where the permutation took `index` from.
      have hold := (σ.symm ⟨index, hindex⟩).isLt
      have hmoved : moved σ (σ.symm ⟨index, hindex⟩) = index := by
        rw [moved, dif_pos hold]
        simp
      have hnew := getElem?_packageIndex module (σ.symm ⟨index, hindex⟩)
      rw [hσ _ hold, ← getElem?_relabel σ, hmoved] at hnew
      exact hnew
    · have hrelabel : (module.relabel σ).packages.length ≤ index := by
        rw [packages_relabel_perm.length_eq]
        exact not_lt.mp hindex
      rw [List.getElem?_eq_none_iff.mpr hrelabel,
        List.getElem?_eq_none_iff.mpr (hlength.trans_le hrelabel)]
  · refine (sortBy_perm _ _).trans (List.Perm.of_eq (map_congr_left ?_))
    intro edge hedge
    rw [hσ _ (h.edges edge hedge).1, hσ _ (h.edges edge hedge).2]
  · intro coord
    exact mem_sortedValues

/-- What `validateModule` accepts has one canonical form in every order of its
packages. -/
theorem canonicalizeModule_normal {entry : LockPlatform} {module : LockModule} {used : List ℕ}
    (h : validateModule entry module = .ok used) :
    canonicalizeModule (canonicalizeModule module) = canonicalizeModule module ∧
      (∀ σ, canonicalizeModule (module.relabel σ) = canonicalizeModule module) ∧
      (∃ σ, SameRows (canonicalizeModule module) (module.relabel σ)) ∧
      (isCanonicalModule module = true ↔ canonicalizeModule module = module) := by
  obtain ⟨hcoordinates, hedges, -, -⟩ := validateModule_eq_ok h
  have hindexed : module.Indexed := ⟨hcoordinates.of_map, hedges⟩
  refine ⟨canonicalizeModule_canonicalizeModule module, ?_,
    exists_sameRows_canonicalizeModule hindexed, ?_⟩
  · intro σ
    exact (canonicalizeModule_eq_iff hindexed.relabel hindexed).mpr sameModule_relabel
  · constructor
    · exact canonicalizeModule_eq_self
    · intro heq
      rw [← heq]
      exact isCanonicalModule_canonicalizeModule module

section Witness

/-- A module whose two packages stand in the wrong order, with an edge between
them. -/
def unsortedModule : LockModule :=
  { sampleModule "pom.xml" (sampleGav "app" "1.0")
      [samplePackage (sampleGav "lib" "1.0"), samplePackage (sampleGav "demo" "1.0")] with
    edges := [⟨0, 1, none, false⟩] }

def unsortedPlatform : LockPlatform :=
  samplePlatform linux
    [sampleArtifact (sampleGav "lib" "1.0"), sampleArtifact (sampleGav "demo" "1.0")]
    [unsortedModule]

theorem canonicalizeModule_normal_unsorted :
    validateModule unsortedPlatform unsortedModule = .ok [0, 1] ∧
      canonicalizeModule (unsortedModule.relabel (Equiv.swap ⟨0, by decide⟩ ⟨1, by decide⟩)) =
        canonicalizeModule unsortedModule ∧
      (canonicalizeModule unsortedModule).edges = [⟨1, 0, none, false⟩] := by
  have hvalid : validateModule unsortedPlatform unsortedModule = .ok [0, 1] := by decide +kernel
  exact ⟨hvalid, (canonicalizeModule_normal hvalid).2.1 _, by decide +kernel⟩

end Witness

end Raeva.Lock
