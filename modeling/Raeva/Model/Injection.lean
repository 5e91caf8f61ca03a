import Raeva.Model.Inheritance

/-!
# Injecting profiles one after another

`injectProfiles` merges the lists of all active profiles in one pass.  Here one
profile is injected at a time, and the two agree: a list that was merged once has
distinct keys, so merging it again keeps its order.
-/

namespace Raeva.Model

open List

section Lists

variable {α κ : Type} [DecidableEq κ] (key : α → κ)

/-- A list with one source's entries over it, each in the place of the entry with
its key or at the end.  A source without entries leaves the list alone. -/
def overlay (target source : List α) : List α :=
  if source.isEmpty then target else Keyed.ofList key (target ++ source)

/-- One source's entries ahead of a list, which keeps the entries with other
keys. -/
def ahead (target source : List α) : List α :=
  if source.isEmpty then target
  else target.foldl (fun merged x => Keyed.insertNew key x merged) (Keyed.ofList key source)

theorem mergeKeyed_nil (target : List α) : mergeKeyed key target [] = target :=
  if_pos rfl

theorem mergeKeyed_cons (target source : List α) (sources : List (List α)) :
    mergeKeyed key target (source :: sources) =
      mergeKeyed key (overlay key target source) sources := by
  cases source with
  | nil =>
    rw [overlay, if_pos isEmpty_nil, mergeKeyed, mergeKeyed]
    simp only [all_cons, isEmpty_nil, Bool.true_and, flatten_cons, nil_append]
  | cons x xs =>
    have hmerged : overlay key target (x :: xs) =
        (x :: xs).foldl (fun merged x => Keyed.insert key x merged) (Keyed.ofList key target) := by
      rw [overlay, isEmpty_cons, if_neg Bool.false_ne_true, Keyed.ofList, Keyed.ofList,
        foldl_append]
    have hone : mergeKeyed key target ((x :: xs) :: sources) =
        sources.flatten.foldl (fun merged x => Keyed.insert key x merged)
          (overlay key target (x :: xs)) := by
      rw [mergeKeyed, all_cons, isEmpty_cons, Bool.false_and,
        if_neg Bool.false_ne_true, flatten_cons, foldl_append, hmerged]
    rw [hone, mergeKeyed]
    split
    · rename_i hempty
      have hflat : sources.flatten = [] := by
        simpa [flatten_eq_nil_iff] using hempty
      rw [hflat, foldl_nil]
    · rw [Keyed.ofList_eq_self]
      rw [hmerged]
      exact Keyed.nodup_foldl_insert key _ (Keyed.nodup_ofList key target)

end Lists

theorem foldr_injectRepositoriesStep_of_isEmpty {active : List Profile}
    (h : active.all (·.repositories.isEmpty) = true) :
    active.foldr injectRepositoriesStep [] = [] := by
  induction active with
  | nil => rfl
  | cons profile active ih =>
    rw [all_cons, Bool.and_eq_true, List.isEmpty_iff] at h
    rw [foldr_cons, ih h.2, injectRepositoriesStep, h.1]
    rfl

theorem injectRepositoriesStep_eq (profile : Profile) (merged : List Repository) :
    injectRepositoriesStep profile merged = (Keyed.ofList Repository.id profile.repositories).foldl
        (fun merged repo => Keyed.insertNew Repository.id repo merged) merged := by
  rw [injectRepositoriesStep,
    Keyed.foldl_insertNew_of_nodup Repository.id (Keyed.nodup_ofList Repository.id _)]

theorem injectRepositories_cons (own : List Repository) (profile : Profile)
    (active : List Profile) :
    injectRepositories own (profile :: active) =
      injectRepositories (ahead Repository.id own profile.repositories) active := by
  by_cases hprofile : profile.repositories.isEmpty = true
  · have hnone : profile.repositories = [] := List.isEmpty_iff.mp hprofile
    rw [ahead, if_pos hprofile, injectRepositories, injectRepositories, all_cons, hprofile,
      Bool.true_and, foldr_cons, injectRepositoriesStep_eq, hnone]
    rfl
  · rw [injectRepositories, all_cons, Bool.eq_false_iff.mpr hprofile, Bool.false_and,
      if_neg Bool.false_ne_true, foldr_cons, injectRepositoriesStep_eq, injectRepositories,
      ahead, if_neg hprofile]
    split
    · rename_i hempty
      rw [foldr_injectRepositoriesStep_of_isEmpty hempty,
        Keyed.foldl_insertNew_of_nodup Repository.id (Keyed.nodup_ofList Repository.id _)]
      simp
    · rw [Keyed.foldl_insertNew_foldl_insertNew]

/-! ## The whole POM -/

structure PomLists where
  dependencies : List Dependency
  dependencyManagement : Option (List Dependency)
  repositories : List Repository
  modules : List Text

def Pom.lists (pom : Pom) : PomLists :=
  ⟨pom.dependencies, pom.dependencyManagement, pom.repositories, pom.modules⟩

def Pom.withLists (pom : Pom) (lists : PomLists) : Pom :=
  { pom with
    dependencies := lists.dependencies
    dependencyManagement := lists.dependencyManagement
    repositories := lists.repositories
    modules := lists.modules }

def PomLists.inject (lists : PomLists) (profile : Profile) : PomLists where
  dependencies := overlay managementKey lists.dependencies profile.dependencies
  dependencyManagement :=
    match profile.dependencyManagement with
    | none => lists.dependencyManagement
    | some managed => some (overlay managementKey (lists.dependencyManagement.getD []) managed)
  repositories := ahead Repository.id lists.repositories profile.repositories
  modules := injectModules lists.modules profile

def injectProfile (pom : Pom) (profile : Profile) : Pom :=
  (injectProperties pom profile).withLists (pom.lists.inject profile)

theorem injectProperties_withLists (pom : Pom) (lists : PomLists) (profile : Profile) :
    injectProperties (pom.withLists lists) profile =
      (injectProperties pom profile).withLists lists := by
  have hfold : ∀ (entries : List (Σ _ : Text, Text)) (pom : Pom),
      entries.foldl (fun pom entry => injectProperty pom entry.1 entry.2) (pom.withLists lists) =
        (entries.foldl (fun pom entry => injectProperty pom entry.1 entry.2) pom).withLists
          lists := by
    intro entries
    induction entries with
    | nil =>
      intro pom
      rfl
    | cons entry entries ih =>
      intro pom
      have hstep : injectProperty (pom.withLists lists) entry.1 entry.2 =
          (injectProperty pom entry.1 entry.2).withLists lists := by
        rw [injectProperty, injectProperty, apply_ite (Pom.withLists · lists)]
        rfl
      rw [foldl_cons, foldl_cons, hstep, ih]
  rw [injectProperties, injectProperties, hfold]
  rfl

theorem foldl_injectProperties_withLists (pom : Pom) (lists : PomLists) (active : List Profile) :
    active.foldl injectProperties (pom.withLists lists) =
      (active.foldl injectProperties pom).withLists lists := by
  induction active generalizing pom with
  | nil => rfl
  | cons profile active ih =>
    rw [foldl_cons, foldl_cons, injectProperties_withLists, ih]

theorem lists_foldl_injectProperties (pom : Pom) (active : List Profile) :
    (active.foldl injectProperties pom).lists = pom.lists := by
  have hlists : active.foldl injectProperties pom =
      (active.foldl injectProperties pom).withLists pom.lists :=
    foldl_injectProperties_withLists pom pom.lists active
  rw [hlists]
  rfl

def PomLists.merge (lists : PomLists) (active : List Profile) : PomLists where
  dependencies := mergeKeyed managementKey lists.dependencies (active.map (·.dependencies))
  dependencyManagement :=
    if (active.filterMap (·.dependencyManagement)).isEmpty then lists.dependencyManagement
    else some (mergeKeyed managementKey (lists.dependencyManagement.getD [])
      (active.filterMap (·.dependencyManagement)))
  repositories := injectRepositories lists.repositories active
  modules := active.foldl injectModules lists.modules

theorem injectProfiles_eq (pom : Pom) (active : List Profile) :
    injectProfiles pom active =
      (active.foldl injectProperties pom).withLists (pom.lists.merge active) := by
  rw [← lists_foldl_injectProperties pom active]
  rfl

theorem merge_dependencyManagement_cons (lists : PomLists) (profile : Profile)
    (active : List Profile) :
    (lists.merge (profile :: active)).dependencyManagement =
      ((lists.inject profile).merge active).dependencyManagement := by
  simp only [PomLists.merge, PomLists.inject]
  cases hmanaged : profile.dependencyManagement with
  | none => rw [filterMap_cons_none hmanaged]
  | some managed =>
    rw [filterMap_cons_some hmanaged, isEmpty_cons, if_neg Bool.false_ne_true,
      mergeKeyed_cons, Option.getD_some]
    split
    · rename_i hnone
      rw [List.isEmpty_iff.mp hnone, mergeKeyed_nil]
    · rfl

theorem PomLists.merge_cons (lists : PomLists) (profile : Profile) (active : List Profile) :
    lists.merge (profile :: active) = (lists.inject profile).merge active := by
  have hdependencies : (lists.merge (profile :: active)).dependencies =
      ((lists.inject profile).merge active).dependencies :=
    mergeKeyed_cons managementKey _ _ _
  have hrepositories : (lists.merge (profile :: active)).repositories =
      ((lists.inject profile).merge active).repositories :=
    injectRepositories_cons _ _ _
  have hmodules : (lists.merge (profile :: active)).modules =
      ((lists.inject profile).merge active).modules := rfl
  have hmanaged := merge_dependencyManagement_cons lists profile active
  cases hleft : lists.merge (profile :: active)
  cases hright : (lists.inject profile).merge active
  rw [hleft, hright] at hdependencies hmanaged hrepositories hmodules
  simp only at hdependencies hmanaged hrepositories hmodules
  rw [hdependencies, hmanaged, hrepositories, hmodules]

/-- Merging the lists of all active profiles in one pass gives the POM that
injecting the profiles one after another gives. -/
theorem injectProfiles_eq_foldl (pom : Pom) (active : List Profile) :
    injectProfiles pom active = active.foldl injectProfile pom := by
  induction active generalizing pom with
  | nil =>
    rw [injectProfiles_eq, foldl_nil, foldl_nil]
    rfl
  | cons profile active ih =>
    have hstep : injectProfiles pom (profile :: active) =
        injectProfiles (injectProfile pom profile) active := by
      rw [injectProfiles_eq, injectProfiles_eq, injectProfile, foldl_cons,
        foldl_injectProperties_withLists, PomLists.merge_cons]
      rfl
    rw [hstep, ih, foldl_cons]

end Raeva.Model
