import Mathlib.Data.List.Destutter
import Mathlib.Tactic.MkIffOfInductiveProp
import Raeva.Library.Utf8
import Raeva.Lock.Ambient
import Raeva.Lock.Origins

/-!
# The configuration hash

The bytes that `config_hash` feeds to the hash, `rv-lock/src/inputs.rs`.  They
bind the configuration: each part says where it ends, and the first byte of an
optional part tells it from what can stand in its place.
-/

namespace Raeva.Lock

open List

structure SettingsProfileInput where
  id : Text
  content : Text
  deriving DecidableEq

/-- One configured repository, its policies as text. -/
structure RepositoryInputs where
  id : Option Text
  url : Text
  releases : Option Bool
  snapshots : Option Bool
  snapshotsUpdatePolicy : Text
  releasesUpdatePolicy : Text
  releasesChecksumPolicy : Text
  snapshotsChecksumPolicy : Text
  deriving DecidableEq

/-- The inputs consulted, each with its current value, in the order of their
texts. -/
abbrev AmbientValues := Ordered fun entry : AmbientInput × Option Text => entry.1.display

structure ResolutionInputs where
  profileSelections : List Text
  activeProfiles : List Text
  inactiveProfiles : List Text
  repositories : List RepositoryInputs
  allowTransitiveRepositories : Bool
  allowEnvSubstitution : List Text
  transitiveRepositoryAllowlist : List Text
  jdks : List Text
  settingsProfiles : List SettingsProfileInput
  ambient : AmbientValues
  deriving DecidableEq

/-! ## The recipe -/

def sortedValues (values : List Text) : List Text :=
  (sortBy id values).destutter (· ≠ ·)

def label (text : String) : List UInt8 :=
  utf8 text.toList

def hashSortedStrings (name : String) (values : List Text) : List UInt8 :=
  label name ++ label ":" ++ counted le64 hashStr (sortedValues values)

def hashUnlessEmpty {α : Type} (name : String) (code : α → List UInt8) (l : List α) : List UInt8 :=
  if l.isEmpty then [] else label name ++ counted le64 code l

def tristate : Option Bool → UInt8
  | none => 0
  | some false => 1
  | some true => 2

def hashFields (repo : RepositoryInputs) : List UInt8 :=
  hashStr (repo.id.getD []) ++ hashStr repo.url ++
    [tristate repo.releases, tristate repo.snapshots] ++ hashStr repo.snapshotsUpdatePolicy ++
    hashStr repo.releasesUpdatePolicy ++ hashStr repo.releasesChecksumPolicy ++
    hashStr repo.snapshotsChecksumPolicy

def hashRepository [UrlParser] (repo : RepositoryInputs) : List UInt8 :=
  hashFields { repo with url := normalizeRepoUrl repo.url }

def hashSettingsProfile (profile : SettingsProfileInput) : List UInt8 :=
  hashStr profile.id ++ hashStr profile.content

def hashAmbient (entry : Text × Option Text) : List UInt8 :=
  hashStr entry.1 ++ framedOption le64 (2 ^ 64 - 1) (entry.2.map utf8)

/-- The consulted inputs that count: all but the names of unset properties and
variables. -/
def countedAmbient (inputs : ResolutionInputs) : List (AmbientInput × Option Text) :=
  inputs.ambient.entries.filter fun (name, value) => value.isSome || !name.isPropertyName

def configPreimage [UrlParser] (inputs : ResolutionInputs) : List UInt8 :=
  hashStr "rv-config-hash-v7" ++
    hashUnlessEmpty "profile_selections:" hashStr inputs.profileSelections ++
    hashSortedStrings "active_profiles" inputs.activeProfiles ++
    hashSortedStrings "inactive_profiles" inputs.inactiveProfiles ++
    label "repositories:" ++ counted le64 hashRepository inputs.repositories ++
    label "security:" ++ [if inputs.allowTransitiveRepositories then 1 else 0] ++
    hashSortedStrings "allow_env_substitution" inputs.allowEnvSubstitution ++
    hashSortedStrings "transitive_repository_allowlist" inputs.transitiveRepositoryAllowlist ++
    hashUnlessEmpty "jdks:" hashStr inputs.jdks ++
    hashUnlessEmpty "settings_profiles:" hashSettingsProfile inputs.settingsProfiles ++
    hashUnlessEmpty "ambient:" hashAmbient
      ((countedAmbient inputs).map fun (name, value) => (name.display, value))

/-- A repository as the recipe takes it: no id is the empty one, and the URL is
normalised. -/
def RepositoryInputs.normal [UrlParser] (repo : RepositoryInputs) : RepositoryInputs :=
  { repo with id := some (repo.id.getD []), url := normalizeRepoUrl repo.url }

/-- Two configurations that differ in nothing but the order and repetition of
values whose order has no meaning, the spelling of repositories, and the names
of properties and variables that are unset. -/
structure SameInputs [UrlParser] (a b : ResolutionInputs) : Prop where
  profileSelections : a.profileSelections = b.profileSelections
  activeProfiles : ∀ id, id ∈ a.activeProfiles ↔ id ∈ b.activeProfiles
  inactiveProfiles : ∀ id, id ∈ a.inactiveProfiles ↔ id ∈ b.inactiveProfiles
  repositories :
    a.repositories.map RepositoryInputs.normal = b.repositories.map RepositoryInputs.normal
  allowTransitiveRepositories : a.allowTransitiveRepositories = b.allowTransitiveRepositories
  allowEnvSubstitution : ∀ name, name ∈ a.allowEnvSubstitution ↔ name ∈ b.allowEnvSubstitution
  transitiveRepositoryAllowlist : ∀ url,
    url ∈ a.transitiveRepositoryAllowlist ↔ url ∈ b.transitiveRepositoryAllowlist
  jdks : a.jdks = b.jdks
  settingsProfiles : a.settingsProfiles = b.settingsProfiles
  ambient : (countedAmbient a).map (fun e => (e.1.display, e.2)) =
    (countedAmbient b).map fun e => (e.1.display, e.2)

/-! ## Values in memory -/

/-- An allocation holds fewer than `2 ^ 63` bytes. -/
def InMemory (text : Text) : Prop :=
  (utf8 text).length < 2 ^ 63

def AllInMemory {α : Type} (P : α → Prop) (l : List α) : Prop :=
  l.length < 2 ^ 63 ∧ ∀ a ∈ l, P a

instance (text : Text) : Decidable (InMemory text) :=
  inferInstanceAs (Decidable (_ < _))

instance {α : Type} (P : α → Prop) [DecidablePred P] (l : List α) : Decidable (AllInMemory P l) :=
  inferInstanceAs (Decidable (_ ∧ _))

@[mk_iff]
structure RepositoryInputs.InMemory [UrlParser] (repo : RepositoryInputs) : Prop where
  id : Lock.InMemory (repo.id.getD [])
  url : Lock.InMemory (normalizeRepoUrl repo.url)
  snapshotsUpdatePolicy : Lock.InMemory repo.snapshotsUpdatePolicy
  releasesUpdatePolicy : Lock.InMemory repo.releasesUpdatePolicy
  releasesChecksumPolicy : Lock.InMemory repo.releasesChecksumPolicy
  snapshotsChecksumPolicy : Lock.InMemory repo.snapshotsChecksumPolicy

@[mk_iff]
structure ResolutionInputs.InMemory [UrlParser] (inputs : ResolutionInputs) : Prop where
  profileSelections : AllInMemory Lock.InMemory inputs.profileSelections
  activeProfiles : AllInMemory Lock.InMemory inputs.activeProfiles
  inactiveProfiles : AllInMemory Lock.InMemory inputs.inactiveProfiles
  repositories : AllInMemory RepositoryInputs.InMemory inputs.repositories
  allowEnvSubstitution : AllInMemory Lock.InMemory inputs.allowEnvSubstitution
  transitiveRepositoryAllowlist : AllInMemory Lock.InMemory inputs.transitiveRepositoryAllowlist
  jdks : AllInMemory Lock.InMemory inputs.jdks
  settingsProfiles : AllInMemory
    (fun profile => Lock.InMemory profile.id ∧ Lock.InMemory profile.content)
      inputs.settingsProfiles
  ambient : AllInMemory
    (fun e => Lock.InMemory e.1.display ∧ ∀ value ∈ e.2, Lock.InMemory value) inputs.ambient.entries

instance [UrlParser] (repo : RepositoryInputs) : Decidable repo.InMemory :=
  decidable_of_iff' _ repo.inMemory_iff

instance [UrlParser] (inputs : ResolutionInputs) : Decidable inputs.InMemory :=
  decidable_of_iff' _ inputs.inMemory_iff

/-! ## The parts of the recipe say where they end -/

variable {s t : List UInt8} {α : Type} {name : String} {values : List Text} {first : UInt8}

theorem mem_sortedValues {t : Text} : t ∈ sortedValues values ↔ t ∈ values := by
  have hsorted : (sortBy id values).Pairwise (· ≤ ·) := sortBy_sorted id values
  rw [sortedValues, hsorted.destutter_eq_dedup, mem_dedup, mem_sortBy]

theorem sortedValues_sorted (values : List Text) : (sortedValues values).Pairwise (· < ·) := by
  have hsorted : (sortBy id values).Pairwise (· ≤ ·) := sortBy_sorted id values
  have hnodup : (sortedValues values).Nodup := by
    rw [sortedValues, hsorted.destutter_eq_dedup]
    exact nodup_dedup _
  exact ((hsorted.sublist (destutter_sublist _ _)).and hnodup).imp fun h => lt_of_le_of_ne h.1 h.2

theorem sortedValues_eq_iff {a b : List Text} :
    sortedValues a = sortedValues b ↔ ∀ t, t ∈ a ↔ t ∈ b := by
  constructor
  · intro h t
    rw [← mem_sortedValues, h, mem_sortedValues]
  intro h
  have ha := sortedValues_sorted a
  have hb := sortedValues_sorted b
  have hperm : (sortedValues a).Perm (sortedValues b) := by
    refine (perm_ext_iff_of_nodup (ha.imp ne_of_lt) (hb.imp ne_of_lt)).mpr fun t => ?_
    rw [mem_sortedValues, mem_sortedValues, h]
  exact eq_of_perm_of_sorted hperm (fun _ _ _ _ hkey => hkey) (ha.imp le_of_lt) (hb.imp le_of_lt)

theorem AllInMemory.sortedValues {P : Text → Prop} (h : AllInMemory P values) :
    AllInMemory P (Lock.sortedValues values) := by
  refine ⟨lt_of_le_of_lt ?_ h.1, fun t ht => h.2 t (mem_sortedValues.mp ht)⟩
  exact (destutter_sublist _ _).length_le.trans (length_sortBy _ _).le

theorem hashStr_inMemory : SelfDelimiting InMemory hashStr :=
  hashStr_selfDelimiting.mono fun _ h => h.trans (by decide)

theorem counted_inMemory {P : α → Prop} {code : α → List UInt8} (h : SelfDelimiting P code) :
    SelfDelimiting (AllInMemory P) (counted le64 code) :=
  (le64_selfDelimiting.counted h).mono fun _ hl => ⟨hl.1.trans (by decide), hl.2⟩

theorem hashSortedStrings_inj {v v' : List Text} (hv : AllInMemory InMemory v)
    (hv' : AllInMemory InMemory v')
    (h : hashSortedStrings name v ++ s = hashSortedStrings name v' ++ t) :
    (∀ x, x ∈ v ↔ x ∈ v') ∧ s = t := by
  simp only [hashSortedStrings, append_assoc] at h
  have h := append_cancel_left (append_cancel_left h)
  obtain ⟨hvalues, hrest⟩ := counted_inMemory hashStr_inMemory hv.sortedValues hv'.sortedValues h
  exact ⟨fun x => by rw [← mem_sortedValues, hvalues, mem_sortedValues], hrest⟩

theorem head?_hashUnlessEmpty_append {code : α → List UInt8} {l : List α}
    (hname : (label name).head? = some first) :
    (hashUnlessEmpty name code l ++ s).head? = if l.isEmpty then s.head? else some first := by
  rw [hashUnlessEmpty]
  split
  · rfl
  · simp [hname]

theorem hashUnlessEmpty_inj {P : α → Prop} {code : α → List UInt8} (hcode : SelfDelimiting P code)
    {l l' : List α} (hl : AllInMemory P l) (hl' : AllInMemory P l')
    (hname : (label name).head? = some first) (hs : s.head? ≠ some first)
    (ht : t.head? ≠ some first)
    (h : hashUnlessEmpty name code l ++ s = hashUnlessEmpty name code l' ++ t) :
    l = l' ∧ s = t := by
  have hhead := congrArg List.head? h
  rw [head?_hashUnlessEmpty_append hname, head?_hashUnlessEmpty_append hname] at hhead
  cases l with
  | nil =>
    cases l' with
    | nil => exact ⟨rfl, h⟩
    | cons b l' => exact absurd hhead hs
  | cons a l =>
    cases l' with
    | nil => exact absurd hhead.symm ht
    | cons b l' =>
      simp only [hashUnlessEmpty, isEmpty_cons, Bool.false_eq_true, if_false, append_assoc] at h
      exact counted_inMemory hcode hl hl' (append_cancel_left h)

theorem tristate_injective : Function.Injective tristate := by
  intro a b h
  rcases a with _ | _ | _ <;> rcases b with _ | _ | _ <;> first | rfl | exact absurd h (by decide)

theorem flag_inj {a b : Bool} (h : (if a then (1 : UInt8) else 0) = if b then 1 else 0) :
    a = b := by
  cases a <;> cases b <;> first | rfl | exact absurd h (by decide)

theorem hashRepository_eq [UrlParser] (repo : RepositoryInputs) :
    hashRepository repo = hashFields repo.normal :=
  rfl

theorem hashFields_selfDelimiting [UrlParser] :
    SelfDelimiting (fun repo => ∃ r : RepositoryInputs, r.InMemory ∧ r.normal = repo)
      hashFields := by
  rintro _ _ ⟨a, ha, rfl⟩ ⟨b, hb, rfl⟩ s t h
  rw [← hashRepository_eq, ← hashRepository_eq] at h
  simp only [hashRepository, hashFields, append_assoc, cons_append, nil_append] at h
  obtain ⟨hid, h⟩ := hashStr_inMemory ha.id hb.id h
  obtain ⟨hurl, h⟩ := hashStr_inMemory ha.url hb.url h
  obtain ⟨hreleases, h⟩ := List.cons.inj h
  obtain ⟨hsnapshots, h⟩ := List.cons.inj h
  obtain ⟨hsu, h⟩ := hashStr_inMemory ha.snapshotsUpdatePolicy hb.snapshotsUpdatePolicy h
  obtain ⟨hru, h⟩ := hashStr_inMemory ha.releasesUpdatePolicy hb.releasesUpdatePolicy h
  obtain ⟨hrc, h⟩ := hashStr_inMemory ha.releasesChecksumPolicy hb.releasesChecksumPolicy h
  obtain ⟨hsc, h⟩ := hashStr_inMemory ha.snapshotsChecksumPolicy hb.snapshotsChecksumPolicy h
  refine ⟨?_, h⟩
  simp only [RepositoryInputs.normal, hid, hurl, tristate_injective hreleases,
    tristate_injective hsnapshots, hsu, hru, hrc, hsc]

theorem hashRepositories_inj [UrlParser] {l l' : List RepositoryInputs}
    (hl : AllInMemory RepositoryInputs.InMemory l) (hl' : AllInMemory RepositoryInputs.InMemory l')
    (h : counted le64 hashRepository l ++ s = counted le64 hashRepository l' ++ t) :
    l.map RepositoryInputs.normal = l'.map RepositoryInputs.normal ∧ s = t := by
  have hnormal : ∀ l : List RepositoryInputs, AllInMemory RepositoryInputs.InMemory l →
      AllInMemory (fun repo => ∃ r : RepositoryInputs, r.InMemory ∧ r.normal = repo)
        (l.map RepositoryInputs.normal) := by
    intro l hl
    refine ⟨by simpa using hl.1, forall_mem_map.mpr fun repo hrepo => ?_⟩
    exact ⟨repo, hl.2 repo hrepo, rfl⟩
  have hcode : ∀ l : List RepositoryInputs,
      counted le64 hashRepository l = counted le64 hashFields (l.map RepositoryInputs.normal) :=
    fun l => (counted_map le64 hashFields RepositoryInputs.normal l).symm
  rw [hcode, hcode] at h
  exact counted_inMemory hashFields_selfDelimiting (hnormal l hl) (hnormal l' hl') h

theorem hashSettingsProfile_selfDelimiting :
    SelfDelimiting (fun profile => InMemory profile.id ∧ InMemory profile.content)
      hashSettingsProfile := by
  rintro ⟨id, content⟩ ⟨id', content'⟩ ⟨hid, hcontent⟩ ⟨hid', hcontent'⟩ s t h
  simp only [hashSettingsProfile, append_assoc] at h
  obtain ⟨rfl, h'⟩ := hashStr_inMemory hid hid' h
  obtain ⟨rfl, hrest⟩ := hashStr_inMemory hcontent hcontent' h'
  exact ⟨rfl, hrest⟩

theorem hashAmbient_selfDelimiting :
    SelfDelimiting (fun e : Text × Option Text => InMemory e.1 ∧ ∀ value ∈ e.2, InMemory value)
      hashAmbient := by
  rintro ⟨name, value⟩ ⟨name', value'⟩ ⟨hname, hvalue⟩ ⟨hname', hvalue'⟩ s t h
  have hframed : ∀ value : Option Text, (∀ v ∈ value, InMemory v) →
      ∀ b ∈ value.map utf8, b.length < 2 ^ 64 ∧ b.length ≠ 2 ^ 64 - 1 := by
    intro value hvalue b hb
    obtain ⟨v, hv, rfl⟩ := Option.mem_map.mp hb
    have : (utf8 v).length < 2 ^ 63 := hvalue v hv
    omega
  simp only [hashAmbient, append_assoc] at h
  obtain ⟨rfl, h'⟩ := hashStr_inMemory hname hname' h
  obtain ⟨hbytes, hrest⟩ := le64_selfDelimiting.framedOption (by decide) (hframed value hvalue)
    (hframed value' hvalue') h'
  rw [Option.map_injective utf8_injective hbytes]
  exact ⟨rfl, hrest⟩

theorem countedAmbient_inMemory [UrlParser] {inputs : ResolutionInputs} (h : inputs.InMemory) :
    AllInMemory (fun e : Text × Option Text => InMemory e.1 ∧ ∀ value ∈ e.2, InMemory value)
      ((countedAmbient inputs).map fun e => (e.1.display, e.2)) := by
  refine ⟨?_, fun e he => ?_⟩
  · rw [length_map]
    exact lt_of_le_of_lt (length_filter_le _ _) h.ambient.1
  · obtain ⟨entry, hentry, rfl⟩ := mem_map.mp he
    exact h.ambient.2 entry (mem_of_mem_filter hentry)

theorem optionalParts_inj {jdks jdks' : List Text} {profiles profiles' : List SettingsProfileInput}
    {ambient ambient' : List (Text × Option Text)} (hjdks : AllInMemory InMemory jdks)
    (hjdks' : AllInMemory InMemory jdks')
    (hprofiles : AllInMemory (fun p => InMemory p.id ∧ InMemory p.content) profiles)
    (hprofiles' : AllInMemory (fun p => InMemory p.id ∧ InMemory p.content) profiles')
    (hambient : AllInMemory (fun e => InMemory e.1 ∧ ∀ value ∈ e.2, InMemory value) ambient)
    (hambient' : AllInMemory (fun e => InMemory e.1 ∧ ∀ value ∈ e.2, InMemory value) ambient')
    (h : hashUnlessEmpty "jdks:" hashStr jdks ++
        (hashUnlessEmpty "settings_profiles:" hashSettingsProfile profiles ++
          (hashUnlessEmpty "ambient:" hashAmbient ambient ++ [])) =
      hashUnlessEmpty "jdks:" hashStr jdks' ++
        (hashUnlessEmpty "settings_profiles:" hashSettingsProfile profiles' ++
          (hashUnlessEmpty "ambient:" hashAmbient ambient' ++ []))) :
    jdks = jdks' ∧ profiles = profiles' ∧ ambient = ambient' := by
  have hj : (label "jdks:").head? = some 106 := rfl
  have hs : (label "settings_profiles:").head? = some 115 := rfl
  have ha : (label "ambient:").head? = some 97 := rfl
  have hafter : ∀ l : List (Text × Option Text), ∀ first, first ≠ 97 →
      (hashUnlessEmpty "ambient:" hashAmbient l ++ []).head? ≠ some first := by
    intro l first hne
    rw [head?_hashUnlessEmpty_append ha]
    split <;> simp [hne.symm]
  have hafter' : ∀ (l : List SettingsProfileInput) (m : List (Text × Option Text)),
      (hashUnlessEmpty "settings_profiles:" hashSettingsProfile l ++
        (hashUnlessEmpty "ambient:" hashAmbient m ++ [])).head? ≠ some 106 := by
    intro l m
    rw [head?_hashUnlessEmpty_append hs]
    split
    · exact hafter m 106 (by decide)
    · decide
  obtain ⟨hjdks, h⟩ :=
    hashUnlessEmpty_inj hashStr_inMemory hjdks hjdks' hj (hafter' _ _) (hafter' _ _) h
  obtain ⟨hprofiles, h⟩ := hashUnlessEmpty_inj hashSettingsProfile_selfDelimiting hprofiles
    hprofiles' hs (hafter _ 115 (by decide)) (hafter _ 115 (by decide)) h
  obtain ⟨hambient, -⟩ := hashUnlessEmpty_inj hashAmbient_selfDelimiting hambient hambient' ha
    (by simp) (by simp) h
  exact ⟨hjdks, hprofiles, hambient⟩

theorem SameInputs.countedAmbient_eq [UrlParser] {a b : ResolutionInputs} (h : SameInputs a b)
    (ha : ∀ e ∈ a.ambient.entries, e.1.IsPlain) (hb : ∀ e ∈ b.ambient.entries, e.1.IsPlain) :
    countedAmbient a = countedAmbient b := by
  refine SelfDelimiting.map_inj (P := fun e => e.1.IsPlain) (fun e e' he he' heq => ?_)
    (fun e he => ha e (mem_of_mem_filter he)) (fun e he => hb e (mem_of_mem_filter he)) h.ambient
  obtain ⟨hname, hvalue⟩ := Prod.mk.inj heq
  exact Prod.ext (AmbientInput.display_inj he he' hname) hvalue

/-- Configurations in memory that feed the same bytes to the hash are the same
up to the normalisation of the recipe. -/
theorem configPreimage_binds [UrlParser] {a b : ResolutionInputs} (ha : a.InMemory)
    (hb : b.InMemory)
    (h : configPreimage a = configPreimage b) :
    SameInputs a b ∧ ((∀ e ∈ a.ambient.entries, e.1.IsPlain) →
      (∀ e ∈ b.ambient.entries, e.1.IsPlain) → countedAmbient a = countedAmbient b) := by
  have hp : (label "profile_selections:").head? = some 112 := rfl
  have hafter : ∀ (values : List Text) (s : List UInt8),
      (hashSortedStrings "active_profiles" values ++ s).head? ≠ some 112 := by
    intro values s
    have : (label "active_profiles").head? = some 97 := rfl
    simp [hashSortedStrings, this]
  rw [← append_nil (configPreimage a), ← append_nil (configPreimage b)] at h
  simp only [configPreimage, append_assoc, cons_append, nil_append] at h
  have h := append_cancel_left h
  obtain ⟨hselections, h⟩ := hashUnlessEmpty_inj hashStr_inMemory ha.profileSelections
    hb.profileSelections hp (hafter _ _) (hafter _ _) h
  obtain ⟨hactive, h⟩ := hashSortedStrings_inj ha.activeProfiles hb.activeProfiles h
  obtain ⟨hinactive, h⟩ := hashSortedStrings_inj ha.inactiveProfiles hb.inactiveProfiles h
  have h := append_cancel_left h
  obtain ⟨hrepositories, h⟩ := hashRepositories_inj ha.repositories hb.repositories h
  obtain ⟨htransitive, h⟩ := List.cons.inj (append_cancel_left h)
  obtain ⟨henv, h⟩ := hashSortedStrings_inj ha.allowEnvSubstitution hb.allowEnvSubstitution h
  obtain ⟨hallow, h⟩ := hashSortedStrings_inj ha.transitiveRepositoryAllowlist
    hb.transitiveRepositoryAllowlist h
  obtain ⟨hjdks, hprofiles, hambient⟩ := optionalParts_inj ha.jdks hb.jdks ha.settingsProfiles
    hb.settingsProfiles (countedAmbient_inMemory ha) (countedAmbient_inMemory hb) h
  have hsame : SameInputs a b := ⟨hselections, hactive, hinactive, hrepositories,
    flag_inj htransitive, henv, hallow, hjdks, hprofiles, hambient⟩
  exact ⟨hsame, hsame.countedAmbient_eq⟩

section Witness

local instance inputsUrls : UrlParser := httpsParser

def sampleInputs (active : List Text) (id : Option Text) (ambient : AmbientValues) :
    ResolutionInputs where
  profileSelections := []
  activeProfiles := active
  inactiveProfiles := []
  repositories := [{
    id
    url := "https://repo.example"
    releases := none
    snapshots := some false
    snapshotsUpdatePolicy := "daily"
    releasesUpdatePolicy := "never"
    releasesChecksumPolicy := "warn"
    snapshotsChecksumPolicy := "warn" }]
  allowTransitiveRepositories := false
  allowEnvSubstitution := []
  transitiveRepositoryAllowlist := []
  jdks := ["17"]
  settingsProfiles := []
  ambient

/-- Repeated profiles, an empty id and an unset variable make no difference. -/
theorem configPreimage_binds_sample :
    SameInputs (sampleInputs ["b", "a", "b"] none
        (.insert .empty (.env "HOME", none)))
      (sampleInputs ["a", "b"] (some []) .empty) := by
  exact (configPreimage_binds (by decide +kernel) (by decide +kernel) (by decide +kernel)).1

end Witness

end Raeva.Lock
