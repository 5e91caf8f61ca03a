import Mathlib.Data.List.Dedup
import Raeva.Lock.Reads

/-!
# The reads of a platform's modules

After a run every platform it resolved lists the names its graphs read: a name
most modules read in the platform's own list, another in the lists of the
modules that read it, and a name of the run that no graph read in the list of
every platform resolved.  No name is in both lists, and none that was read
again is lost.
-/

namespace Raeva

open List

namespace OrderedMap

variable {κ ν : Type} [LinearOrder κ]

def mapValues (f : ν → ν) (m : OrderedMap κ ν) : OrderedMap κ ν where
  entries := m.entries.map fun entry => (entry.1, f entry.2)
  sorted := pairwise_map.mpr m.sorted

theorem mem_mapValues {f : ν → ν} {m : OrderedMap κ ν} {k : κ} {v : ν} :
    (k, v) ∈ (m.mapValues f).entries ↔ ∃ w, (k, w) ∈ m.entries ∧ f w = v := by
  constructor
  · intro h
    obtain ⟨⟨_, w⟩, hmem, heq⟩ := mem_map.mp h
    cases heq
    exact ⟨w, hmem, rfl⟩
  · rintro ⟨w, hmem, rfl⟩
    exact mem_map.mpr ⟨(k, w), hmem, rfl⟩

end OrderedMap

namespace Lock

def commonReaders : ℕ := 8

def ModelInputs.moduleNames (inputs : ModelInputs) : List AmbientInput :=
  inputs.moduleAmbientInputs.values.flatMap (·.entries)

/-- The names of one platform's lists that were consulted again: those of its own list, and
those of its modules' lists that the own list lacks. -/
def ModelInputs.retained (inputs : ModelInputs) (consulted : AmbientSet) : AmbientSet :=
  inputs.ambientInputs.filter (consulted.entries.contains ·)

def ModelInputs.moduleRead (inputs : ModelInputs) (consulted : AmbientSet) : List AmbientInput :=
  inputs.moduleNames.dedup.filter fun name =>
    consulted.entries.contains name && !(inputs.retained consulted).contains name.display

def ModelInputs.isCommon (inputs : ModelInputs) (modules : ℕ) (name : AmbientInput) : Bool :=
  let count := inputs.moduleNames.count name
  decide (commonReaders ≤ count) && decide (modules < count * 2)

def ModelInputs.bind (inputs : ModelInputs) (modules : ℕ) (consulted : AmbientSet) :
    ModelInputs :=
  let (common, own) := (inputs.moduleRead consulted).partition (inputs.isCommon modules)
  { inputs with
    ambientInputs := common.foldl Ordered.insertNew (inputs.retained consulted)
    moduleAmbientInputs := inputs.moduleAmbientInputs.mapValues fun names =>
      names.filter (own.contains ·) }

def LockPlatform.freshInputs (resolved : List Platform) (entry : LockPlatform) :
    Option ModelInputs :=
  if resolved.contains entry.platform then entry.modelInputs else none

/-- The first loop over the resolved platforms: each is bound, and `claimed` gathers the names
of `consulted` that some platform lists. -/
def bindPlatforms (resolved : List Platform) (consulted : AmbientSet) :
    List LockPlatform → List AmbientInput → List LockPlatform × List AmbientInput
  | [], claimed => ([], claimed)
  | entry :: entries, claimed =>
    match entry.freshInputs resolved with
    | none =>
      let (entries, claimed) := bindPlatforms resolved consulted entries claimed
      (entry :: entries, claimed)
    | some inputs =>
      let bound := inputs.bind entry.modules.length consulted
      let read := (inputs.retained consulted).entries ++ inputs.moduleRead consulted
      let (entries, claimed) := bindPlatforms resolved consulted entries (claimed ++ read)
      ({ entry with modelInputs := some bound } :: entries, claimed)

def ModelInputs.extend (inputs : ModelInputs) (names : List AmbientInput) : ModelInputs :=
  { inputs with ambientInputs := names.foldl Ordered.insertNew inputs.ambientInputs }

def LockPlatform.extendReads (resolved : List Platform) (names : List AmbientInput)
    (entry : LockPlatform) : LockPlatform :=
  match entry.freshInputs resolved with
  | none => entry
  | some inputs => { entry with modelInputs := some (inputs.extend names) }

def bindModuleReads (lock : Lockfile) (resolved : List Platform) (consulted : AmbientSet) :
    Lockfile :=
  let (entries, claimed) := bindPlatforms resolved consulted lock.platforms []
  let unclaimed := consulted.entries.filter fun input =>
    input.isPropertyName && !claimed.contains input
  { lock with platforms := entries.map (·.extendReads resolved unclaimed) }

/-! ## One platform -/

section Platform

variable {inputs : ModelInputs} {modules : ℕ} {consulted : AmbientSet} {name : AmbientInput}

theorem ModelInputs.mem_retained : name ∈ (inputs.retained consulted).entries ↔
    name ∈ inputs.ambientInputs.entries ∧ name ∈ consulted.entries := by
  rw [retained, Ordered.filter, mem_filter, contains_iff_mem]

theorem ModelInputs.mem_moduleNames : name ∈ inputs.moduleNames ↔
    ∃ path names, (path, names) ∈ inputs.moduleAmbientInputs.entries ∧ name ∈ names.entries := by
  simp only [moduleNames, OrderedMap.values, mem_flatMap, mem_map, Prod.exists]
  constructor
  · rintro ⟨_, ⟨path, names, hmem, rfl⟩, hname⟩
    exact ⟨path, names, hmem, hname⟩
  · rintro ⟨path, names, hmem, hname⟩
    exact ⟨names, ⟨path, names, hmem, rfl⟩, hname⟩

theorem ModelInputs.mem_moduleRead : name ∈ inputs.moduleRead consulted ↔
    name ∈ inputs.moduleNames ∧ name ∈ consulted.entries ∧
      (inputs.retained consulted).contains name.display = false := by
  rw [moduleRead, mem_filter, mem_dedup, Bool.and_eq_true, contains_iff_mem, Bool.not_eq_true']

theorem mem_of_contains_display {names : AmbientSet} (hnames : ∀ name ∈ names.entries,
    name ∈ consulted.entries) (hname : name ∈ consulted.entries)
    (h : names.contains name.display = true) : name ∈ names.entries := by
  obtain ⟨other, hother, hdisplay⟩ := Ordered.contains_iff.mp h
  have heq : other = name := consulted.eq_of_key_eq (hnames other hother) hname hdisplay
  exact heq ▸ hother

theorem ModelInputs.bind_eq : inputs.bind modules consulted = { inputs with
      ambientInputs := ((inputs.moduleRead consulted).filter (inputs.isCommon modules)).foldl
        Ordered.insertNew (inputs.retained consulted)
      moduleAmbientInputs := inputs.moduleAmbientInputs.mapValues fun names => names.filter
        (((inputs.moduleRead consulted).filter (!inputs.isCommon modules ·)).contains ·) } := by
  rw [bind, partition_eq_filter_filter]
  rfl

theorem ModelInputs.mem_bind_ambientInputs :
    name ∈ (inputs.bind modules consulted).ambientInputs.entries ↔
      name ∈ (inputs.retained consulted).entries ∨
        name ∈ inputs.moduleRead consulted ∧ inputs.isCommon modules name = true := by
  rw [bind_eq, ← mem_filter]
  apply Ordered.mem_foldl_insertNew_iff (u := consulted)
  · intro other hother
    exact (mem_retained.mp hother).2
  · intro other hother
    exact (mem_moduleRead.mp (mem_filter.mp hother).1).2.1

theorem ModelInputs.mem_bind_moduleAmbientInputs {path : Text} {bound : AmbientSet} :
    (path, bound) ∈ (inputs.bind modules consulted).moduleAmbientInputs.entries ↔
      ∃ names, (path, names) ∈ inputs.moduleAmbientInputs.entries ∧ names.filter
        (((inputs.moduleRead consulted).filter (!inputs.isCommon modules ·)).contains ·) =
          bound := by
  rw [bind_eq]
  exact OrderedMap.mem_mapValues

theorem ModelInputs.mem_consulted_of_mem_bind
    (h : name ∈ (inputs.bind modules consulted).ambientInputs.entries) :
    name ∈ consulted.entries := by
  rcases mem_bind_ambientInputs.mp h with h | ⟨h, -⟩
  · exact (mem_retained.mp h).2
  · exact (mem_moduleRead.mp h).2.1

theorem ModelInputs.of_mem_moduleNames_bind
    (h : name ∈ (inputs.bind modules consulted).moduleNames) :
    name ∈ inputs.moduleRead consulted ∧ inputs.isCommon modules name = false := by
  obtain ⟨path, bound, hbound, hname⟩ := mem_moduleNames.mp h
  obtain ⟨names, -, rfl⟩ := mem_bind_moduleAmbientInputs.mp hbound
  have hown := contains_iff_mem.mp (mem_filter.mp hname).2
  obtain ⟨hread, hcommon⟩ := mem_filter.mp hown
  exact ⟨hread, by simpa using hcommon⟩

/-- No module lists a name of its platform. -/
def ModelInputs.Apart (inputs : ModelInputs) : Prop :=
  ∀ name ∈ inputs.moduleNames, inputs.ambientInputs.contains name.display = false

def ModelInputs.Covers (consulted : AmbientSet) (old new : ModelInputs) : Prop :=
  (∀ name ∈ old.ambientInputs.entries, name ∈ consulted.entries →
    name ∈ new.ambientInputs.entries) ∧
  ∀ path names, (path, names) ∈ old.moduleAmbientInputs.entries →
    ∃ bound, (path, bound) ∈ new.moduleAmbientInputs.entries ∧
      ∀ name ∈ names.entries, name ∈ consulted.entries →
        name ∈ bound.entries ∨ name ∈ new.ambientInputs.entries

def ModelInputs.Lists (inputs : ModelInputs) (name : AmbientInput) : Prop :=
  name ∈ inputs.ambientInputs.entries ∨ name ∈ inputs.moduleNames

theorem ModelInputs.apart_bind : (inputs.bind modules consulted).Apart := by
  intro name hname
  obtain ⟨hread, hcommon⟩ := of_mem_moduleNames_bind hname
  obtain ⟨-, hconsulted, hretained⟩ := mem_moduleRead.mp hread
  rw [Bool.eq_false_iff]
  intro hcontains
  have hmem := mem_of_contains_display (fun _ => mem_consulted_of_mem_bind) hconsulted hcontains
  rcases mem_bind_ambientInputs.mp hmem with hmem | ⟨-, hcommon'⟩
  · have := Ordered.contains_iff.mpr ⟨name, hmem, rfl⟩
    rw [hretained] at this
    cases this
  · rw [hcommon] at hcommon'
    cases hcommon'

theorem ModelInputs.mem_claimed_iff :
    name ∈ (inputs.retained consulted).entries ++ inputs.moduleRead consulted ↔
      inputs.Lists name ∧ name ∈ consulted.entries := by
  rw [mem_append, mem_retained, mem_moduleRead, Lists]
  constructor
  · rintro (⟨h, hconsulted⟩ | ⟨h, hconsulted, -⟩)
    · exact ⟨.inl h, hconsulted⟩
    · exact ⟨.inr h, hconsulted⟩
  · rintro ⟨h | h, hconsulted⟩
    · exact .inl ⟨h, hconsulted⟩
    by_cases hretained : (inputs.retained consulted).contains name.display = true
    · have hmem := mem_of_contains_display (fun _ h => (mem_retained.mp h).2) hconsulted hretained
      exact .inl (mem_retained.mp hmem)
    · exact .inr ⟨h, hconsulted, by simpa using hretained⟩

theorem ModelInputs.covers_bind : Covers consulted inputs (inputs.bind modules consulted) := by
  constructor
  · intro name hname hconsulted
    exact mem_bind_ambientInputs.mpr (.inl (mem_retained.mpr ⟨hname, hconsulted⟩))
  intro path names hnames
  refine ⟨_, mem_bind_moduleAmbientInputs.mpr ⟨names, hnames, rfl⟩, ?_⟩
  intro name hname hconsulted
  have hlists : inputs.Lists name := .inr (mem_moduleNames.mpr ⟨path, names, hnames, hname⟩)
  rcases mem_append.mp (mem_claimed_iff.mpr ⟨hlists, hconsulted⟩) with hmem | hread
  · exact .inr (mem_bind_ambientInputs.mpr (.inl hmem))
  by_cases hcommon : inputs.isCommon modules name = true
  · exact .inr (mem_bind_ambientInputs.mpr (.inr ⟨hread, hcommon⟩))
  · refine .inl (mem_filter.mpr ⟨hname, contains_iff_mem.mpr ?_⟩)
    exact mem_filter.mpr ⟨hread, by simpa using hcommon⟩

theorem ModelInputs.Covers.refl : Covers consulted inputs inputs :=
  ⟨fun _ hname _ => hname, fun _ names hnames => ⟨names, hnames, fun _ hname _ => .inl hname⟩⟩

theorem ModelInputs.Covers.lists {old new : ModelInputs} (h : Covers consulted old new)
    (hname : name ∈ consulted.entries) (hold : old.Lists name) : new.Lists name := by
  rcases hold with hold | hold
  · exact .inl (h.1 name hold hname)
  obtain ⟨path, names, hnames, hmem⟩ := mem_moduleNames.mp hold
  obtain ⟨bound, hbound, hcovers⟩ := h.2 path names hnames
  rcases hcovers name hmem hname with hmem | hmem
  · exact .inr (mem_moduleNames.mpr ⟨path, bound, hbound, hmem⟩)
  · exact .inl hmem

end Platform

/-! ## All platforms -/

section Platforms

variable {resolved : List Platform} {consulted : AmbientSet} {names : List AmbientInput}
  {entry : LockPlatform} {inputs : ModelInputs} {name : AmbientInput}

theorem LockPlatform.freshInputs_eq_some :
    entry.freshInputs resolved = some inputs ↔
      entry.platform ∈ resolved ∧ entry.modelInputs = some inputs := by
  rw [freshInputs, ← contains_iff_mem]
  split
  · next h => exact (and_iff_right h).symm
  · next h =>
      exact ⟨fun hnone => (Option.some_ne_none _ hnone.symm).elim, fun hmem => (h hmem.1).elim⟩

def LockPlatform.bindReads (resolved : List Platform) (consulted : AmbientSet)
    (names : List AmbientInput) (entry : LockPlatform) : LockPlatform :=
  match entry.freshInputs resolved with
  | none => entry
  | some inputs =>
    { entry with
      modelInputs := some ((inputs.bind entry.modules.length consulted).extend names) }

theorem LockPlatform.bindReads_of_none (h : entry.freshInputs resolved = none) :
    entry.bindReads resolved consulted names = entry := by
  rw [bindReads, h]

theorem LockPlatform.bindReads_of_some (h : entry.freshInputs resolved = some inputs) :
    entry.bindReads resolved consulted names = { entry with
      modelInputs := some ((inputs.bind entry.modules.length consulted).extend names) } := by
  rw [bindReads, h]

theorem LockPlatform.extendReads_of_none (h : entry.freshInputs resolved = none) :
    entry.extendReads resolved names = entry := by
  rw [extendReads, h]

theorem LockPlatform.extendReads_bound {bound : ModelInputs}
    (h : entry.freshInputs resolved = some inputs) :
    LockPlatform.extendReads resolved names { entry with modelInputs := some bound } =
      { entry with modelInputs := some (bound.extend names) } := by
  have hbound : LockPlatform.freshInputs resolved { entry with modelInputs := some bound } =
      some bound := freshInputs_eq_some.mpr ⟨(freshInputs_eq_some.mp h).1, rfl⟩
  rw [extendReads, hbound]

theorem map_extendReads_bindPlatforms (entries : List LockPlatform) (claimed : List AmbientInput) :
    (bindPlatforms resolved consulted entries claimed).1.map (·.extendReads resolved names) =
      entries.map (·.bindReads resolved consulted names) := by
  induction entries generalizing claimed with
  | nil => rfl
  | cons entry entries ih =>
    rw [map_cons, bindPlatforms]
    cases hfresh : entry.freshInputs resolved with
    | none =>
      rw [LockPlatform.bindReads_of_none hfresh, ← ih claimed]
      exact congrArg (· :: _) (LockPlatform.extendReads_of_none hfresh)
    | some inputs =>
      rw [LockPlatform.bindReads_of_some hfresh, ← ih]
      exact congrArg (· :: _) (LockPlatform.extendReads_bound hfresh)

theorem mem_bindPlatforms_snd {entries : List LockPlatform} {claimed : List AmbientInput} :
    name ∈ (bindPlatforms resolved consulted entries claimed).2 ↔
      name ∈ claimed ∨ ∃ entry ∈ entries, ∃ inputs, entry.freshInputs resolved = some inputs ∧
        inputs.Lists name ∧ name ∈ consulted.entries := by
  induction entries generalizing claimed with
  | nil => simp [bindPlatforms]
  | cons entry entries ih =>
    rw [bindPlatforms, exists_mem_cons_iff]
    cases hfresh : entry.freshInputs resolved with
    | none => simp [ih]
    | some inputs =>
      simp only [ih, Option.some.injEq, exists_eq_left']
      rw [mem_append, ModelInputs.mem_claimed_iff, or_assoc]

def unclaimedNames (lock : Lockfile) (resolved : List Platform) (consulted : AmbientSet) :
    List AmbientInput :=
  consulted.entries.filter fun input => input.isPropertyName &&
    !(bindPlatforms resolved consulted lock.platforms []).2.contains input

theorem platforms_bindModuleReads (lock : Lockfile) :
    (bindModuleReads lock resolved consulted).platforms =
      lock.platforms.map
        (·.bindReads resolved consulted (unclaimedNames lock resolved consulted)) :=
  map_extendReads_bindPlatforms lock.platforms []

theorem mem_unclaimedNames {lock : Lockfile} :
    name ∈ unclaimedNames lock resolved consulted ↔
      name ∈ consulted.entries ∧ name.isPropertyName = true ∧ ∀ entry ∈ lock.platforms,
        ∀ inputs, entry.freshInputs resolved = some inputs → ¬inputs.Lists name := by
  rw [unclaimedNames, mem_filter, Bool.and_eq_true, Bool.not_eq_true', Bool.eq_false_iff,
    ne_eq, contains_iff_mem, mem_bindPlatforms_snd]
  refine and_congr_right fun hconsulted => and_congr_right fun _ => ?_
  constructor
  · intro hclaimed entry hentry inputs hinputs hlists
    exact hclaimed (.inr ⟨entry, hentry, inputs, hinputs, hlists, hconsulted⟩)
  · rintro hlists (hmem | ⟨entry, hentry, inputs, hinputs, hname, -⟩)
    · cases hmem
    · exact hlists entry hentry inputs hinputs hname

theorem ModelInputs.mem_extend (hinputs : ∀ name ∈ inputs.ambientInputs.entries,
    name ∈ consulted.entries) (hnames : ∀ name ∈ names, name ∈ consulted.entries) :
    name ∈ (inputs.extend names).ambientInputs.entries ↔
      name ∈ inputs.ambientInputs.entries ∨ name ∈ names :=
  Ordered.mem_foldl_insertNew_iff hinputs hnames

theorem ModelInputs.Covers.extend {old : ModelInputs} (h : Covers consulted old inputs) :
    Covers consulted old (inputs.extend names) := by
  constructor
  · intro name hold hconsulted
    exact Ordered.mem_foldl_insertNew_of_mem (h.1 name hold hconsulted)
  intro path listed hlisted
  obtain ⟨bound, hbound, hcovers⟩ := h.2 path listed hlisted
  refine ⟨bound, hbound, fun name hname hconsulted => ?_⟩
  exact (hcovers name hname hconsulted).imp_right Ordered.mem_foldl_insertNew_of_mem

theorem ModelInputs.Apart.extend (h : inputs.Apart) (consulted : AmbientSet)
    (hmodules : ∀ name ∈ inputs.moduleNames, name ∈ consulted.entries)
    (hnames : ∀ name ∈ names, name ∈ consulted.entries ∧ name ∉ inputs.moduleNames) :
    (inputs.extend names).Apart := by
  intro name hname
  rw [Bool.eq_false_iff]
  intro hcontains
  obtain ⟨other, hother, hdisplay⟩ := Ordered.contains_iff.mp hcontains
  rcases Ordered.mem_foldl_insertNew hother with hother | hother
  · have hheld := Ordered.contains_iff.mpr ⟨other, hother, hdisplay⟩
    rw [h name hname] at hheld
    cases hheld
  · have heq := consulted.eq_of_key_eq (hnames other hother).1 (hmodules name hname) hdisplay
    exact (hnames other hother).2 (heq ▸ hname)

variable {lock : Lockfile}

theorem bound_of_mem (consulted : AmbientSet) (hentry : entry ∈ lock.platforms)
    (hfresh : entry.freshInputs resolved = some inputs) :
    let bound := (inputs.bind entry.modules.length consulted).extend
      (unclaimedNames lock resolved consulted)
    bound.Apart ∧ ModelInputs.Covers consulted inputs bound := by
  refine ⟨ModelInputs.apart_bind.extend consulted ?_ ?_, ModelInputs.covers_bind.extend⟩
  · intro name hname
    have hread := (ModelInputs.of_mem_moduleNames_bind hname).1
    exact (ModelInputs.mem_moduleRead.mp hread).2.1
  · intro name hname
    obtain ⟨hconsulted, -, hunclaimed⟩ := mem_unclaimedNames.mp hname
    refine ⟨hconsulted, fun hmodule => hunclaimed entry hentry inputs hfresh (.inr ?_)⟩
    have hread := (ModelInputs.of_mem_moduleNames_bind hmodule).1
    exact (ModelInputs.mem_moduleRead.mp hread).1

theorem exists_lists_of_mem (hentry : entry ∈ lock.platforms)
    (hfresh : entry.freshInputs resolved = some inputs) (hconsulted : name ∈ consulted.entries)
    (hname : name.isPropertyName = true) :
    ∃ entry ∈ lock.platforms, ∃ inputs, entry.freshInputs resolved = some inputs ∧
      ((inputs.bind entry.modules.length consulted).extend
        (unclaimedNames lock resolved consulted)).Lists name := by
  by_cases hlisted : ∃ entry ∈ lock.platforms, ∃ inputs,
      entry.freshInputs resolved = some inputs ∧ inputs.Lists name
  · obtain ⟨lister, hlister, listed, hfresh, hlists⟩ := hlisted
    have hcovers := (bound_of_mem consulted hlister hfresh).2
    exact ⟨lister, hlister, listed, hfresh, hcovers.lists hconsulted hlists⟩
  have hunclaimed : name ∈ unclaimedNames lock resolved consulted :=
    mem_unclaimedNames.mpr ⟨hconsulted, hname, fun entry hentry inputs hfresh hlists =>
      hlisted ⟨entry, hentry, inputs, hfresh, hlists⟩⟩
  refine ⟨entry, hentry, inputs, hfresh, .inl ?_⟩
  apply (ModelInputs.mem_extend (fun _ => ModelInputs.mem_consulted_of_mem_bind) ?_).mpr
  · exact .inr hunclaimed
  · intro other hother
    exact (mem_unclaimedNames.mp hother).1

/-- Binding the reads of a run keeps the lists of each platform resolved apart, loses no name
that was read again, leaves the other platforms as they are, and lists every property name of
the run where there is a platform to list it. -/
theorem bindModuleReads_bound (lock : Lockfile) (resolved : List Platform)
    (consulted : AmbientSet) :
    List.Forall₂ (fun old new => new.platform = old.platform ∧
        (old.platform ∉ resolved → new = old) ∧
        ∀ inputs, old.modelInputs = some inputs → ∃ bound, new.modelInputs = some bound ∧
          (old.platform ∈ resolved → bound.Apart) ∧ ModelInputs.Covers consulted inputs bound)
      lock.platforms (bindModuleReads lock resolved consulted).platforms ∧
    ((∃ entry ∈ lock.platforms, entry.platform ∈ resolved ∧ entry.modelInputs.isSome = true) →
      ∀ name ∈ consulted.entries, name.isPropertyName = true →
        ∃ entry ∈ (bindModuleReads lock resolved consulted).platforms, entry.platform ∈ resolved ∧
            ∃ inputs, entry.modelInputs = some inputs ∧ inputs.Lists name) := by
  rw [platforms_bindModuleReads]
  constructor
  · rw [forall₂_map_right_iff, forall₂_same]
    intro entry hentry
    cases hfresh : entry.freshInputs resolved with
    | none =>
      rw [LockPlatform.bindReads_of_none hfresh]
      refine ⟨rfl, fun _ => rfl, fun inputs hinputs => ⟨inputs, hinputs, ?_, ?_⟩⟩
      · intro hresolved
        rw [LockPlatform.freshInputs_eq_some.mpr ⟨hresolved, hinputs⟩] at hfresh
        cases hfresh
      · exact .refl
    | some inputs =>
      rw [LockPlatform.bindReads_of_some hfresh]
      obtain ⟨hresolved, hinputs⟩ := LockPlatform.freshInputs_eq_some.mp hfresh
      obtain ⟨hapart, hcovers⟩ := bound_of_mem consulted hentry hfresh
      refine ⟨rfl, fun hnot => absurd hresolved hnot, fun old hold => ⟨_, rfl, fun _ => hapart, ?_⟩⟩
      rw [hinputs] at hold
      cases hold
      exact hcovers
  · rintro ⟨entry, hentry, hresolved, hsome⟩ name hconsulted hname
    obtain ⟨inputs, hinputs⟩ := Option.isSome_iff_exists.mp hsome
    have hfresh := LockPlatform.freshInputs_eq_some.mpr ⟨hresolved, hinputs⟩
    obtain ⟨lister, hlister, listed, hlisted, hlists⟩ :=
      exists_lists_of_mem hentry hfresh hconsulted hname
    refine ⟨_, mem_map_of_mem hlister, ?_⟩
    rw [LockPlatform.bindReads_of_some hlisted]
    exact ⟨(LockPlatform.freshInputs_eq_some.mp hlisted).1, _, rfl, hlists⟩

end Platforms

section Sample

def homeRead : AmbientSet :=
  .ofList [.env "HOME"]

def homeInputs : ModelInputs where
  profiles := []
  pomHashes := .empty
  graphs := .empty
  ambientInputs := homeRead
  moduleAmbientInputs := .ofList [("pom.xml", homeRead)]

/-- A lock whose first platform has no lists and whose second has one name in two of them. -/
def keptLock : Lockfile :=
  sampleLock [samplePlatform linux [] [],
    { samplePlatform macos [] [] with modelInputs := some homeInputs }]

/-- A platform that is not resolved keeps its lists, and a name is listed by none where no
platform resolved has lists. -/
theorem bindModuleReads_unlisted :
    .env "HOME" ∈ homeRead.entries ∧ (AmbientInput.env "HOME").isPropertyName = true ∧
      (∃ entry ∈ (bindModuleReads keptLock [linux] homeRead).platforms,
        ∃ inputs, entry.modelInputs = some inputs ∧ ¬inputs.Apart) ∧
      ¬∃ entry ∈ (bindModuleReads keptLock [linux] homeRead).platforms,
        entry.platform ∈ [linux] ∧ ∃ inputs, entry.modelInputs = some inputs ∧
          inputs.Lists (.env "HOME") := by
  have hbound : (bindModuleReads keptLock [linux] homeRead).platforms = keptLock.platforms := by
    decide +kernel
  rw [hbound]
  refine ⟨by decide, rfl, ?_, ?_⟩
  · refine ⟨_, mem_cons_of_mem _ (mem_singleton_self _), homeInputs, rfl, fun h => ?_⟩
    have hapart := h (.env "HOME") (by decide)
    exact absurd hapart (by decide)
  · rintro ⟨entry, hentry, hplatform, inputs, hinputs, -⟩
    simp only [keptLock, sampleLock, mem_cons, not_mem_nil, or_false] at hentry
    rcases hentry with rfl | rfl
    · cases hinputs
    · exact absurd hplatform (by decide)

end Sample

end Lock

end Raeva
