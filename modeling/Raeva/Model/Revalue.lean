import Mathlib.Data.List.Forall2
import Raeva.Model.Trust

/-!
# Other values in the fetched POMs

Two parent chains that differ only in the values which their fetched POMs set
record the same origins, and the same values wherever a POM of the project is
the origin.
-/

namespace Raeva.Model

open List

/-- A POM with other values in its properties, its group and version, and its
`<build>` fields. -/
structure Pom.Revalued (pom pom' : Pom) : Prop where
  provenance : pom'.provenance = pom.provenance
  artifactId : pom'.artifactId = pom.artifactId
  packaging : pom'.packaging = pom.packaging
  parent : pom'.parent = pom.parent
  properties : pom'.properties.keys.toFinset = pom.properties.keys.toFinset
  groupId : pom'.groupId.isSome = pom.groupId.isSome
  version : pom'.version.isSome = pom.version.isSome
  build : ∀ field, (pom'.build.field field).join.isSome = (pom.build.field field).join.isSome

/-- A POM of the project stays; a fetched one may set other values. -/
def Pom.Replaces (input : Bool) (pom pom' : Pom) : Prop :=
  if pom.isFetched input then pom.Revalued pom' else pom' = pom

def Chain.Replaces (chain chain' : Chain) : Prop :=
  chain.root.Replaces true chain'.root ∧
    List.Forall₂ (Pom.Replaces false) chain.ancestors chain'.ancestors

namespace Pom.Replaces

variable {input : Bool} {pom pom' : Pom} (h : pom.Replaces input pom')

include h

theorem fetched_or_eq :
    (pom.isFetched input = true ∧ pom.Revalued pom') ∨
      (pom.isFetched input = false ∧ pom' = pom) := by
  rw [Replaces] at h
  split at h
  · rename_i hfetched
    exact .inl ⟨hfetched, h⟩
  · rename_i hfetched
    exact .inr ⟨Bool.not_eq_true _ ▸ hfetched, h⟩

theorem isFetched : pom'.isFetched input = pom.isFetched input := by
  rcases h.fetched_or_eq with ⟨-, h⟩ | ⟨-, rfl⟩
  · rw [Pom.isFetched, Pom.isFetched, h.provenance]
  · rfl

theorem keys : pom'.properties.keys.toFinset = pom.properties.keys.toFinset := by
  rcases h.fetched_or_eq with ⟨-, h⟩ | ⟨-, rfl⟩
  · exact h.properties
  · rfl

theorem artifactId : pom'.artifactId = pom.artifactId := by
  rcases h.fetched_or_eq with ⟨-, h⟩ | ⟨-, rfl⟩
  · exact h.artifactId
  · rfl

theorem packaging : pom'.packaging = pom.packaging := by
  rcases h.fetched_or_eq with ⟨-, h⟩ | ⟨-, rfl⟩
  · exact h.packaging
  · rfl

theorem parent : pom'.parent = pom.parent := by
  rcases h.fetched_or_eq with ⟨-, h⟩ | ⟨-, rfl⟩
  · exact h.parent
  · rfl

theorem ownFields : pom'.ownFields = pom.ownFields := by
  rw [Pom.ownFields, Pom.ownFields, Pom.parentFields, Pom.parentFields, h.artifactId, h.packaging,
    h.parent]

end Pom.Replaces

/-! ## Recorded values -/

/-- Two records of a value: of the same origin, and equal if that is a POM of
the project. -/
structure SameOrigin (value value' : Option (Bool × Text)) : Prop where
  origin : value'.map Prod.fst = value.map Prod.fst
  own : ∀ raw, value = some (false, raw) → value' = some (false, raw)

namespace SameOrigin

theorem refl (value : Option (Bool × Text)) : SameOrigin value value :=
  ⟨rfl, fun _ h => h⟩

variable {value' value : Option (Bool × Text)}

theorem isSome (h : SameOrigin value value') : value'.isSome = value.isSome := by
  have hsome := congrArg Option.isSome h.origin
  rwa [Option.isSome_map, Option.isSome_map] at hsome

theorem none (h : SameOrigin none value') : value' = none := by
  have hsome := h.isSome
  simpa using hsome

theorem or {fetched : Bool} {own own' : Option Text} (hsome : own'.isSome = own.isSome)
    (hown : fetched = false → own' = own) (h : SameOrigin value value') :
    SameOrigin ((own.map fun raw => (fetched, raw)).or value)
      ((own'.map fun raw => (fetched, raw)).or value') := by
  cases own with
  | none =>
    have hnone : own' = .none := by simpa using hsome
    rw [hnone]
    exact h
  | some raw =>
    obtain ⟨raw', rfl⟩ := Option.isSome_iff_exists.mp hsome
    refine ⟨rfl, fun raw₀ hraw => ?_⟩
    have hpair : (fetched, raw) = (false, raw₀) := Option.some.inj hraw
    obtain ⟨rfl, rfl⟩ := Prod.mk.inj hpair
    rw [hown rfl]
    rfl

end SameOrigin

theorem Build.names_nodup : Build.names.Nodup := by decide

theorem lookup_foldl_build (fetched : Bool) {entries : List (Text × Option Text)}
    (hnodup : (entries.map Prod.fst).Nodup) (build : Table Text (Bool × Text)) (field : Text) :
    (entries.foldl (fun build field =>
      match field.2 with
      | some value => build.insert field.1 (fetched, value)
      | none => build) build).lookup field =
      ((entries.lookup field).join.map fun raw => (fetched, raw)).or (build.lookup field) := by
  induction entries generalizing build with
  | nil => rfl
  | cons entry entries ih =>
    obtain ⟨name, value⟩ := entry
    rw [map_cons, nodup_cons] at hnodup
    rw [foldl_cons, ih hnodup.2, lookup_cons]
    by_cases hname : field = name
    · subst hname
      have hnone : entries.lookup field = none := by
        rw [lookup_eq_none_iff]
        intro entry hentry
        have hne : field ≠ entry.1 := fun h => hnodup.1 (mem_map.mpr ⟨entry, hentry, h.symm⟩)
        simpa using hne
      rw [hnone]
      cases value with
      | none => simp
      | some value => simp [AList.lookup_insert]
    · have hbeq : (field == name) = false := by simpa using hname
      rw [hbeq]
      cases value with
      | none => rfl
      | some value => rw [AList.lookup_insert_ne hname]

namespace FetchedValues

theorem record_build (values : FetchedValues) (pom : Pom) (input : Bool) (field : Text) :
    (values.record pom input).build.lookup field =
      ((pom.build.field field).join.map fun raw => (pom.isFetched input, raw)).or
        (values.build.lookup field) :=
  lookup_foldl_build _ (show ((Build.names.zip pom.build.fields).map Prod.fst).Nodup from
    Build.names_nodup) _ _

/-- Two records of the same chain, but for the values of fetched POMs. -/
structure SameOrigins (values values' : FetchedValues) : Prop where
  any : values'.any = values.any
  keys : values'.keys = values.keys
  groupId : SameOrigin values.groupId values'.groupId
  version : SameOrigin values.version values'.version
  own : values'.own = values.own
  build : ∀ field, SameOrigin (values.build.lookup field) (values'.build.lookup field)

variable {input : Bool} {pom pom' : Pom} {values values' : FetchedValues}
  {ancestors ancestors' : List Pom}

theorem SameOrigins.buildField (h : SameOrigins values values') (field : Text) :
    SameOrigin (values.buildField field) (values'.buildField field) := by
  rw [FetchedValues.buildField, FetchedValues.buildField]
  have hfield := h.build field
  cases hvalue : values.build.lookup field with
  | none =>
    rw [hvalue] at hfield
    rw [hfield.none]
    exact SameOrigin.refl _
  | some value =>
    rw [hvalue] at hfield
    obtain ⟨value', hvalue'⟩ := Option.isSome_iff_exists.mp hfield.isSome
    rw [hvalue'] at hfield ⊢
    exact hfield

theorem SameOrigins.record (h : SameOrigins values values') (hpom : pom.Replaces input pom') :
    SameOrigins (values.record pom input) (values'.record pom' input) := by
  have hsome : pom'.groupId.isSome = pom.groupId.isSome ∧ pom'.version.isSome = pom.version.isSome ∧
      ∀ field, (pom'.build.field field).join.isSome = (pom.build.field field).join.isSome := by
    rcases hpom.fetched_or_eq with ⟨-, hpom⟩ | ⟨-, rfl⟩
    · exact ⟨hpom.groupId, hpom.version, hpom.build⟩
    · exact ⟨rfl, rfl, fun _ => rfl⟩
  have hown : pom.isFetched input = false → pom' = pom := by
    rcases hpom.fetched_or_eq with ⟨hfetched, -⟩ | ⟨-, heq⟩
    · exact fun hnot => absurd hfetched (by simp [hnot])
    · exact fun _ => heq
  refine ⟨?_, ?_, ?_, ?_, hpom.ownFields, fun field => ?_⟩
  · simp only [FetchedValues.record, h.any, hpom.isFetched]
  · simp only [FetchedValues.record, h.keys, hpom.isFetched, hpom.keys]
  · simp only [FetchedValues.record, hpom.isFetched]
    exact SameOrigin.or hsome.1 (fun hnot => by rw [hown hnot]) h.groupId
  · simp only [FetchedValues.record, hpom.isFetched]
    exact SameOrigin.or hsome.2.1 (fun hnot => by rw [hown hnot]) h.version
  · rw [record_build, record_build, hpom.isFetched]
    exact SameOrigin.or (hsome.2.2 field) (fun hnot => by rw [hown hnot]) (h.build field)

theorem SameOrigins.start : SameOrigins FetchedValues.start FetchedValues.start :=
  ⟨rfl, rfl, SameOrigin.refl _, SameOrigin.refl _, rfl, fun _ => SameOrigin.refl _⟩

theorem ofChain_sameOrigins (hpom : pom.Replaces input pom')
    (hancestors : List.Forall₂ (Pom.Replaces false) ancestors ancestors') :
    SameOrigins (ofChain pom ancestors input) (ofChain pom' ancestors' input) := by
  induction hancestors generalizing pom pom' input with
  | nil => exact SameOrigins.start.record hpom
  | cons hparent _ ih => exact (ih hparent).record hpom

/-! ## What the effective model takes -/

theorem properties_eq (hpom : pom.Replaces input pom')
    (hancestors : List.Forall₂ (Pom.Replaces false) ancestors ancestors') {key : Text}
    (hkey : key ∉ (ofChain pom ancestors input).keys) :
    (assemble pom' ancestors').properties.lookup key =
      (assemble pom ancestors).properties.lookup key := by
  -- what the POM itself says of the key, and what it leaves to its ancestors
  have hstep : ∀ {values : FetchedValues} {input : Bool} {pom pom' : Pom},
      pom.Replaces input pom' → key ∉ (values.record pom input).keys →
      pom'.properties.lookup key = pom.properties.lookup key ∧
        (pom.properties.lookup key = none → key ∉ values.keys) := by
    intro values input pom pom' hpom hkey
    have hmem : ∀ {pom : Pom}, key ∈ pom.properties.keys.toFinset ↔
        (pom.properties.lookup key).isSome := by
      intro pom
      rw [mem_toFinset, ← AList.mem_keys, AList.lookup_isSome]
    rcases hpom.fetched_or_eq with ⟨hfetched, hpom⟩ | ⟨hfetched, rfl⟩
    · simp only [record, hfetched, if_true, Finset.mem_union, not_or] at hkey
      have hnone : pom.properties.lookup key = none := by
        simpa using (not_congr hmem).mp hkey.2
      have hnone' : pom'.properties.lookup key = none := by
        rw [← hpom.properties] at hkey
        simpa using (not_congr hmem).mp hkey.2
      exact ⟨hnone'.trans hnone.symm, fun _ => hkey.1⟩
    · simp only [record, hfetched, Bool.false_eq_true, if_false, Finset.mem_sdiff, not_and,
        not_not] at hkey
      refine ⟨rfl, fun hnone hmem' => ?_⟩
      have hsome := hmem.mp (hkey hmem')
      rw [hnone] at hsome
      cases hsome
  induction hancestors generalizing pom pom' input with
  | nil => exact (hstep hpom hkey).1
  | cons hparent _ ih =>
    obtain ⟨hsame, hnone⟩ := hstep hpom hkey
    simp only [assemble, inheritFrom, extendProperties_lookup, hsame]
    cases hlookup : pom.properties.lookup key with
    | some value => rfl
    | none => exact ih hparent (hnone hlookup)

theorem gav_eq (pom : Pom) (ancestors : List Pom) (input : Bool) :
    (assemble pom ancestors).groupId = (ofChain pom ancestors input).groupId.map Prod.snd ∧
      (assemble pom ancestors).version = (ofChain pom ancestors input).version.map Prod.snd := by
  induction ancestors generalizing pom input with
  | nil =>
    cases hgroup : pom.groupId <;> cases hversion : pom.version <;>
      simp [assemble, ofChain, record, start, hgroup, hversion]
  | cons parent ancestors ih =>
    cases hgroup : pom.groupId <;> cases hversion : pom.version <;>
      simp [assemble, inheritFrom, ofChain, record, hgroup, hversion, ih parent false]

end FetchedValues

theorem lookup_zip_zipWith_or {names : List Text} {values values' : List (Option Text)}
    (hlen : values.length = values'.length) (name : Text) :
    ((names.zip (List.zipWith Option.or values values')).lookup name).join =
      ((names.zip values).lookup name).join.or ((names.zip values').lookup name).join := by
  induction names generalizing values values' with
  | nil => rfl
  | cons head names ih =>
    cases values with
    | nil =>
      cases values' with
      | nil => rfl
      | cons value' values' => cases hlen
    | cons value values =>
      cases values' with
      | nil => cases hlen
      | cons value' values' =>
        simp only [zipWith_cons_cons, zip_cons_cons, lookup_cons]
        cases name == head with
        | true => rfl
        | false => exact ih (Nat.succ.inj hlen)

theorem Build.inherit_field (own parent : Build) (name : Text) :
    ((own.inherit parent).field name).join = (own.field name).join.or (parent.field name).join :=
  lookup_zip_zipWith_or (show own.fields.length = parent.fields.length from rfl) name

theorem FetchedValues.build_eq (pom : Pom) (ancestors : List Pom) (input : Bool) (field : Text) :
    ((assemble pom ancestors).build.field field).join =
      ((ofChain pom ancestors input).build.lookup field).map Prod.snd := by
  have hmap : ∀ (fetched : Bool) (own : Option Text) (value : Option (Bool × Text)),
      ((own.map fun raw => (fetched, raw)).or value).map Prod.snd =
        own.or (value.map Prod.snd) := by
    intro fetched own value
    cases own <;> rfl
  induction ancestors generalizing pom input with
  | nil =>
    rw [ofChain, record_build, hmap]
    exact (Option.or_none).symm
  | cons parent ancestors ih =>
    rw [ofChain, record_build, hmap, ← ih]
    exact Build.inherit_field pom.build (assemble parent ancestors).build field

end Raeva.Model
