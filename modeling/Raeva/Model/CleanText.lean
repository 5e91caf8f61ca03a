import Raeva.Model.Revalue

/-!
# Texts that take no fetched value

A text is clean when the names it leads to, level by level, end at values that
no fetched POM chose.  Over two chains that differ only in the values of their
fetched POMs, a clean text is expanded alike: each of its names reads the same
property, coordinate or `<build>` field, and follows the same text.  The
coordinates of `<parent>` are expanded without the model, which the analysis
does not follow; `Chain.Sees` says when that makes no difference.
-/

namespace Raeva.Model

open List

namespace FetchedValues

section Clean

variable (values : FetchedValues) (properties : Table Text Text) (ctx : ActivationContext)

inductive Reaches (text : Text) : Text → Prop where
  | self : Reaches text text
  | follow {inner name raw : Text} : Reaches text inner → name ∈ expressionNames inner →
      values.trace properties ctx name = .text raw → Reaches text raw

/-- A text that takes a fetched POM's value when it is expanded over the
properties alone. -/
inductive PlainTainted : Text → Prop where
  | nested {text name : Text} : name ∈ expressionNames text → Text.contains name opening = true →
      PlainTainted text
  | chosen {text name : Text} : name ∈ expressionNames text →
      values.traceProperty properties ctx ((propertyAlias name).getD name) .nothing = .chosen →
      PlainTainted text
  | follow {text name raw : Text} : name ∈ expressionNames text →
      values.traceProperty properties ctx ((propertyAlias name).getD name) .nothing = .text raw →
      PlainTainted raw → PlainTainted text

/-- A text from which `n` levels of names, all of them `seen`, lead to no value
that a fetched POM chose. -/
def Clean (seen : Text → Prop) : ℕ → Text → Prop
  | 0, _ => False
  | n + 1, text => ∀ name ∈ expressionNames text, seen name ∧
      values.trace properties ctx name ≠ .chosen ∧
      ∀ raw, values.trace properties ctx name = .text raw → Clean seen n raw

variable {values properties ctx} {text : Text} {seen : Text → Prop}

theorem Reaches.trans {inner raw : Text} (h : Reaches values properties ctx text inner)
    (h' : Reaches values properties ctx inner raw) : Reaches values properties ctx text raw := by
  induction h' with
  | self => exact h
  | follow _ hname htrace ih => exact ih.follow hname htrace

theorem Clean.succ {n : ℕ} (h : values.Clean properties ctx seen n text) :
    values.Clean properties ctx seen (n + 1) text := by
  induction n generalizing text with
  | zero => exact h.elim
  | succ n ih =>
    intro name hname
    obtain ⟨hseen, hchosen, hfollow⟩ := h name hname
    exact ⟨hseen, hchosen, fun raw hraw => ih (hfollow raw hraw)⟩

theorem contains_of_trace {name : Text} (h : values.trace properties ctx name ≠ .chosen) :
    Text.contains name opening = false := by
  by_contra hcontains
  exact h (if_pos (Bool.eq_true_of_not_eq_false hcontains))

theorem exists_step_of_foldlM {α β : Type} {f : β → α → Option β} {l : List α} {b b' : β}
    (h : l.foldlM f b = some b') {a : α} (ha : a ∈ l) : ∃ b₁ b₂, f b₁ a = some b₂ := by
  induction l generalizing b with
  | nil => cases ha
  | cons head l ih =>
    rw [foldlM_cons] at h
    obtain ⟨b₁, hb₁, hrest⟩ := Option.bind_eq_some_iff.mp h
    rcases mem_cons.mp ha with rfl | ha
    · exact ⟨b, b₁, hb₁⟩
    · exact ih hrest ha

theorem clean_of_choseWithin {left : ℕ} {budget budget' : ℕ}
    (h : values.choseWithin properties ctx left text budget = some budget')
    (hseen : ∀ inner, Reaches values properties ctx text inner →
      ∀ name ∈ expressionNames inner, seen name) : values.Clean properties ctx seen left text := by
  induction left generalizing text budget budget' with
  | zero => cases h
  | succ left ih =>
    intro name hname
    obtain ⟨b₁, b₂, hstep⟩ := exists_step_of_foldlM h hname
    split at hstep
    · cases hstep
    refine ⟨hseen text .self name hname, fun htrace => ?_, fun raw htrace => ?_⟩
    · simp only [htrace] at hstep
      cases hstep
    · simp only [htrace] at hstep
      refine ih hstep fun inner hinner => hseen inner ?_
      exact (Reaches.self.follow hname htrace).trans hinner

end Clean

end FetchedValues

def fieldName (name : Text) : Text :=
  ((propertyAlias name).or (modelField name)).getD name

/-- A name that reads a field of the model: by the full name of the field, or by another that no
property has. -/
def Chain.ReadsField (chain : Chain) (ctx : ActivationContext) (name field : Text) : Prop :=
  fieldName name = field ∧
    (modelField name = some field ∨ (chain.modelProperties ctx).lookup field = none)

/-- A name that the analysis follows as the interpolator reads it. -/
structure Chain.Sees (chain : Chain) (ctx : ActivationContext) (name : Text) : Prop where
  /-- A coordinate of `<parent>`, where it is read, takes no value of a fetched POM by itself. -/
  parent : ∀ field raw, chain.ReadsField ctx name field →
    chain.root.parentFields.lookup field = some raw →
    ¬ chain.fetchedValues.PlainTainted chain.effective.properties ctx raw
  /-- The project's directory is known, where it is read. -/
  directory : ∀ field ∈ FetchedValues.localFields, modelField name = some field → ctx.baseDir.isSome
  /-- The chain gives a group and a version, where they are read. -/
  groupId : chain.ReadsField ctx name "groupId" → chain.effective.groupId.isSome
  version : chain.ReadsField ctx name "version" → chain.effective.version.isSome

/-- The names that the analysis follows from a text are read as it follows them. -/
def Chain.SeesAll (chain : Chain) (ctx : ActivationContext) (text : Text) : Prop :=
  ∀ inner, chain.fetchedValues.Reaches chain.effective.properties ctx text inner →
    ∀ name ∈ expressionNames inner, chain.Sees ctx name

namespace Chain

open FetchedValues (Traced localFields buildName)

def Clean (chain : Chain) (ctx : ActivationContext) (n : ℕ) (text : Text) : Prop :=
  chain.fetchedValues.Clean chain.effective.properties ctx (chain.Sees ctx) n text

abbrev trace (chain : Chain) (ctx : ActivationContext) (name : Text) : Traced :=
  chain.fetchedValues.trace chain.effective.properties ctx name

abbrev traceProperty (chain : Chain) (ctx : ActivationContext) (key : Text) (absent : Traced) :
    Traced :=
  chain.fetchedValues.traceProperty chain.effective.properties ctx key absent

/-- What a name leads to is no fetched value, and a clean text if it is one. -/
def Leads (chain : Chain) (ctx : ActivationContext) (n : ℕ) (traced : Traced) : Prop :=
  traced ≠ .chosen ∧ ∀ raw, traced = .text raw → chain.Clean ctx n raw

theorem fetchedValues_own (chain : Chain) : chain.fetchedValues.own = chain.root.ownFields := by
  obtain ⟨root, ancestors⟩ := chain
  cases ancestors <;> rfl

theorem effective_root (chain : Chain) :
    chain.effective.parent = chain.root.parent ∧
      chain.effective.artifactId = chain.root.artifactId ∧
      chain.effective.packaging = chain.root.packaging := by
  obtain ⟨root, ancestors⟩ := chain
  cases ancestors <;> exact ⟨rfl, rfl, rfl⟩

variable {chain chain' : Chain} {ctx : ActivationContext}

section Properties

variable (hreplaces : chain.Replaces chain')
include hreplaces

theorem Replaces.sameOrigins : FetchedValues.SameOrigins chain.fetchedValues chain'.fetchedValues :=
  FetchedValues.ofChain_sameOrigins hreplaces.1 hreplaces.2

theorem Replaces.lookup_eq {key : Text} {absent : Traced}
    (h : chain.traceProperty ctx key absent ≠ .chosen) :
    (chain'.modelProperties ctx).lookup key = (chain.modelProperties ctx).lookup key := by
  rw [modelProperties, modelProperties, ActivationContext.modelProperties_lookup,
    ActivationContext.modelProperties_lookup]
  rw [traceProperty, FetchedValues.traceProperty] at h
  cases hctx : (ctx.properties.lookup key).or (ctx.settingsProperties.lookup key) with
  | some value => rfl
  | none =>
    simp only [hctx] at h
    have hkey : key ∉ chain.fetchedValues.keys := fun hmem => h (if_pos hmem)
    rw [Option.none_or, Option.none_or]
    exact FetchedValues.properties_eq hreplaces.1 hreplaces.2 hkey

end Properties

variable {field key raw : Text} {absent : Traced} {value : Option (Bool × Text)} {lookup : Lookup}
  {project : ProjectInfo}

theorem traceProperty_eq (h : chain.traceProperty ctx key absent ≠ .chosen) :
    chain.traceProperty ctx key absent =
      ((chain.modelProperties ctx).lookup key).elim absent .text := by
  rw [modelProperties, ActivationContext.modelProperties_lookup]
  rw [traceProperty, FetchedValues.traceProperty] at h ⊢
  cases hctx : (ctx.properties.lookup key).or (ctx.settingsProperties.lookup key) with
  | some value => rfl
  | none =>
    simp only [hctx] at h ⊢
    have hkey : key ∉ chain.fetchedValues.keys := fun hmem => h (if_pos hmem)
    rw [if_neg hkey, Option.none_or]
    cases chain.effective.properties.lookup key <;> rfl

theorem traceProperty_of_some (h : chain.traceProperty ctx key absent ≠ .chosen)
    (hraw : (chain.modelProperties ctx).lookup key = some raw) :
    chain.traceProperty ctx key absent = .text raw := by
  rw [traceProperty_eq h, hraw]
  rfl

theorem Leads.recorded {n : ℕ} (h : chain.Leads ctx n (.ofValue value)) :
    value = none ∨ ∃ raw, value = some (false, raw) ∧ chain.Clean ctx n raw := by
  rcases value with _ | ⟨_ | _, raw⟩
  · exact .inl rfl
  · exact .inr ⟨raw, rfl, h.2 raw rfl⟩
  · exact absurd rfl h.1

/-! ## Expansion without the model -/

theorem resolveBuiltin_none (key : Text) : resolveBuiltin key none = none := by
  rw [resolveBuiltin]
  cases Text.stripPrefix key "pom." <;> rfl

theorem resolveAbsent_plain (hproject : lookup.project = none)
    (inner inner' : Text → Expanding Text) (written key : Text) :
    resolveAbsent lookup inner written key = resolveAbsent lookup inner' written key := by
  have hbuild : ∀ (inner : Text → Expanding Text) (field : Text),
      resolveBuild lookup inner field = pure none := by
    intro inner field
    exact resolveBuild_none (by rw [hproject]; rfl)
  rw [resolveAbsent, resolveAbsent]
  simp only [hbuild]

/-- A text that takes no fetched value by itself is expanded alike over the
properties alone. -/
theorem Replaces.plain_eq (hreplaces : chain.Replaces chain') (hproject : lookup.project = none)
    (left : ℕ) {text : Text}
    (htext : ¬ chain.fetchedValues.PlainTainted chain.effective.properties ctx text) :
    interpolateStrInner (chain.modelProperties ctx) lookup left text =
      interpolateStrInner (chain'.modelProperties ctx) lookup left text := by
  refine @interpolateStrInner_congr
    (fun text => ¬ chain.fetchedValues.PlainTainted chain.effective.properties ctx text)
    _ _ _ _ ?_ left text htext
  intro text htext name hname
  have hplain : Text.contains name opening = false := by
    by_contra hcontains
    exact htext (.nested hname (Bool.eq_true_of_not_eq_false hcontains))
  refine ⟨hplain, fun inner inner' hinner => ?_⟩
  have htrace := fun h => htext (.chosen hname h)
  have hbuild : ∀ field, modelBuildField name = some field →
      buildValue field lookup.project = none := by
    intro field _
    rw [hproject]
    rfl
  have hbuiltin : resolveBuiltin name lookup.project = none := by
    rw [hproject]
    exact resolveBuiltin_none name
  have hprerequisite : lookup.project.bind (·.prerequisitesMaven) = none := by
    rw [hproject]
    rfl
  rw [resolveValueInner_of_named hbuild hbuiltin (.inl hprerequisite),
    resolveValueInner_of_named hbuild hbuiltin (.inl hprerequisite)]
  refine resolveNamed_congr (hreplaces.lookup_eq htrace).symm (fun raw hraw => ?_) fun _ =>
    resolveAbsent_plain hproject _ _ _ _
  exact hinner raw fun hraw' => htext (.follow hname (traceProperty_of_some htrace hraw) hraw')

/-! ## Expansion with the model -/

/-- Two models of the same directory, platform and `<build>`, whose parents'
coordinates are alike where they take no fetched value. -/
structure SameScope (chain chain' : Chain) (ctx : ActivationContext)
    (project project' : ProjectInfo) : Prop where
  basedir : project.basedir = ctx.baseDir ∧ project'.basedir = ctx.baseDir
  systemProperties : project'.systemProperties = project.systemProperties
  environment : project'.environment = project.environment
  build : project.build = chain.effective.build ∧ project'.build = chain'.effective.build
  parent : ∀ field raw, chain.root.parentFields.lookup field = some raw →
    ¬ chain.fetchedValues.PlainTainted chain.effective.properties ctx raw →
    ∃ value, resolveUnprefixedModelField field (some project) = some value ∧
      resolveUnprefixedModelField field (some project') = some value
  noParent : chain.root.parent = none → project.parent = none ∧ project'.parent = none

/-- Two models whose fields are read alike by texts that are clean to depth
`n + 1`: a field that such a text reads is clean to depth `n`. -/
structure Alike (chain chain' : Chain) (ctx : ActivationContext) (n : ℕ)
    (project project' : ProjectInfo) : Prop extends
    SameScope chain chain' ctx project project' where
  groupId : ∀ raw, chain.fetchedValues.groupId = some (false, raw) → chain.Clean ctx n raw →
    project'.groupId = project.groupId ∧ project.groupId ≠ []
  artifactId : ∃ raw, chain.root.artifactId = some raw ∧ (chain.Clean ctx n raw →
    project'.artifactId = project.artifactId ∧ project.artifactId ≠ [])
  version : ∀ raw, chain.fetchedValues.version = some (false, raw) → chain.Clean ctx n raw →
    project'.version = project.version ∧ project.version ≠ []
  packaging : chain.Clean ctx n (chain.root.packaging.getD "jar") →
    project'.packaging = project.packaging

theorem effective_groupId (chain : Chain) :
    chain.effective.groupId = chain.fetchedValues.groupId.map Prod.snd :=
  (FetchedValues.gav_eq chain.root chain.ancestors true).1

theorem effective_version (chain : Chain) :
    chain.effective.version = chain.fetchedValues.version.map Prod.snd :=
  (FetchedValues.gav_eq chain.root chain.ancestors true).2

theorem buildValue_eq (hbuild : project.build = chain.effective.build)
    (hfield : field ∈ Build.names) :
    buildValue field (some project) = (chain.fetchedValues.buildField field).map Prod.snd := by
  have hrecord := FetchedValues.build_eq chain.root chain.ancestors true field
  obtain ⟨value, hvalue⟩ : ∃ value, chain.effective.build.field field = some value := by
    simp only [Build.names, mem_cons, not_mem_nil, or_false] at hfield
    rcases hfield with rfl | rfl | rfl | rfl | rfl | rfl | rfl | rfl <;> exact ⟨_, rfl⟩
  change (chain.effective.build.field field).join =
    (chain.fetchedValues.build.lookup field).map Prod.snd at hrecord
  rw [hvalue] at hrecord
  change value = _ at hrecord
  rw [buildValue, Option.bind_some, hbuild, hvalue, Option.bind_some, hrecord,
    FetchedValues.buildField]
  cases chain.fetchedValues.build.lookup field with
  | some recorded => rfl
  | none =>
    cases superPomBuild field <;> rfl

theorem buildValue_of_notMem (hfield : field ∉ Build.names) :
    buildValue field (some project) = none := by
  have hnone : project.build.field field = none := by
    rw [Build.field, lookup_eq_none_iff]
    intro entry hentry
    have hne : field ≠ entry.1 := fun h => hfield (h ▸ (of_mem_zip hentry).1)
    simpa using hne
  rw [buildValue, Option.bind_some, hnone]
  rfl

theorem ownFields_lookup_artifactId (h : chain.root.artifactId = some raw) :
    chain.fetchedValues.own.lookup "artifactId".toList = some raw := by
  rw [fetchedValues_own, Pom.ownFields, h]
  rfl

theorem ownFields_lookup (hartifact : field ≠ "artifactId")
    (hpackaging : field ≠ "packaging") :
    chain.fetchedValues.own.lookup field = chain.root.parentFields.lookup field := by
  have hartifact' : (field == "artifactId") = false := by simpa using hartifact
  have hpackaging' : (field == "packaging") = false := by simpa using hpackaging
  rw [fetchedValues_own, Pom.ownFields]
  cases chain.root.artifactId with
  | none =>
    simp only [Option.map_none, Option.toList_none, nil_append, lookup_cons, hpackaging']
  | some raw =>
    simp only [Option.map_some, Option.toList_some, cons_append, nil_append,
      lookup_cons, hpackaging', hartifact']

theorem ownFields_lookup_packaging :
    chain.fetchedValues.own.lookup "packaging".toList =
      some (chain.root.packaging.getD "jar") := by
  rw [fetchedValues_own, Pom.ownFields]
  cases chain.root.artifactId <;> rfl

theorem parentFields_lookup_none (hfield : field ∉ parentNames) :
    chain.root.parentFields.lookup field = none := by
  rw [Pom.parentFields]
  cases chain.root.parent with
  | none => rfl
  | some parent =>
    simp only [parentNames, mem_cons, not_mem_nil, or_false, not_or] at hfield
    rw [lookup_eq_none_iff]
    intro entry hentry
    simp only [mem_cons, not_mem_nil, or_false] at hentry
    rcases hentry with rfl | rfl | rfl
    · simpa using hfield.1
    · simpa using hfield.2.1
    · simpa using hfield.2.2

theorem mem_parentNames_of_lookup {raw : Text}
    (h : chain.root.parentFields.lookup field = some raw) : field ∈ parentNames := by
  by_contra hfield
  rw [parentFields_lookup_none hfield] at h
  cases h

theorem parentFields_lookup_some (hfield : field ∈ parentNames) {parent : Parent}
    (hparent : chain.root.parent = some parent) :
    ∃ raw, chain.root.parentFields.lookup field = some raw := by
  rw [Pom.parentFields, hparent]
  simp only [parentNames, mem_cons, not_mem_nil, or_false] at hfield
  rcases hfield with rfl | rfl | rfl <;> exact ⟨_, rfl⟩

theorem own_lookup_build : chain.fetchedValues.own.lookup ("build." ++ field) = none := by
  rw [ownFields_lookup (fun h => by cases h) (fun h => by cases h)]
  exact parentFields_lookup_none (by simp [parentNames])

theorem build_ne_groupId : "build." ++ field ≠ "groupId" :=
  fun h => by cases h

theorem build_ne_version : "build." ++ field ≠ "version" :=
  fun h => by cases h

theorem ofValue_ne_nothing (h : value.isSome = true) : Traced.ofValue value ≠ .nothing := by
  rcases value with _ | ⟨_ | _, raw⟩
  · cases h
  · exact fun heq => by cases heq
  · exact fun heq => by cases heq

section Fields

variable {n : ℕ} {project project' : ProjectInfo} (h : Alike chain chain' ctx n project project')
  {name : Text} (hsees : chain.Sees ctx name)
include h hsees

theorem Alike.field_read {field : Text} (hreads : chain.ReadsField ctx name field)
    (hlead : chain.Leads ctx n (chain.fetchedValues.traceUnprefixed true field)) :
    (∃ value, resolveUnprefixedModelField field (some project) = some value ∧
      resolveUnprefixedModelField field (some project') = some value) ∨
    chain.fetchedValues.traceUnprefixed true field = .nothing ∧
      resolveUnprefixedModelField field (some project) = none ∧
      resolveUnprefixedModelField field (some project') = none := by
  have hvalue : ∀ {own own' : Text}, own' = own ∧ own ≠ [] →
      ∃ value, (some own).filter (!·.isEmpty) = some value ∧
        (some own').filter (!·.isEmpty) = some value := by
    rintro own own' ⟨rfl, hne⟩
    have hfilter : (some own').filter (!·.isEmpty) = some own' := by simp [hne]
    exact ⟨own', hfilter, hfilter⟩
  rw [FetchedValues.traceUnprefixed] at hlead ⊢
  by_cases hgroup : field = "groupId".toList
  · subst hgroup
    have hsome := hsees.groupId hreads
    rw [if_pos rfl] at hlead
    rcases hlead.recorded with hnone | ⟨raw, hraw, hclean⟩
    · rw [effective_groupId, hnone] at hsome
      cases hsome
    · exact .inl (hvalue (h.groupId raw hraw hclean))
  rw [if_neg hgroup] at hlead ⊢
  by_cases hversion : field = "version".toList
  · subst hversion
    have hsome := hsees.version hreads
    rw [if_pos rfl] at hlead
    rcases hlead.recorded with hnone | ⟨raw, hraw, hclean⟩
    · rw [effective_version, hnone] at hsome
      cases hsome
    · exact .inl (hvalue (h.version raw hraw hclean))
  rw [if_neg hversion] at hlead ⊢
  by_cases hartifact : field = "artifactId".toList
  · subst hartifact
    obtain ⟨raw, hraw, halike⟩ := h.artifactId
    rw [ownFields_lookup_artifactId hraw] at hlead
    exact .inl (hvalue (halike (hlead.2 raw rfl)))
  by_cases hpackaging : field = "packaging".toList
  · subst hpackaging
    rw [ownFields_lookup_packaging] at hlead
    exact .inl ⟨project.packaging, rfl, congrArg some (h.packaging (hlead.2 _ rfl))⟩
  rw [ownFields_lookup hartifact hpackaging]
  cases hown : chain.root.parentFields.lookup field with
  | some raw => exact .inl (h.parent field raw hown (hsees.parent field raw hreads hown))
  | none =>
    refine .inr ⟨rfl, ?_⟩
    by_cases hparent : field ∈ parentNames
    · cases hroot : chain.root.parent with
      | none =>
        exact ⟨resolveUnprefixedModelField_noParent (h.noParent hroot).1 hparent,
          resolveUnprefixedModelField_noParent (h.noParent hroot).2 hparent⟩
      | some parent =>
        obtain ⟨raw, hraw⟩ := parentFields_lookup_some hparent hroot
        rw [hown] at hraw
        cases hraw
    · have hfield : field ∉
          ["groupId".toList, "artifactId".toList, "version".toList, "packaging".toList] := by
        simp only [mem_cons, not_mem_nil, or_false, not_or]
        exact ⟨hgroup, hartifact, hversion, hpackaging⟩
      exact ⟨resolveUnprefixedModelField_none hfield hparent,
        resolveUnprefixedModelField_none hfield hparent⟩

theorem Alike.field_eq {aliased : Bool} {field : Text} (hreads : chain.ReadsField ctx name field)
    (hlead : chain.Leads ctx n (chain.fetchedValues.traceUnprefixed aliased field)) :
    resolveUnprefixedModelField field (some project) =
      resolveUnprefixedModelField field (some project') := by
  cases hbuildName : buildName field with
  | some build =>
    -- a `build.` name is no field of the model, so what it leads to does not matter here
    obtain ⟨hstrip, -⟩ := Option.filter_eq_some_iff.mp hbuildName
    rw [Text.stripPrefix_eq_some.mp hstrip]
    rfl
  | none =>
    have haliased : chain.fetchedValues.traceUnprefixed aliased field =
        chain.fetchedValues.traceUnprefixed true field := by
      simp only [FetchedValues.traceUnprefixed, hbuildName, ite_self]
    rw [haliased] at hlead
    rcases h.field_read hsees hreads hlead with ⟨value, hvalue, hvalue'⟩ | ⟨-, hnone, hnone'⟩
    · rw [hvalue, hvalue']
    · rw [hnone, hnone']

end Fields

/-! ## One name -/

def ReadAlike (chain chain' : Chain) (ctx : ActivationContext) (project project' : ProjectInfo)
    (inner inner' : Text → Expanding Text) (name : Text) : Prop :=
  resolveValueInner (chain.modelProperties ctx) (.ofProject project) inner name =
    resolveValueInner (chain'.modelProperties ctx) (.ofProject project') inner' name

/-- No model has a value for the `<build>` field that a name asks for. -/
def NoBuild (project project' : ProjectInfo) (name : Text) : Prop :=
  ∀ field, modelBuildField name = some field →
    buildValue field (some project) = none ∧ buildValue field (some project') = none

theorem noBuild_of_none {project project' : ProjectInfo} {name : Text}
    (h : modelBuildField name = none) : NoBuild project project' name := by
  intro field hfield
  rw [h] at hfield
  cases hfield

section Names

variable (hreplaces : chain.Replaces chain') {n : ℕ} {project project' : ProjectInfo}
  (h : Alike chain chain' ctx n project project') {inner inner' : Text → Expanding Text}
  (hinner : ∀ text, chain.Clean ctx (n + 1) text → inner text = inner' text) {name : Text}
  {field key : Text}

theorem readAlike_of_builtin {value : Text} (hbuild : NoBuild project project' name)
    (hvalue : resolveBuiltin name (some project) = some value)
    (hvalue' : resolveBuiltin name (some project') = some value) :
    ReadAlike chain chain' ctx project project' inner inner' name := by
  rw [ReadAlike, resolveValueInner_of_builtin (fun field hfield => (hbuild field hfield).1) hvalue,
    resolveValueInner_of_builtin (fun field hfield => (hbuild field hfield).2) hvalue']

include h in
theorem Alike.resolveAbsent_eq {written : Text}
    (hbuild : ∀ field, Text.stripPrefix written "build." = some field →
      resolveBuild (.ofProject project) inner field =
        resolveBuild (.ofProject project') inner' field)
    (hfield : resolveUnprefixedModelField key (some project) =
      resolveUnprefixedModelField key (some project')) :
    resolveAbsent (.ofProject project) inner written key =
      resolveAbsent (.ofProject project') inner' written key := by
  have hplatform : (Lookup.ofProject project').platform = (Lookup.ofProject project).platform :=
    congrArg some h.systemProperties
  have henvironment : (Lookup.ofProject project').effectiveEnvironment =
      (Lookup.ofProject project).effectiveEnvironment := congrArg some h.environment
  have hdetected : osDetectedOnLinux key (.ofProject project') =
      osDetectedOnLinux key (.ofProject project) := by
    simp only [osDetectedOnLinux, hplatform, henvironment]
  have hsystem : resolveSystemProperty key (.ofProject project') =
      resolveSystemProperty key (.ofProject project) := by
    simp only [resolveSystemProperty, hplatform, henvironment]
    rfl
  have hfield' : resolveUnprefixedModelField key (Lookup.ofProject project).project =
      resolveUnprefixedModelField key (Lookup.ofProject project').project := hfield
  rw [resolveAbsent, resolveAbsent, hdetected, hsystem, hfield']
  cases hstrip : Text.stripPrefix written "build." with
  | none => rfl
  | some field => simp only [hbuild field hstrip]

include hreplaces h hinner

theorem Alike.resolveBuild_eq (hfield : field ∈ Build.names)
    (hlead : chain.Leads ctx n (.ofValue (chain.fetchedValues.buildField field))) :
    resolveBuild (.ofProject project) inner field =
      resolveBuild (.ofProject project') inner' field := by
  have hsame := hreplaces.sameOrigins.buildField field
  have hvalue := buildValue_eq h.build.1 hfield
  have hvalue' := buildValue_eq h.build.2 hfield
  have heq : chain'.fetchedValues.buildField field = chain.fetchedValues.buildField field := by
    rcases hlead.recorded with hnone | ⟨raw, hraw, -⟩
    · rw [hnone] at hsame ⊢
      exact hsame.none
    · exact (hsame.own raw hraw).trans hraw.symm
  rw [heq] at hvalue'
  refine resolveBuild_congr (hvalue.trans hvalue'.symm) (fun value => ?_) fun raw hraw => ?_
  · have hbasedir : (some project).bind ProjectInfo.basedir =
        (some project').bind ProjectInfo.basedir := h.basedir.1.trans h.basedir.2.symm
    change alignBuild field value (some project) = alignBuild field value (some project')
    rw [alignBuild, alignBuild, hbasedir]
  · rcases hlead.recorded with hnone | ⟨raw', hraw', hclean⟩
    · rw [hnone] at hvalue
      cases hvalue.symm.trans hraw
    · rw [hraw'] at hvalue
      cases hvalue.symm.trans hraw
      exact hinner raw' hclean.succ

/-- A name that no builtin answers, read as a property and then as `absent`. -/
theorem Alike.named_eq {absent : Traced} (hbuild : NoBuild project project' name)
    (hbuiltin : resolveBuiltin name (some project) = none)
    (hbuiltin' : resolveBuiltin name (some project') = none)
    (hprerequisite : modelField name ≠ some "prerequisites.maven".toList)
    (hlead : chain.Leads ctx n (chain.traceProperty ctx ((propertyAlias name).getD name) absent))
    (habsent : (chain.modelProperties ctx).lookup ((propertyAlias name).getD name) = none →
      chain.Leads ctx n absent →
      (∀ field, Text.stripPrefix name "build." = some field →
        resolveBuild (.ofProject project) inner field =
          resolveBuild (.ofProject project') inner' field) ∧
      resolveUnprefixedModelField ((propertyAlias name).getD name) (some project) =
        resolveUnprefixedModelField ((propertyAlias name).getD name) (some project')) :
    ReadAlike chain chain' ctx project project' inner inner' name := by
  have hname : name ≠ "project.prerequisites.maven" ∧
      name ≠ "pom.prerequisites.maven" := by
    constructor
    · rintro rfl
      exact hprerequisite rfl
    · rintro rfl
      exact hprerequisite rfl
  rw [ReadAlike,
    resolveValueInner_of_named (fun field hfield => (hbuild field hfield).1) hbuiltin (.inr hname),
    resolveValueInner_of_named (fun field hfield => (hbuild field hfield).2) hbuiltin' (.inr hname)]
  refine resolveNamed_congr (hreplaces.lookup_eq hlead.1).symm (fun raw hraw => ?_) fun hnone => ?_
  · exact hinner raw (hlead.2 raw (traceProperty_of_some hlead.1 hraw)).succ
  · rw [traceProperty_eq hlead.1, hnone] at hlead
    obtain ⟨hbuild, hfield⟩ := habsent hnone hlead
    exact h.resolveAbsent_eq hbuild hfield

theorem Alike.unprefixed_eq (hsees : chain.Sees ctx name) (hnone : propertyAlias name = none)
    (hmodel : modelField name = none) (hlead : chain.Leads ctx n (chain.trace ctx name)) :
    ReadAlike chain chain' ctx project project' inner inner' name := by
  have hbuild : NoBuild project project' name :=
    noBuild_of_none (modelBuildField_of_modelField_none hmodel)
  have hbuiltin := resolveBuiltin_of_modelField_none hmodel project
  have hbuiltin' := resolveBuiltin_of_modelField_none hmodel project'
  have hbasedir : project'.basedir = project.basedir := h.basedir.2.trans h.basedir.1.symm
  rw [hbasedir] at hbuiltin'
  cases hvalue : (if name = "basedir" then project.basedir else none : Option Text) with
  | some value =>
    exact readAlike_of_builtin hbuild (hbuiltin.trans hvalue) (hbuiltin'.trans hvalue)
  | none =>
    have htrace : chain.trace ctx name = chain.traceProperty ctx ((propertyAlias name).getD name)
        (chain.fetchedValues.traceUnprefixed false name) := by
      simp only [FetchedValues.trace, FetchedValues.contains_of_trace hlead.1, hnone, hmodel,
        Option.getD_none, Bool.false_eq_true, if_false]
    rw [htrace] at hlead
    refine h.named_eq hreplaces hinner hbuild (hbuiltin.trans hvalue) (hbuiltin'.trans hvalue)
      (by simp [hmodel]) hlead fun hlookup hlead => ?_
    rw [hnone, Option.getD_none] at hlookup ⊢
    have hname : fieldName name = name := by
      rw [fieldName, hnone, hmodel]
      rfl
    refine ⟨fun field hstrip => ?_, h.field_eq hsees ⟨hname, .inr hlookup⟩ hlead⟩
    have hfieldname : name = "build." ++ field := Text.stripPrefix_eq_some.mp hstrip
    by_cases hfield : field ∈ Build.names
    · have hbuildName : buildName name = some field :=
        Option.filter_eq_some_iff.mpr ⟨hstrip, by simpa using hfield⟩
      have hunprefixed : chain.fetchedValues.traceUnprefixed false name =
          .ofValue (chain.fetchedValues.buildField field) := by
        rw [hfieldname] at hbuildName ⊢
        simp only [FetchedValues.traceUnprefixed, if_neg build_ne_groupId,
          if_neg build_ne_version, own_lookup_build, hbuildName, Bool.false_eq_true, if_false]
      rw [hunprefixed] at hlead
      exact h.resolveBuild_eq hreplaces hinner hfield hlead
    · rw [resolveBuild_none (buildValue_of_notMem hfield),
        resolveBuild_none (buildValue_of_notMem hfield)]

theorem Alike.alias_eq (hsees : chain.Sees ctx name) (halias : propertyAlias name = some key)
    (hlead : chain.Leads ctx n (chain.trace ctx name)) :
    ReadAlike chain chain' ctx project project' inner inner' name := by
  have hmodel : modelField name = some ("properties." ++ key) := by
    rcases Option.or_eq_some_iff.mp halias with hstrip | ⟨-, hstrip⟩
    · rw [Text.stripPrefix_eq_some.mp hstrip]
      exact modelField_project ("properties." ++ key)
    · rw [Text.stripPrefix_eq_some.mp hstrip]
      exact modelField_pom ("properties." ++ key)
  have htrace : chain.trace ctx name = chain.traceProperty ctx ((propertyAlias name).getD name)
      (chain.fetchedValues.traceUnprefixed true key) := by
    simp only [FetchedValues.trace, FetchedValues.contains_of_trace hlead.1, halias,
      Option.getD_some, Bool.false_eq_true, if_false]
  rw [htrace] at hlead
  refine h.named_eq hreplaces hinner (noBuild_of_none (modelBuildField_of_modelField hmodel))
    (resolveBuiltin_of_modelField hmodel project) (resolveBuiltin_of_modelField hmodel project')
    (by rw [hmodel]; exact fun heq => by cases heq) hlead fun hlookup hlead => ?_
  have hname : fieldName name = key := by
    rw [fieldName, halias]
    rfl
  rw [halias, Option.getD_some] at hlookup ⊢
  refine ⟨fun field hstrip => ?_, h.field_eq hsees ⟨hname, .inr hlookup⟩ hlead⟩
  rw [(resolveUnprefixedModelField_of_modelField hmodel project).2] at hstrip
  cases hstrip

theorem Alike.build_eq (hmodel : modelField name = some ("build." ++ field))
    (hlead : chain.Leads ctx n (chain.trace ctx name)) :
    ReadAlike chain chain' ctx project project' inner inner' name := by
  have hnone : propertyAlias name = none := propertyAlias_of_modelField hmodel
  have hbuildField : modelBuildField name = some field := by
    rw [modelBuildField_of_modelField hmodel, Text.stripPrefix_append]
  have htrace : chain.trace ctx name = if field ∈ Build.names then
      chain.fetchedValues.traceModel chain.effective.properties ctx name
        (chain.fetchedValues.buildField field) else .chosen := by
    have hlocal : "build." ++ field ∉ localFields := by simp [localFields]
    have hbuildName : buildName ("build." ++ field) =
        if field ∈ Build.names then some field else none := by
      rw [buildName, Text.stripPrefix_append]
      by_cases hfield : field ∈ Build.names <;> simp [hfield]
    simp only [FetchedValues.trace, FetchedValues.contains_of_trace hlead.1, hnone, hmodel,
      if_neg build_ne_groupId, if_neg build_ne_version, own_lookup_build, if_neg hlocal, hbuildName,
      Bool.false_eq_true, if_false]
    by_cases hfield : field ∈ Build.names
    · simp only [if_pos hfield]
    · simp only [if_neg hfield]
  rw [htrace] at hlead
  by_cases hfield : field ∈ Build.names
  swap
  · rw [if_neg hfield] at hlead
    exact absurd rfl hlead.1
  rw [if_pos hfield] at hlead
  have hsame := hreplaces.sameOrigins.buildField field
  have hraw := buildValue_eq h.build.1 hfield
  have hraw' := buildValue_eq h.build.2 hfield
  cases hrecorded : chain.fetchedValues.buildField field with
  | some value =>
    have hlead' : chain.Leads ctx n (.ofValue (chain.fetchedValues.buildField field)) := by
      rwa [FetchedValues.traceModel, if_pos (by rw [hrecorded]; rfl)] at hlead
    rw [hrecorded] at hsame hraw
    obtain ⟨value', hrecorded'⟩ := Option.isSome_iff_exists.mp hsame.isSome
    rw [hrecorded'] at hraw'
    rw [ReadAlike, resolveValueInner_of_build hbuildField hraw,
      resolveValueInner_of_build hbuildField hraw']
    exact h.resolveBuild_eq hreplaces hinner hfield hlead'
  | none =>
    rw [hrecorded] at hsame hraw hlead
    rw [hsame.none] at hraw'
    refine h.named_eq hreplaces hinner (fun build hbuild => ?_)
      (resolveBuiltin_of_modelField hmodel project) (resolveBuiltin_of_modelField hmodel project')
      (by rw [hmodel]; exact fun heq => by cases heq) (by rwa [hnone])
      fun _ _ => ⟨fun build hstrip => ?_, ?_⟩
    · cases hbuildField.symm.trans hbuild
      exact ⟨hraw, hraw'⟩
    · rw [(resolveUnprefixedModelField_of_modelField hmodel project).2] at hstrip
      cases hstrip
    · rw [hnone, Option.getD_none, (resolveUnprefixedModelField_of_modelField hmodel project).1,
        (resolveUnprefixedModelField_of_modelField hmodel project').1]

omit hreplaces hinner in
theorem Alike.model_eq (hsees : chain.Sees ctx name) (hmodel : modelField name = some field)
    (hnone : propertyAlias name = none) (hbuild : Text.stripPrefix field "build." = none)
    (hlead : chain.Leads ctx n (chain.trace ctx name)) :
    ReadAlike chain chain' ctx project project' inner inner' name := by
  have hreads : chain.ReadsField ctx name field := by
    refine ⟨?_, .inl hmodel⟩
    rw [fieldName, hnone, hmodel]
    rfl
  suffices hvalue : ∃ value, readModelField field project = some value ∧
      readModelField field project' = some value by
    obtain ⟨value, hvalue, hvalue'⟩ := hvalue
    refine readAlike_of_builtin (noBuild_of_none ?_)
      ((resolveBuiltin_of_modelField hmodel project).trans hvalue)
      ((resolveBuiltin_of_modelField hmodel project').trans hvalue')
    rw [modelBuildField_of_modelField hmodel, hbuild]
  by_cases hlocal : field ∈ localFields
  · obtain ⟨basedir, hbasedir⟩ :=
      Option.isSome_iff_exists.mp (hsees.directory field hlocal hmodel)
    have hproject := h.basedir.1.trans hbasedir
    have hproject' := h.basedir.2.trans hbasedir
    simp only [localFields, mem_cons, not_mem_nil, or_false] at hlocal
    rcases hlocal with rfl | rfl
    · exact ⟨basedir, hproject, hproject'⟩
    · exact ⟨directoryUri basedir, congrArg (Option.map directoryUri) hproject,
        congrArg (Option.map directoryUri) hproject'⟩
  have hread : ∀ project : ProjectInfo, readModelField field project =
      resolveUnprefixedModelField field (some project) := by
    simp only [localFields, mem_cons, not_mem_nil, or_false, not_or] at hlocal
    intro project
    rw [readModelField, if_neg hlocal.1, if_neg hlocal.2]
  rw [hread, hread]
  -- such a field is followed as its own name is, once no property is in the way
  have htrace : chain.fetchedValues.traceUnprefixed true field = chain.trace ctx name ∧
      chain.fetchedValues.traceUnprefixed true field ≠ .nothing := by
    have hchosen := hlead.1
    simp only [FetchedValues.trace, FetchedValues.contains_of_trace hlead.1, hnone, hmodel,
      FetchedValues.traceUnprefixed, FetchedValues.traceModel, Bool.false_eq_true, if_false]
      at hchosen ⊢
    by_cases hgroup : field = "groupId"
    · have hsome := hsees.groupId (hgroup ▸ hreads)
      rw [effective_groupId, Option.isSome_map] at hsome
      simp only [if_pos hgroup, if_pos hsome, true_and]
      exact ofValue_ne_nothing hsome
    by_cases hversion : field = "version"
    · have hsome := hsees.version (hversion ▸ hreads)
      rw [effective_version, Option.isSome_map] at hsome
      simp only [if_neg hgroup, if_pos hversion, if_pos hsome, true_and]
      exact ofValue_ne_nothing hsome
    simp only [if_neg hgroup, if_neg hversion] at hchosen ⊢
    cases hown : chain.fetchedValues.own.lookup field with
    | some raw => exact ⟨rfl, fun heq => by cases heq⟩
    | none =>
      have hbuildName : buildName field = none := by
        rw [buildName, hbuild]
        rfl
      simp only [hown, if_neg hlocal, hbuildName, ne_eq, not_true_eq_false] at hchosen
  rw [← htrace.1] at hlead
  exact (h.field_read hsees hreads hlead).resolve_right fun hnothing => htrace.2 hnothing.1

end Names

theorem Alike.interpolate_eq (hreplaces : chain.Replaces chain') {n : ℕ}
    {project project' : ProjectInfo} (h : Alike chain chain' ctx n project project') {text : Text}
    (htext : chain.Clean ctx (n + 1) text) (left : ℕ) :
    interpolateStrInner (chain.modelProperties ctx) (.ofProject project) left text =
      interpolateStrInner (chain'.modelProperties ctx) (.ofProject project') left text := by
  refine @interpolateStrInner_congr (chain.Clean ctx (n + 1)) _ _ _ _ ?_ left text htext
  intro text htext name hname
  obtain ⟨hsees, hlead⟩ := htext name hname
  refine ⟨FetchedValues.contains_of_trace hlead.1, fun inner inner' hinner => ?_⟩
  cases halias : propertyAlias name with
  | some key => exact h.alias_eq hreplaces hinner hsees halias hlead
  | none =>
    cases hmodel : modelField name with
    | none => exact h.unprefixed_eq hreplaces hinner hsees halias hmodel hlead
    | some field =>
      cases hbuild : Text.stripPrefix field "build." with
      | some build =>
        rw [Text.stripPrefix_eq_some.mp hbuild] at hmodel
        exact h.build_eq hreplaces hinner hmodel hlead
      | none => exact h.model_eq hsees hmodel halias hbuild hlead

end Chain

end Raeva.Model
